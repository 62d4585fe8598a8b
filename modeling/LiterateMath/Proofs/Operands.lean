import LiterateMath.Proofs.Lowering
import LiterateMath.Proofs.Reading

/-! The sides of a fraction or a root. Each is read as a value by itself, so in the parentheses
that it is spelled out in it makes one operand. -/
namespace LiterateMath

open Lexical

theorem callsNextToken (t : Token) (ps : List Piece) : callsNext (.token t) ps = false := by
  cases ps <;> rfl

section Groups

variable {parse : List Piece → Parsed Expr} {place : Span} {ps qs rest all : List Piece}

theorem balancedBracketed (h : Balanced ps) : Balanced (bracketed place ps) :=
  h.wrapped (b := .paren) (c := .paren) rfl rfl

theorem wholeBracketed (h : Whole ps) : Whole (bracketed place ps) := by
  have closer : Whole [Piece.token (.plain (.closing .paren) place)] :=
    .cons (fun k word => by cases word) .nil
  exact .cons (fun k word => by cases word) (h.append closer)

theorem partsBracketed : Parts (bracketed place ps) rest := by
  intro p last
  unfold bracketed at last
  rw [List.getLast?_append] at last
  cases last
  exact callsNextToken _ _

theorem Called.bracket (h : Called parse ps qs) :
    Called parse (bracketed place ps) (bracketed place qs) := by
  have closer : Called parse [.token (.plain (.closing .paren) place)]
      [.token (.plain (.closing .paren) place)] := .other rfl .nil
  have parts : Parts ps [.token (.plain (.closing .paren) place)] := by
    intro p _
    cases p <;> rfl
  exact .other (callsNextToken _ _) (h.append parts closer)

theorem Called.token {t : Token} (h : Called parse (.token t :: ps) all) :
    ∃ qs, Called parse ps qs ∧ all = .token t :: qs := by
  cases h with
  | other _ rest => exact ⟨_, rest, rfl⟩

theorem Called.withinBrackets (balanced : Balanced ps)
    (h : Called parse (bracketed place ps ++ rest) all) :
    ∃ as bs, Called parse ps as ∧ Called parse rest bs ∧
      all = bracketed place as ++ bs := by
  simp only [bracketed, List.cons_append, List.append_assoc] at h
  obtain ⟨more, inner, rfl⟩ := Called.token h
  have parts : Parts ps ([.token (.plain (.closing .paren) place)] ++ rest) := by
    intro p _
    cases p <;> rfl
  obtain ⟨as, last, first, later, rfl⟩ := inner.divide balanced parts
  obtain ⟨bs, after, rfl⟩ := Called.token later
  exact ⟨as, bs, first, after, by simp [bracketed]⟩

end Groups

section Spliced

variable {parse : List Piece → Parsed Expr} {place : Span} {sign : Sign}
  {first second as bs rest all : List Piece}

theorem balancedSpliced (h : Balanced first) (h' : Balanced second) :
    Balanced (spliced place sign first second) := by
  have between : Balanced [Piece.token (.plain (.sign sign) place)] :=
    .single (fun b word => by cases word) (fun b word => by cases word)
  exact (balancedBracketed h).append (between.append (balancedBracketed h'))

theorem wholeSpliced (h : Whole first) (h' : Whole second) :
    Whole (spliced place sign first second) :=
  (wholeBracketed h).append (.cons (fun k word => by cases word) (wholeBracketed h'))

theorem Called.splice (h : Called parse first as) (h' : Called parse second bs) :
    Called parse (spliced place sign first second) (spliced place sign as bs) :=
  h.bracket.append partsBracketed (.other (callsNextToken _ _) h'.bracket)

theorem Called.withinSpliced (balanced : Balanced first) (balanced' : Balanced second)
    (h : Called parse (spliced place sign first second ++ rest) all) :
    ∃ as bs more, Called parse first as ∧ Called parse second bs ∧ Called parse rest more ∧
      all = spliced place sign as bs ++ more := by
  unfold spliced at h
  rw [List.append_assoc, List.cons_append] at h
  obtain ⟨as, tail, left, signed, rfl⟩ := Called.withinBrackets balanced h
  obtain ⟨tail, second, rfl⟩ := Called.token signed
  obtain ⟨bs, more, right, after, rfl⟩ := Called.withinBrackets balanced' second
  exact ⟨as, bs, more, left, right, after, by simp [spliced]⟩

end Spliced

structure OneValue (ps : List Piece) : Prop where
  balanced : Balanced ps
  whole : Whole ps
  value {limit : Nat} {qs : List Piece} {y y' : Yard} :
    Called (parseArgument limit) ps qs → qs.foldlM Yard.step y = .ok y' →
      ∃ o at_ items, toPostfix qs = .ok (.operand o at_ :: items)

theorem parseValueOk {limit : Nat} {ts : List Token} {e : Expr}
    (h : parseValue (limit + 1) ts = .ok e) : ∃ t rest, ts = t :: rest ∧
      ((startsConditional t = true ∧ parseConditional (parseValue limit) t rest = .ok e) ∨
        (startsConditional t = false ∧ ∃ ps qs, toPieces ts = .ok ps ∧
          Called (parseArgument limit) ps qs ∧ assemble qs = .ok e)) := by
  cases ts with
  | nil => cases h
  | cons t rest =>
      refine ⟨t, rest, rfl, ?_⟩
      cases starts : startsConditional t with
      | true =>
          simp only [parseValue, starts, if_true] at h
          exact .inl ⟨rfl, h⟩
      | false =>
          simp only [parseValue, starts, Bool.false_eq_true, if_false] at h
          obtain ⟨ps, made, h⟩ := bindIsOk.mp h
          obtain ⟨qs, called, assembled⟩ := bindIsOk.mp h
          exact .inr ⟨rfl, ps, qs, made, makeCallsCalled.mp called, assembled⟩

theorem oneValueAssembled {limit : Nat} {ps qs : List Piece} {e : Expr}
    (called : Called (parseArgument limit) ps qs) (assembled : assemble qs = .ok e) :
    OneValue ps := by
  obtain ⟨items, root, put, folded, -⟩ := assembleOk.mp assembled
  obtain ⟨last, ran, -⟩ := bindIsOk.mp put
  obtain ⟨o, at_, more, rfl⟩ := foldFirst folded
  refine ⟨called.depth (postfixBalanced put), ?_, fun other _ => ?_⟩
  · exact called.whole (fun as e read => (parseArgumentShape read).2) (stepsPlain ran)
  · obtain rfl := called.sameLimits other
    exact ⟨o, at_, more, put⟩

theorem runsWithin {xs ps ys : List Piece} {y y' : Yard}
    (h : (xs ++ (ps ++ ys)).foldlM Yard.step y = .ok y') :
    ∃ a b, ps.foldlM Yard.step a = .ok b := by
  rw [List.foldlM_append] at h
  obtain ⟨a, -, h⟩ := bindIsOk.mp h
  rw [List.foldlM_append] at h
  obtain ⟨b, ran, -⟩ := bindIsOk.mp h
  exact ⟨a, b, ran⟩

theorem runsInBrackets {place : Span} {xs ps ys : List Piece} {y y' : Yard}
    (h : (xs ++ (bracketed place ps ++ ys)).foldlM Yard.step y = .ok y') :
    ∃ a b, ps.foldlM Yard.step a = .ok b := by
  obtain ⟨a, b, ran⟩ := runsWithin h
  have form : bracketed place ps = [.token (.plain (.opening .paren) place)]
      ++ (ps ++ [.token (.plain (.closing .paren) place)]) := rfl
  rw [form] at ran
  exact runsWithin ran

theorem runsInSpliced {place : Span} {sign : Sign} {xs first second ys : List Piece} {y y' : Yard}
    (h : (xs ++ (spliced place sign first second ++ ys)).foldlM Yard.step y = .ok y') :
    (∃ a b, first.foldlM Yard.step a = .ok b) ∧ ∃ a b, second.foldlM Yard.step a = .ok b := by
  have form : xs ++ (spliced place sign first second ++ ys) = xs ++ (bracketed place first
      ++ (.token (.plain (.sign sign) place) :: (bracketed place second ++ ys))) := by
    simp [spliced]
  have form' : xs ++ (spliced place sign first second ++ ys) = (xs ++ bracketed place first
      ++ [.token (.plain (.sign sign) place)]) ++ (bracketed place second ++ ys) := by
    simp [spliced]
  constructor
  · rw [form] at h
    exact runsInBrackets h
  · rw [form'] at h
    exact runsInBrackets h

theorem oneValueConditional {a b c : Token} {condition ifTrue ifFalse : List Piece}
    (first : a.word? = some (.keyword .ifWord)) (second : b.word? = some (.keyword .thenWord))
    (third : c.word? = some (.keyword .elseWord)) (h : OneValue condition) (h' : OneValue ifTrue)
    (h'' : OneValue ifFalse) :
    OneValue (.token a :: condition ++ .token b :: ifTrue ++ .token c :: ifFalse) where
  balanced := by
    have single : ∀ (t : Token) k, t.word? = some (.keyword k) → Balanced [Piece.token t] := by
      intro t k word
      exact .single (fun b other => by cases word.symm.trans other)
        (fun b other => by cases word.symm.trans other)
    have all := (single a _ first).append (h.balanced.append ((single b _ second).append
      (h'.balanced.append ((single c _ third).append h''.balanced))))
    simpa using all
  whole := by
    have all := @Whole.conditional Piece _ (.token a) (.token b) (.token c) _ _ _ first second third
      h.whole h'.whole h''.whole
    simpa using all
  value := by
    intro limit qs y y' called ran
    simp only [List.cons_append] at called
    obtain ⟨qs, -, rfl⟩ := Called.token called
    rw [List.foldlM_cons] at ran
    obtain ⟨next, stepped, -⟩ := bindIsOk.mp ran
    exact absurd first (stepPlain stepped _)

theorem parseValueOne {limit : Nat} {ts : List Token} {e : Expr}
    (h : parseValue limit ts = .ok e) : ∃ ps, toPieces ts = .ok ps ∧ OneValue ps := by
  induction limit generalizing ts e with
  | zero => cases h
  | succ limit ih =>
      obtain ⟨t, rest, rfl, ⟨starts, read⟩ | ⟨-, ps, qs, made, called, assembled⟩⟩ := parseValueOk h
      · obtain ⟨condition, more, ifTrue, ifFalse, c, i, f, cut, cut', -, first, second, third, -⟩ :=
          parseConditionalOk.mp read
        obtain ⟨thenWord, word, rfl⟩ := cutAtKeywordFound cut
        obtain ⟨elseWord, word', rfl⟩ := cutAtKeywordFound cut'
        obtain ⟨ps, made, one⟩ := ih first
        obtain ⟨ps', made', one'⟩ := ih second
        obtain ⟨ps'', made'', one''⟩ := ih third
        have starts : t.word? = some (.keyword .ifWord) := of_decide_eq_true starts
        have later := (toPiecesKeyword word').mpr ⟨ps', ps'', made', made'', rfl⟩
        have inner := (toPiecesKeyword word).mpr ⟨ps, _, made, later, rfl⟩
        have all := (toPiecesKeyword starts).mpr ⟨[], _, toPiecesNothing, inner, rfl⟩
        refine ⟨_, all, ?_⟩
        simpa using oneValueConditional starts word word' one one' one''
      · exact ⟨ps, made, oneValueAssembled called assembled⟩

theorem oneValueOverIndex {place : Span} {ps : List Piece} (h : OneValue ps) :
    OneValue (.token (.plain (.real 1.0) place) :: .token (.plain (.sign .slash) place)
      :: bracketed place ps) where
  balanced := by
    have one : Balanced [Piece.token (.plain (.real 1.0) place)] :=
      .single (fun b word => by cases word) (fun b word => by cases word)
    have slash : Balanced [Piece.token (.plain (.sign .slash) place)] :=
      .single (fun b word => by cases word) (fun b word => by cases word)
    exact one.append (slash.append (balancedBracketed h.balanced))
  whole := .cons (fun k word => by cases word) (.cons (fun k word => by cases word)
    (wholeBracketed h.whole))
  value := by
    intro limit qs y y' called ran
    obtain ⟨tail, after, rfl⟩ := Called.token called
    obtain ⟨group, inside, rfl⟩ := Called.token after
    rw [← List.append_nil (bracketed place ps)] at inside
    obtain ⟨as, _, inner, last, rfl⟩ := Called.withinBrackets h.balanced inside
    cases last
    obtain ⟨a, b, within⟩ := @runsInBrackets place [_, _] as [] y y' ran
    obtain ⟨o, at_, items, put⟩ := h.value inner within
    have one : Yard.step .empty (.token (.plain (.real 1.0) place))
        = .ok ⟨[.operand (.real 1.0) place], [], false⟩ := rfl
    have slash : Yard.step ⟨[.operand (.real 1.0) place], [], false⟩
        (.token (.plain (.sign .slash) place))
        = .ok ⟨[.operand (.real 1.0) place],
          [(.binary (.operator .division), place)].map waits, true⟩ := rfl
    have whole : toPostfix (.token (.plain (.real 1.0) place)
        :: .token (.plain (.sign .slash) place) :: (bracketed place as ++ []))
        = .ok (.operand (.real 1.0) place :: (.operand o at_ :: items
          ++ [puts (.binary (.operator .division), place)])) := by
      refine (Yard.runCons one _).trans ((Yard.runCons slash _).trans ?_)
      refine (Yard.runAppend (Yard.groupRuns put .paren place place _) []).trans ?_
      rw [Yard.runNil, Yard.finishOps]
      simp
    exact ⟨_, _, _, whole⟩

def Token.groups : Token → List (List Token)
  | .plain .. => []
  | .command _ required optional _ => (required ++ optional).map groupCode

theorem oneValueTwo (place : Span) : OneValue [.token (.plain (.number "2") place)] where
  balanced := .single (fun b word => by cases word) (fun b word => by cases word)
  whole := .cons (fun k word => by cases word) .nil
  value := by
    intro limit qs y y' called _
    obtain ⟨_, last, rfl⟩ := Called.token called
    cases last
    exact ⟨_, _, _, rfl⟩

theorem toPiecesTwo (place : Span) : toPieces [.plain (.number "2") place]
    = .ok [.token (.plain (.number "2") place)] := by
  obtain ⟨limit, depth⟩ := spelledLimit
  refine toPiecesOk.mpr ⟨[.plain (.number "2") place], ?_, ?_⟩
  · rw [depth]
    exact lowerPlain rfl limit
  · simp [named, joinReals, gatherNames, startsName, Token.word?]

theorem sidesOneValue {t : Token} {sign : Sign} {first second : List Token}
    (sides : t.quotient? = some (sign, first, second))
    (groups : ∀ group ∈ t.groups, ∃ limit e, parseValue limit group = .ok e) :
    (∃ ps, toPieces first = .ok ps ∧ OneValue ps) ∧
      ∃ ps, toPieces second = .ok ps ∧ OneValue ps := by
  have value {group : List Token} (member : group ∈ t.groups) :
      ∃ ps, toPieces group = .ok ps ∧ OneValue ps := by
    obtain ⟨limit, e, read⟩ := groups group member
    exact parseValueOne read
  unfold Token.quotient? at sides
  split at sides
  · cases sides
    exact ⟨value (.head _), value (.tail _ (.head _))⟩
  · cases sides
    exact ⟨value (.head _), _, toPiecesOverIndex (toPiecesTwo _), oneValueOverIndex (oneValueTwo _)⟩
  · cases sides
    obtain ⟨ps, made, one⟩ := value (.tail _ (.head _))
    exact ⟨value (.head _), _, toPiecesOverIndex made, oneValueOverIndex one⟩
  · cases sides

end LiterateMath
