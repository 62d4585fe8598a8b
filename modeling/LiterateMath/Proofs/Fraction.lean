import Mathlib
import LiterateMath.Proofs.Operands
import LiterateMath.Proofs.Replacing

/-! Fractions and roots in the values that they are part of. A command is spelled out without
brackets of its own, so it is the one operand that it looks like only where it stands alone. -/
namespace LiterateMath

open Lexical

def endsInName (ps : List Piece) : Bool :=
  match ps.getLast? with
  | some (.name ..) => true
  | _ => false

theorem partsAny {ps : List Piece} (h : endsInName ps = false) (rest : List Piece) :
    Parts ps rest := by
  intro p last
  unfold endsInName at h
  cases p with
  | name f at_ => simp [last] at h
  | _ => rfl

theorem endsInNameLater {lead ps : List Piece} (h : endsInName (lead ++ ps) = false) :
    endsInName ps = false := by
  unfold endsInName at h ⊢
  cases last : ps.getLast? with
  | none => rfl
  | some p =>
      rw [List.getLast?_append, last] at h
      exact h

theorem endsInNamePast {lead inner : List Piece} {sep : Piece}
    (h : endsInName (lead ++ sep :: inner) = false) : endsInName inner = false := by
  rw [List.append_cons] at h
  exact endsInNameLater h

section Pieces

variable {place : Span} {sign : Sign} {first second : List Piece}

def KeepsSpliced (place : Span) (sign : Sign) (first second : List Piece)
    (parse : List Piece → Parsed Expr) : Prop :=
  ∀ before after e, endsInName before = false →
    parse (before ++ spliced place sign first second ++ after) = .ok e →
    SameJustIf (standsAlone (.operator sign.operator) before after)
      (parse (before ++ bracketed place (spliced place sign first second) ++ after)) e

theorem sameLevel {limit : Nat} {before after as all : List Piece} {e : Expr}
    (one : OneValue first) (two : OneValue second) (free : endsInName before = false)
    (made : Called (parseArgument limit) before as)
    (h : Called (parseArgument limit) (before ++ (spliced place sign first second ++ after)) all)
    (assembled : assemble all = .ok e) :
    SameJustIf (standsAlone (.operator sign.operator) before after) (makeCalls (parseArgument limit)
      (before ++ (bracketed place (spliced place sign first second) ++ after)) >>= assemble) e := by
  obtain ⟨tail, later, rfl⟩ := made.later (partsAny free _) h
  obtain ⟨cs, ds, ys, left, right, last, rfl⟩ :=
    Called.withinSpliced one.balanced two.balanced later
  obtain ⟨_, _, put, -, -⟩ := assembleOk.mp assembled
  obtain ⟨y, ran, -⟩ := bindIsOk.mp put
  obtain ⟨⟨_, _, ran⟩, ⟨_, _, ran'⟩⟩ := runsInSpliced ran
  obtain ⟨o, at_, items, ha⟩ := one.value left ran
  obtain ⟨o', at_', items', hb⟩ := two.value right ran'
  have wrapped : Called (parseArgument limit)
      (before ++ (bracketed place (spliced place sign first second) ++ after))
      (as ++ (bracketed place (spliced place sign cs ds) ++ ys)) :=
    made.append (partsAny free _) ((left.splice right).bracket.append partsBracketed last)
  rw [← List.append_assoc] at assembled
  rw [makeCallsCalled.mpr wrapped, bindOk, made.standsAlone last, ← List.append_assoc]
  exact sameSpliced ha hb assembled

theorem sameWithin {limit : Nat} {lead inner outer rest as bs : List Piece} {f : Name} {at_ : Span}
    {opener closer : Piece} {args : List Expr} {e : Expr} (one : OneValue first)
    (two : OneValue second) (free : endsInName (lead ++ .name f at_ :: opener :: inner) = false)
    (ih : KeepsSpliced place sign first second (parseArgument limit))
    (opens : opener.word? = some (.opening .paren))
    (closes : closer.word? = some (.closing .paren))
    (inside : Balanced (inner ++ (spliced place sign first second ++ outer)))
    (read : parseArguments (parseArgument limit)
      (inner ++ (spliced place sign first second ++ outer)) = .ok args)
    (made : Called (parseArgument limit) lead as) (later : Called (parseArgument limit) rest bs)
    (assembled : assemble (as ++ .call f args (at_.through closer.span) :: bs) = .ok e) :
    SameJustIf (standsAlone (.operator sign.operator) (lead ++ .name f at_ :: opener :: inner)
        (outer ++ closer :: rest))
      (makeCalls (parseArgument limit) (lead ++ .name f at_ :: opener :: inner
        ++ (bracketed place (spliced place sign first second) ++ (outer ++ closer :: rest)))
          >>= assemble) e := by
  have balanced := @balancedSpliced place sign _ _ one.balanced two.balanced
  obtain ⟨depth, opened, -⟩ := openAfterParts inside
  obtain ⟨arg, next, part, front, back, value, same⟩ := argumentsAround opened
    (uncutSpliced one.balanced two.balanced) (by simp [spliced, bracketed]) read
  have shape := (parseArgumentShape value).1
  rw [List.append_assoc] at shape
  have argued : standsAlone (.operator sign.operator) inner outer
      = standsAlone (.operator sign.operator) arg next :=
    standsAloneWithin (commaFront front) (commaBack back) shape balanced
  have called : standsAlone (.operator sign.operator) (lead ++ .name f at_ :: opener :: inner)
      (outer ++ closer :: rest) = standsAlone (.operator sign.operator) inner outer :=
    standsAloneWithin (.inr ⟨lead ++ [.name f at_], opener, opensEncloses opens, by simp⟩)
      (.inr ⟨closer, rest, closesEnds closes, rfl⟩) inside balanced
  have free : endsInName arg = false := by
    have opened : endsInName (opener :: inner) = false := endsInNamePast free
    have inner' : endsInName inner = false := @endsInNamePast [] inner opener opened
    obtain rfl | ⟨lead', sep, -, rfl⟩ := front
    · exact inner'
    · exact endsInNamePast inner'
  obtain ⟨kept, found⟩ := ih arg next part free value
  obtain ⟨keeps, finds⟩ := same _ (uncutBracketed balanced) (by simp [bracketed])
  obtain ⟨whole, parts⟩ := callAround opens
    (inside.replace balanced (balancedBracketed balanced)) closes made later assembled
  have form : lead ++ .name f at_ :: opener :: inner
      ++ (bracketed place (spliced place sign first second) ++ (outer ++ closer :: rest))
      = lead ++ .name f at_ :: opener :: (inner
        ++ (bracketed place (spliced place sign first second) ++ outer) ++ closer :: rest) := by
    simp
  rw [form, called, argued]
  constructor
  · intro alone
    exact whole (keeps (kept alone))
  · intro alike
    obtain ⟨args', again, bares⟩ := parts alike
    exact found (finds args' again bares)

theorem sameMade {limit : Nat} {before after all : List Piece} {e : Expr} (one : OneValue first)
    (two : OneValue second) (free : endsInName before = false)
    (ih : KeepsSpliced place sign first second (parseArgument limit))
    (h : Called (parseArgument limit) (before ++ (spliced place sign first second ++ after)) all)
    (assembled : assemble all = .ok e) :
    SameJustIf (standsAlone (.operator sign.operator) before after) (makeCalls (parseArgument limit)
      (before ++ (bracketed place (spliced place sign first second) ++ after)) >>= assemble) e := by
  cases h.placed (balancedSpliced one.balanced two.balanced) with
  | level made => exact sameLevel one two free made h assembled
  | argument opens closes inside read made later =>
      exact sameWithin one two free ih opens closes inside read made later assembled

theorem sameArgument (one : OneValue first) (two : OneValue second) (limit : Nat) :
    KeepsSpliced place sign first second (parseArgument limit) := by
  have balanced := @balancedSpliced place sign _ _ one.balanced two.balanced
  have whole := @wholeSpliced place sign _ _ one.whole two.whole
  induction limit with
  | zero =>
      intro before after e free h
      cases h
  | succ limit ih =>
      intro before after e free h
      obtain ⟨p, rest, form, ⟨starts, read⟩ | ⟨starts, qs, called, assembled⟩⟩ := parseArgumentOk h
      · cases before with
        | nil =>
            obtain ⟨rfl, -⟩ := List.cons.inj form
            cases starts
        | cons x xs =>
            obtain ⟨rfl, rfl⟩ := List.cons.inj form
            obtain ⟨lead, sep, inner, k, front, word, outer, back, part, value, same⟩ :=
              conditionalAround whole (of_decide_eq_true starts) read
            have shape := (parseArgumentShape value).1
            rw [List.append_assoc] at shape
            have within : standsAlone (.operator sign.operator) (x :: xs) after
                = standsAlone (.operator sign.operator) inner outer :=
              standsAloneWithin (.inr ⟨lead, sep, strayEncloses (keywordStray word), front⟩)
                (keywordBack back) shape balanced
            rw [front] at free
            rw [List.cons_append, List.cons_append, parseArgumentConditional starts, within]
            exact (same _ (wholeBracketed whole) (endsSpliced _ _ _ _)).sameJustIf
              (ih inner outer part (endsInNamePast free) value)
      · rw [List.append_assoc] at called
        have made := sameMade one two free ih called assembled
        cases before with
        | nil => exact made
        | cons x xs =>
            obtain ⟨rfl, -⟩ := List.cons.inj form
            rw [List.cons_append, List.cons_append, parseArgumentAssembled starts]
            rw [List.cons_append, ← List.append_assoc] at made
            exact made

end Pieces

theorem parseValueConditional {limit : Nat} {t : Token} {rest : List Token}
    (starts : startsConditional t = true) :
    parseValue (limit + 1) (t :: rest) = parseConditional (parseValue limit) t rest := by
  simp [parseValue, starts]

theorem parseValueAssembled {limit : Nat} {t : Token} {rest : List Token} {ps : List Piece}
    (starts : startsConditional t = false) (made : toPieces (t :: rest) = .ok ps) :
    parseValue (limit + 1) (t :: rest) = makeCalls (parseArgument limit) ps >>= assemble := by
  simp [parseValue, starts, made]

theorem piecesWithin {c : Connective} {lead inner outer after : List Token} {sep : Token}
    {k : Keyword} {xs ys xs' ys' middle : List Piece} (word : word? sep = some (.keyword k))
    (left : toPieces (lead ++ sep :: inner) = .ok xs) (left' : toPieces inner = .ok xs')
    (back : after = outer ∨
      ∃ sep k rest, word? sep = some (.keyword k) ∧ after = outer ++ sep :: rest)
    (right : toPieces after = .ok ys) (right' : toPieces outer = .ok ys')
    (shape : Balanced (xs' ++ (middle ++ ys'))) (balanced : Balanced middle)
    (free : endsInName xs = false) :
    standsAlone c xs ys = standsAlone c xs' ys' ∧ endsInName xs' = false := by
  obtain ⟨ahead, _, -, onInner, rfl⟩ := (toPiecesKeyword word).mp left
  cases onInner.symm.trans left'
  have back' : ys = ys' ∨ ∃ sep rest, Ends sep ∧ ys = ys' ++ sep :: rest := by
    obtain rfl | ⟨sep', k', tail, word', rfl⟩ := back
    · cases right.symm.trans right'
      exact .inl rfl
    · obtain ⟨_, behind, onOuter, -, rfl⟩ := (toPiecesKeyword word').mp right
      cases onOuter.symm.trans right'
      exact .inr ⟨_, behind, strayEnds (keywordStray (p := .token sep') word'), rfl⟩
  have encloses : Encloses (.token sep) := strayEncloses (keywordStray (p := .token sep) word)
  exact ⟨standsAloneWithin (.inr ⟨ahead, _, encloses, rfl⟩) back' shape balanced,
    endsInNamePast free⟩

def isConditional {α : Type} [Lexical α] (as : List α) : Bool := as.head?.any startsConditional

theorem sameValue {limit : Nat} {t : Token} {sign : Sign}
    {first second ts before after : List Token} {xs ys cs ds : List Piece} {e : Expr}
    (sides : t.quotient? = some (sign, first, second)) (wraps : Wraps t ts)
    (whole : isConditional before = true → Whole ts)
    (onFirst : toPieces first = .ok cs) (onSecond : toPieces second = .ok ds) (one : OneValue cs)
    (two : OneValue ds) (left : toPieces before = .ok xs) (right : toPieces after = .ok ys)
    (free : endsInName xs = false)
    (h : parseValue limit (before ++ t :: after) = .ok e) :
    SameJustIf (standsAlone (.operator sign.operator) xs ys)
      (parseValue limit (before ++ ts ++ after)) e := by
  have wordless := quotientWordless sides
  obtain ⟨inside, opens⟩ := wraps.opens
  have ends : EndsAlike [t] ts :=
    ⟨by simp, by simp [opens], by simp [opens, span, Token.span], wraps.closes.symm⟩
  induction limit generalizing before after xs ys e with
  | zero => cases h
  | succ limit ih =>
      obtain ⟨a, rest, form, ⟨starts, read⟩ | ⟨starts, ps, qs, made, called, assembled⟩⟩ :=
        parseValueOk h
      · cases before with
        | nil =>
            obtain ⟨rfl, -⟩ := List.cons.inj form
            cases wordless.symm.trans (of_decide_eq_true starts)
        | cons x rest =>
            obtain ⟨rfl, rfl⟩ := List.cons.inj form
            have single : Whole [t] := .cons (fun k word => by cases wordless.symm.trans word) .nil
            have parts : parseConditional (parseValue limit) x (rest ++ [t] ++ after) = .ok e := by
              rw [List.append_assoc]
              exact read
            obtain ⟨lead, sep, inner, k, front, word, outer, back, part, value, same⟩ :=
              conditionalAround single (of_decide_eq_true starts) parts
            rw [List.append_assoc, List.singleton_append] at value
            obtain ⟨ps, made, read'⟩ := parseValueOne value
            obtain ⟨xs', cs', ds', ys', left', onFirst', onSecond', right', rfl, -⟩ :=
              toPiecesCommand sides made
            cases onFirst.symm.trans onFirst'
            cases onSecond.symm.trans onSecond'
            have shape := read'.balanced
            rw [List.append_assoc] at shape
            rw [front] at left
            obtain ⟨within, free'⟩ := piecesWithin (c := .operator sign.operator) word left left' back
              right right' shape (balancedSpliced one.balanced two.balanced) free
            rw [List.cons_append, List.cons_append, parseValueConditional starts, within]
            have stays := whole starts
            exact (same ts stays ends).sameJustIf
              (ih (fun _ => stays) left' right' free' value)
      · obtain ⟨xs', cs', ds', ys', left', onFirst', onSecond', right', rfl, wrapped⟩ :=
          toPiecesCommand sides made
        cases left.symm.trans left'
        cases right.symm.trans right'
        cases onFirst.symm.trans onFirst'
        cases onSecond.symm.trans onSecond'
        rw [List.append_assoc] at called
        have same := sameMade one two free (sameArgument one two limit) called assembled
        have pieces := wrapped ts wraps
        rw [← List.append_assoc] at same
        subst opens
        cases before with
        | nil =>
            rw [List.nil_append, List.cons_append] at pieces ⊢
            rw [parseValueAssembled rfl pieces]
            exact same
        | cons x rest =>
            obtain ⟨rfl, -⟩ := List.cons.inj form
            rw [List.cons_append, List.cons_append] at pieces ⊢
            rw [parseValueAssembled starts pieces]
            exact same

def standsAloneAt (sign : Sign) (before after : List Token) : Bool :=
  match toPieces before, toPieces after with
  | .ok xs, .ok ys => standsAlone (.operator sign.operator) xs ys
  | _, _ => false

def followsName (before : List Token) : Bool :=
  match toPieces before with
  | .ok xs => endsInName xs
  | .error _ => false

/-- A fraction or a root in a value may be put in parentheses, as it is or spelled out, without a
change to the tree just if it stands alone among the operators around it. -/
theorem commandOneOperand {limit : Nat} {t : Token} {sign : Sign}
    {first second before after : List Token} {e : Expr}
    (sides : t.quotient? = some (sign, first, second))
    (groups : ∀ group ∈ t.groups, ∃ limit e, parseValue limit group = .ok e)
    (free : followsName before = false)
    (h : parseValue limit (before ++ t :: after) = .ok e) :
    SameJustIf (standsAloneAt sign before after)
        (parseValue limit (before ++ parenthesized t.span [t] ++ after)) e ∧
      ((isConditional before = true → Whole first ∧ Whole second) →
        SameJustIf (standsAloneAt sign before after) (parseValue limit
          (before ++ parenthesized t.span (quotient t.span sign first second) ++ after)) e) := by
  obtain ⟨⟨cs, onFirst, one⟩, ⟨ds, onSecond, two⟩⟩ := sidesOneValue sides groups
  obtain ⟨ps, made, -⟩ := parseValueOne h
  obtain ⟨xs, _, _, ys, left, -, -, right, -, -⟩ := toPiecesCommand sides made
  have free : endsInName xs = false := by simpa [followsName, left] using free
  have alone : standsAloneAt sign before after = standsAlone (.operator sign.operator) xs ys := by
    simp [standsAloneAt, left, right]
  rw [alone]
  refine ⟨?_, fun whole => ?_⟩
  · have single : Whole [t] :=
      .cons (fun k word => by cases (quotientWordless sides).symm.trans word) .nil
    exact sameValue sides (wrapsItself t) (fun _ => wholeParenthesized single) onFirst onSecond one
      two left right free h
  · have stays (conditional : isConditional before = true) :
        Whole (parenthesized t.span (quotient t.span sign first second)) :=
      wholeParenthesized (wholeQuotient (whole conditional).1 (whole conditional).2)
    exact sameValue sides (wrapsSides sides) stays onFirst onSecond one two left right free h

section OneHalf

def oneHalf : Token :=
  .command "frac" [[.plain (.number "1") ⟨8, 9⟩], [.plain (.number "2") ⟨11, 12⟩]] [] ⟨2, 13⟩

def oneHalfSpelled : List Token :=
  parenthesized ⟨2, 13⟩ (quotient ⟨2, 13⟩ .slash [.plain (.number "1") ⟨8, 9⟩]
    [.plain (.number "2") ⟨11, 12⟩])

def oneAnd (s : Sign) : List Token := [.plain (.number "1") ⟨0, 1⟩, .plain (.sign s) ⟨1, 2⟩]

theorem oneHalfGroups :
    ∀ group ∈ oneHalf.groups, ∃ limit e, parseValue limit group = .ok e := by
  have groups : oneHalf.groups
      = [[.plain (.number "1") ⟨8, 9⟩], [.plain (.number "2") ⟨11, 12⟩]] := by cbv
  intro group member
  rw [groups] at member
  simp only [List.mem_cons, List.not_mem_nil, or_false] at member
  obtain rfl | rfl := member
  · exact ⟨1, .literal (.integer 1) (some ⟨8, 9⟩), by cbv⟩
  · exact ⟨1, .literal (.integer 2) (some ⟨11, 12⟩), by cbv⟩

theorem oneLessOneHalf : ∃ e, parseValue valueDepth (oneAnd .minus ++ [oneHalf]) = .ok e ∧
    parseValue valueDepth (oneAnd .minus ++ oneHalfSpelled) = .ok e := by
  have read : parseValue valueDepth (oneAnd .minus ++ [oneHalf])
      = .ok (.binary (.operator .subtraction) (.literal (.integer 1) (some ⟨0, 1⟩))
        (.binary (.operator .division) (.literal (.integer 1) (some ⟨8, 9⟩))
          (.literal (.integer 2) (some ⟨11, 12⟩)) none) (some ⟨0, 13⟩)) := by cbv
  have same := (@commandOneOperand valueDepth oneHalf .slash _ _ (oneAnd .minus) [] _ rfl
    oneHalfGroups (by cbv) read).2
  refine ⟨_, read, ?_⟩
  have kept := (same (by intro conditional; cases conditional)).kept (by cbv)
  rw [List.append_nil] at kept
  exact kept

theorem oneOverOneHalf :
    (∀ group ∈ oneHalf.groups, ∃ limit e, parseValue limit group = .ok e) ∧
      followsName (oneAnd .slash) = false ∧
      ∃ e, parseValue valueDepth (oneAnd .slash ++ [oneHalf]) = .ok e ∧
        ¬ SameTree (parseValue valueDepth (oneAnd .slash ++ oneHalfSpelled)) e := by
  have read : parseValue valueDepth (oneAnd .slash ++ [oneHalf])
      = .ok (.binary (.operator .division) (.binary (.operator .division)
        (.literal (.integer 1) (some ⟨0, 1⟩)) (.literal (.integer 1) (some ⟨8, 9⟩)) none)
          (.literal (.integer 2) (some ⟨11, 12⟩)) (some ⟨0, 13⟩)) := by cbv
  have spelled : parseValue valueDepth (oneAnd .slash ++ oneHalfSpelled)
      = .ok (.binary (.operator .division) (.literal (.integer 1) (some ⟨0, 1⟩))
        (.binary (.operator .division) (.literal (.integer 1) (some ⟨8, 9⟩))
          (.literal (.integer 2) (some ⟨11, 12⟩)) none) (some ⟨0, 13⟩)) := by cbv
  refine ⟨oneHalfGroups, by cbv, _, read, ?_⟩
  rintro ⟨e, other, same⟩
  cases spelled.symm.trans other
  simp [Expr.bare] at same

end OneHalf
end LiterateMath
