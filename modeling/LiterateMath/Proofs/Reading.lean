import LiterateMath.Proofs.Calls
import LiterateMath.Proofs.Splice

/-! What is known of pieces that are read as a value: their brackets pair up, their conditionals
are whole, and a higher limit reads them the same. -/
namespace LiterateMath

open Lexical

theorem assembleOk {qs : List Piece} {e : Expr} : assemble qs = .ok e ↔
    ∃ items root, toPostfix qs = .ok items ∧ fold items (spanOf qs) = .ok root ∧
      e = root.settleAt (spanOf qs) := by
  constructor
  · intro h
    obtain ⟨items, put, h⟩ := bindIsOk.mp h
    obtain ⟨root, folded, same⟩ := bindIsOk.mp h
    cases same
    exact ⟨items, root, put, folded, rfl⟩
  · rintro ⟨items, root, put, folded, rfl⟩
    simp [assemble, put, folded]

theorem parseArgumentOk {limit : Nat} {ps : List Piece} {e : Expr}
    (h : parseArgument (limit + 1) ps = .ok e) : ∃ p rest, ps = p :: rest ∧
      ((startsConditional p = true ∧ parseConditional (parseArgument limit) p rest = .ok e) ∨
        (startsConditional p = false ∧
          ∃ qs, Called (parseArgument limit) ps qs ∧ assemble qs = .ok e)) := by
  cases ps with
  | nil => cases h
  | cons p rest =>
      refine ⟨p, rest, rfl, ?_⟩
      cases starts : startsConditional p with
      | true =>
          simp only [parseArgument, starts, if_true] at h
          exact .inl ⟨rfl, h⟩
      | false =>
          simp only [parseArgument, starts, Bool.false_eq_true, if_false] at h
          obtain ⟨qs, made, assembled⟩ := bindIsOk.mp h
          exact .inr ⟨rfl, qs, makeCallsCalled.mp made, assembled⟩

theorem parseArgumentConditional {limit : Nat} {p : Piece} {rest : List Piece}
    (starts : startsConditional p = true) :
    parseArgument (limit + 1) (p :: rest) = parseConditional (parseArgument limit) p rest := by
  simp [parseArgument, starts]

theorem parseArgumentAssembled {limit : Nat} {p : Piece} {rest : List Piece}
    (starts : startsConditional p = false) : parseArgument (limit + 1) (p :: rest)
      = makeCalls (parseArgument limit) (p :: rest) >>= assemble := by
  simp [parseArgument, starts]

theorem parseArgumentNext (limit : Nat) :
    ReadsMore (parseArgument limit) (parseArgument (limit + 1)) := by
  induction limit with
  | zero =>
      intro ps e h
      cases h
  | succ limit ih =>
      intro ps e h
      obtain ⟨p, rest, rfl, ⟨starts, read⟩ | ⟨starts, qs, called, assembled⟩⟩ := parseArgumentOk h
      · rw [parseArgumentConditional starts]
        exact parseConditionalReadsMore ih read
      · rw [parseArgumentAssembled starts, makeCallsCalled.mpr (called.readsMore ih), bindOk]
        exact assembled

theorem parseArgumentMore {limit higher : Nat} (h : limit ≤ higher) :
    ReadsMore (parseArgument limit) (parseArgument higher) := by
  induction h with
  | refl => exact fun _ _ read => read
  | step _ ih => exact fun ps e read => parseArgumentNext _ ps e (ih ps e read)

theorem Called.sameLimits {limit limit' : Nat} {ps qs qs' : List Piece}
    (h : Called (parseArgument limit) ps qs) (h' : Called (parseArgument limit') ps qs') :
    qs = qs' :=
  (h.readsMore (parseArgumentMore (Nat.le_max_left limit limit'))).same
    (h'.readsMore (parseArgumentMore (Nat.le_max_right limit limit')))

theorem wordOfRole {p : Piece} {expecting : Bool} :
    (∀ b, p.role expecting = .opening b → p.word? = some (.opening b)) ∧
      ∀ b, p.role expecting = .closing b → p.word? = some (.closing b) := by
  cases p with
  | token t =>
      cases t with
      | plain w place =>
          cases w with
          | sign s =>
              simp only [Piece.role, Word.role]
              split <;> simp
          | _ => simp [Piece.role, Word.role, Piece.word?, Token.word?]
      | command => simp [Piece.role]
  | _ => simp [Piece.role]

theorem roleOfWord {p : Piece} {w : Word} (h : p.word? = some w) (expecting : Bool) :
    p.role expecting = w.role expecting := by
  cases p with
  | token t =>
      cases t with
      | plain w' place =>
          cases h
          rfl
      | command => cases h
  | _ => cases h

theorem stepDepth {y y' : Yard} {p : Piece} (h : y.step p = .ok y') :
    bracketStep (openBrackets y.waiting) p = some (openBrackets y'.waiting) := by
  unfold Yard.step at h
  cases role : p.role y.expecting with
  | operand o =>
      simp only [role] at h
      cases h
      refine bracketStepOther (fun b word => ?_) (fun b word => ?_) _
      · cases role.symm.trans (roleOfWord word _)
      · cases role.symm.trans (roleOfWord word _)
  | opening b =>
      simp only [role] at h
      cases h
      exact bracketStepOpening (wordOfRole.1 b role) _
  | closing b =>
      simp only [role] at h
      obtain ⟨ops, opener, rest, stack, rfl⟩ := Yard.closeSplit h
      rw [stack, openBracketsOps]
      exact bracketStepClosing (wordOfRole.2 b role) _
  | operation op =>
      simp only [role] at h
      cases h
      have same : openBrackets (y.operate op p.span).waiting = openBrackets y.waiting := by
        cases op with
        | unary u => rfl
        | binary c =>
            obtain ⟨ops, rest, stack, -, -, result⟩ := Yard.operateSplit y c p.span
            rw [result, stack, openBracketsOps]
            rfl
      rw [same]
      refine bracketStepOther (fun b word => ?_) (fun b word => ?_) _
      · cases role.symm.trans (roleOfWord word _)
      · cases role.symm.trans (roleOfWord word _)
  | stray fault =>
      simp only [role] at h
      cases h

theorem stepsDepth {y y' : Yard} {ps : List Piece} (h : ps.foldlM Yard.step y = .ok y') :
    openAfter (openBrackets y.waiting) ps = some (openBrackets y'.waiting) := by
  induction ps generalizing y with
  | nil =>
      cases h
      rfl
  | cons p ps ih =>
      rw [List.foldlM_cons] at h
      obtain ⟨middle, first, later⟩ := bindIsOk.mp h
      rw [openAfterCons (stepDepth first), ih later]

theorem postfixBalanced {qs : List Piece} {items : List Postfix} (h : toPostfix qs = .ok items) :
    Balanced qs := by
  obtain ⟨last, ran, finished⟩ := bindIsOk.mp h
  obtain ⟨ops, stack, -⟩ := Yard.finishSplit finished
  have depth := stepsDepth ran
  have flat := openBracketsOps ops []
  rw [List.append_nil] at flat
  rw [stack, flat] at depth
  exact depth

theorem stepStray {y y' : Yard} {p : Piece} {w : Word} (h : y.step p = .ok y')
    (stray : ∀ expecting, ∃ fault, w.role expecting = .stray fault) : p.word? ≠ some w := by
  intro word
  obtain ⟨fault, role⟩ := stray y.expecting
  unfold Yard.step at h
  simp only [roleOfWord word y.expecting, role] at h
  cases h

theorem stepsStray {y y' : Yard} {ps : List Piece} {w : Word} (h : ps.foldlM Yard.step y = .ok y')
    (stray : ∀ expecting, ∃ fault, w.role expecting = .stray fault) :
    ∀ p ∈ ps, p.word? ≠ some w := by
  induction ps generalizing y with
  | nil => simp
  | cons p ps ih =>
      rw [List.foldlM_cons] at h
      obtain ⟨middle, first, later⟩ := bindIsOk.mp h
      intro q member
      rcases List.mem_cons.mp member with rfl | inside
      · exact stepStray first stray
      · exact ih later q inside

theorem stepPlain {y y' : Yard} {p : Piece} (h : y.step p = .ok y') (k : Keyword) :
    p.word? ≠ some (.keyword k) := stepStray h fun _ => ⟨_, rfl⟩

theorem stepsPlain {y y' : Yard} {ps : List Piece} (h : ps.foldlM Yard.step y = .ok y') :
    ∀ p ∈ ps, ∀ k, p.word? ≠ some (.keyword k) :=
  fun p member _ => stepsStray h (fun _ => ⟨_, rfl⟩) p member

theorem callDepth {f : Name} {place : Span} {opener closer : Piece} {inside after : List Piece}
    (opens : opener.word? = some (.opening .paren)) (balanced : Balanced inside)
    (closes : closer.word? = some (.closing .paren)) (depth : Nat) :
    openAfter depth (.name f place :: opener :: (inside ++ closer :: after))
      = openAfter depth after := by
  rw [openAfterCons (wordlessStep rfl depth), openAfterCons (bracketStepOpening opens depth),
    balanced.past, openAfterCons (bracketStepClosing closes depth)]

theorem Called.depth {parse : List Piece → Parsed Expr} {ps qs : List Piece}
    (h : Called parse ps qs) {depth last : Nat} (same : openAfter depth qs = some last) :
    openAfter depth ps = some last := by
  induction h generalizing depth with
  | nil => exact same
  | call opens balanced closes _ _ ih =>
      rw [openAfterCons (wordlessStep rfl depth)] at same
      rw [callDepth opens balanced closes]
      exact ih same
  | other _ _ ih =>
      obtain ⟨next, step, later⟩ := Option.bind_eq_some_iff.mp same
      rw [openAfterCons step]
      exact ih later

theorem wholeArguments {parse : List Piece → Parsed Expr} {inside : List Piece}
    {args : List Expr} (values : ∀ as e, parse as = .ok e → Whole as)
    (read : parseArguments parse inside = .ok args) : Whole inside := by
  unfold parseArguments at read
  split at read
  · rename_i empty
    rw [List.isEmpty_iff.mp empty]
    exact .nil
  · apply Whole.parts
    intro part member
    obtain ⟨e, found⟩ := mapMRead read part member
    exact values part e found

theorem Called.whole {parse : List Piece → Parsed Expr} {ps qs : List Piece}
    (h : Called parse ps qs) (values : ∀ as e, parse as = .ok e → Whole as)
    (plain : ∀ q ∈ qs, ∀ k, q.word? ≠ some (.keyword k)) : Whole ps := by
  induction h with
  | nil => exact .nil
  | @call f place opener closer inside after qs args opens balanced closes read _ ih =>
      have inner := wholeArguments values read
      have later := ih fun q member => plain q (List.mem_cons_of_mem _ member)
      refine .cons (fun k word => by cases word) (.cons (fun k word => ?_) ?_)
      · cases opens.symm.trans word
      · exact inner.append (.cons (fun k word => by cases closes.symm.trans word) later)
  | @other p ps qs _ _ ih =>
      exact .cons (plain p (by simp)) (ih fun q member => plain q (List.mem_cons_of_mem _ member))

theorem parseArgumentShape {limit : Nat} {ps : List Piece} {e : Expr}
    (h : parseArgument limit ps = .ok e) : Balanced ps ∧ Whole ps := by
  induction limit generalizing ps e with
  | zero => cases h
  | succ limit ih =>
      obtain ⟨p, rest, rfl, ⟨starts, read⟩ | ⟨starts, qs, called, assembled⟩⟩ := parseArgumentOk h
      · obtain ⟨condition, more, ifTrue, ifFalse, c, t, f, cut, cut', filled, first, second, third,
          -⟩ := parseConditionalOk.mp read
        obtain ⟨thenWord, word, rfl⟩ := cutAtKeywordFound cut
        obtain ⟨elseWord, word', rfl⟩ := cutAtKeywordFound cut'
        have starts : word? p = some (.keyword .ifWord) := of_decide_eq_true starts
        have shape := ih first
        have shape' := ih second
        have shape'' := ih third
        have single : ∀ (a : Piece) k, word? a = some (.keyword k) → Balanced [a] := by
          intro a k word
          exact .single (fun b other => by cases word.symm.trans other)
            (fun b other => by cases word.symm.trans other)
        constructor
        · have all := (single p _ starts).append (shape.1.append ((single _ _ word).append
            (shape'.1.append ((single _ _ word').append shape''.1))))
          simpa using all
        · have all := Whole.conditional starts word word' shape.2 shape'.2 shape''.2
          simpa using all
      · obtain ⟨items, root, put, -, -⟩ := assembleOk.mp assembled
        obtain ⟨last, ran, -⟩ := bindIsOk.mp put
        exact ⟨called.depth (postfixBalanced put),
          called.whole (fun as e read => (ih read).2) (stepsPlain ran)⟩

end LiterateMath
