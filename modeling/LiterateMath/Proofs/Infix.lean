import LiterateMath.Proofs.Brackets
import LiterateMath.Proofs.Precedence

/-! What is read as an expression. The flag that tells a negation from a minus knows whether an
operand is expected, and nothing checks it against what comes. Among the lists that are read,
the infix expressions are those in which everything comes where it is expected. -/
namespace LiterateMath

inductive Infix : List Piece → Prop where
  | operand {p : Piece} {o : Operand} (means : p.operand? = some o) : Infix [p]
  | bracketed {b : Bracket} {opener closer : Span} {ps : List Piece} (inner : Infix ps) :
      Infix (.token (.plain (.opening b) opener) :: ps
        ++ [.token (.plain (.closing b) closer)])
  | negated {sign : Piece} {u : UnaryOperator} {ps : List Piece}
      (means : sign.negator? = some u) (after : Infix ps) : Infix (sign :: ps)
  | joined {left right : List Piece} {sign : Piece} {c : Connective} (before : Infix left)
      (means : sign.connective? = some c) (after : Infix right) : Infix (left ++ sign :: right)

section Grammar

def Leads (front : List Piece) : Prop :=
  ∀ unit e, Sentence 4 unit e → ∃ tree, Sentence 0 (front ++ unit) tree

theorem connectiveBelongs (c : Connective) :
    c = .operator .exponent ∨ ∃ level, level < 4 ∧ c ∈ connectivesAt level := by
  cases c with
  | relation r => exact .inr ⟨0, by omega, by cases r <;> decide⟩
  | operator o =>
      cases o with
      | exponent => exact .inl rfl
      | union | intersection | disjunction | plusMinus | setDifference =>
          exact .inr ⟨1, by omega, by decide⟩
      | addition | subtraction => exact .inr ⟨2, by omega, by decide⟩
      | _ => exact .inr ⟨3, by omega, by decide⟩

theorem Sentence.more {level tight : Nat} {left right : List Piece} {sign : Piece}
    {c : Connective} {lhs rhs : Expr} (h : Sentence level left lhs) (looser : level ≤ tight)
    (bound : tight < 4) (means : sign.connective? = some c) (belongs : c ∈ connectivesAt tight)
    (after : Sentence 4 right rhs) : ∃ tree, Sentence level (left ++ sign :: right) tree := by
  induction h with
  | @tighter level ps e _ inner ih =>
      rcases Nat.eq_or_lt_of_le looser with rfl | below
      · exact ⟨_, .binary (.tighter (by omega) inner) means belongs
          (after.loosen (by omega) (by omega))⟩
      · obtain ⟨tree, whole⟩ := ih (by omega)
        exact ⟨tree, .tighter (by omega) whole⟩
  | @binary level front back sign' c' lhs' rhs' before means' belongs' inner _ ih =>
      rcases Nat.eq_or_lt_of_le looser with rfl | below
      · exact ⟨_, .binary (.binary before means' belongs' inner) means belongs
          (after.loosen (by omega) (by omega))⟩
      · obtain ⟨tree, whole⟩ := ih (by omega)
        rw [List.append_assoc, List.cons_append]
        exact ⟨_, .binary before means' belongs' whole⟩
  | unary | power | operand | bracketed => omega

theorem Sentence.moreTight {level : Nat} {left right : List Piece} {sign : Piece}
    {lhs rhs : Expr} (h : Sentence level left lhs) (bound : level ≤ 4)
    (means : sign.connective? = some (.operator .exponent)) (after : Sentence 4 right rhs) :
    ∃ tree, Sentence level (left ++ sign :: right) tree := by
  induction h with
  | @tighter level ps e _ inner ih =>
      rcases Nat.eq_or_lt_of_le bound with rfl | below
      · exact ⟨_, .power inner means after⟩
      · obtain ⟨tree, whole⟩ := ih (by omega)
        exact ⟨tree, .tighter (by omega) whole⟩
  | @binary level _ _ _ c _ _ before means' belongs' _ _ ih =>
      have := (connectiveLevel belongs').2.2
      obtain ⟨tree, whole⟩ := ih (by omega)
      rw [List.append_assoc, List.cons_append]
      exact ⟨_, .binary before means' belongs' whole⟩
  | unary means' _ ih =>
      obtain ⟨tree, whole⟩ := ih bound
      exact ⟨_, .unary means' whole⟩
  | power before means' _ _ ih =>
      obtain ⟨tree, whole⟩ := ih bound
      rw [List.append_assoc, List.cons_append]
      exact ⟨_, .power before means' whole⟩
  | operand | bracketed => omega

theorem Sentence.leads {left : List Piece} {sign : Piece} {c : Connective} {lhs : Expr}
    (h : Sentence 0 left lhs) (means : sign.connective? = some c) : Leads (left ++ [sign]) := by
  intro unit e after
  rw [List.append_assoc, List.singleton_append]
  rcases connectiveBelongs c with rfl | ⟨level, bound, belongs⟩
  · exact h.moreTight (by omega) means after
  · exact h.more (by omega) bound means belongs after

theorem Leads.negated {front : List Piece} {sign : Piece} {u : UnaryOperator} (h : Leads front)
    (means : sign.negator? = some u) : Leads (front ++ [sign]) := by
  intro unit e after
  rw [List.append_assoc, List.singleton_append]
  exact h _ _ (.unary means after)

theorem leadsNothing : Leads [] := fun _ e unit => ⟨e, unit.loosen (by omega) (by omega)⟩

theorem Leads.sentence {front ps : List Piece} (h : Leads front) (expression : Infix ps) :
    ∃ tree, Sentence 0 (front ++ ps) tree := by
  induction expression generalizing front with
  | operand means => exact h _ _ (.tighter (by omega) (.operand means))
  | bracketed _ ih =>
      obtain ⟨tree, inner⟩ := ih leadsNothing
      exact h _ _ (.tighter (by omega) (.bracketed inner))
  | negated means _ ih =>
      rw [List.append_cons]
      exact ih (h.negated means)
  | joined _ means _ first second =>
      obtain ⟨tree, before⟩ := first h
      rw [← List.append_assoc, List.append_cons]
      exact second (before.leads means)

theorem Sentence.unranked {level : Nat} {ps : List Piece} {e : Expr} (h : Sentence level ps e) :
    Infix ps := by
  induction h with
  | tighter _ _ ih => exact ih
  | binary _ means _ _ first second => exact .joined first means second
  | unary means _ ih => exact .negated means ih
  | power _ means _ first second => exact .joined first means second
  | operand means => exact .operand means
  | bracketed _ ih => exact .bracketed ih

theorem infixSentence {ps : List Piece} : Infix ps ↔ ∃ e, Sentence 0 ps e := by
  constructor
  · exact leadsNothing.sentence
  · rintro ⟨e, h⟩
    exact h.unranked

end Grammar

section Places

def Piece.next? (expecting : Bool) (p : Piece) : Option Bool :=
  match p.role expecting with
  | .operand _ => if expecting then some false else none
  | .opening _ => if expecting then some true else none
  | .closing _ => if expecting then none else some false
  | .operation (.unary _) => if expecting then some true else none
  | .operation (.binary _) => if expecting then none else some true
  | .stray _ => none

def inPlace (ps : List Piece) : Bool := ps.foldlM Piece.next? true = some false

theorem nextOperand {p : Piece} {o : Operand} (h : p.operand? = some o) :
    p.next? true = some false := by
  unfold Piece.operand? at h
  split at h <;> cases h <;> rfl

theorem nextNegator {p : Piece} {u : UnaryOperator} (h : p.negator? = some u) :
    p.next? true = some true := by
  unfold Piece.negator? at h
  split at h <;> cases h <;> rfl

theorem nextConnective {p : Piece} {c : Connective} (h : p.connective? = some c) :
    p.next? false = some true := by
  unfold Piece.connective? at h
  split at h
  · simp [Piece.next?, Piece.role, Word.role]
  · cases h
    rfl
  · cases h
    rfl
  · cases h

theorem infixInPlace {ps : List Piece} (h : Infix ps) : ps.foldlM Piece.next? true = some false := by
  induction h with
  | operand means => simp [nextOperand means]
  | @bracketed b opener closer _ _ ih =>
      have opens : Piece.next? true (.token (.plain (.opening b) opener)) = some true := rfl
      have closes : Piece.next? false (.token (.plain (.closing b) closer)) = some false := rfl
      simp [List.foldlM_append, opens, ih, closes]
  | negated means _ ih => simp [nextNegator means, ih]
  | joined _ means _ first second => simp [List.foldlM_append, first, nextConnective means, second]

def openers : List Waiting → List Bracket
  | [] => []
  | .bracket b _ :: rest => b :: openers rest
  | .operation _ _ :: rest => openers rest

theorem openersOps (ops : List (Operation × Span)) (rest : List Waiting) :
    openers (ops.map waits ++ rest) = openers rest := by
  induction ops with
  | nil => rfl
  | cons o ops ih => simpa [waits, openers] using ih

def Stands : (expecting : Bool) → List Piece → Prop
  | true, ps => ∀ qs, Infix qs → Infix (ps ++ qs)
  | false, ps => Infix ps

theorem Stands.operand {ps : List Piece} {p : Piece} {o : Operand} (h : Stands true ps)
    (means : p.operand? = some o) : Stands false (ps ++ [p]) := h [p] (.operand means)

theorem Stands.negated {ps : List Piece} {p : Piece} {u : UnaryOperator} (h : Stands true ps)
    (means : p.negator? = some u) : Stands true (ps ++ [p]) := by
  intro qs after
  rw [List.append_assoc]
  exact h _ (.negated means after)

theorem Stands.joined {ps : List Piece} {p : Piece} {c : Connective} (h : Stands false ps)
    (means : p.connective? = some c) : Stands true (ps ++ [p]) := by
  intro qs after
  rw [List.append_assoc]
  exact .joined h means after

inductive ReadSoFar : (expecting : Bool) → List Bracket → List Piece → Prop where
  | outside {expecting : Bool} {ps : List Piece} (stands : Stands expecting ps) :
      ReadSoFar expecting [] ps
  | inside {expecting : Bool} {bs : List Bracket} {xs ps : List Piece} {b : Bracket}
      {opener : Span} (outer : ReadSoFar true bs xs) (stands : Stands expecting ps) :
      ReadSoFar expecting (b :: bs) (xs ++ .token (.plain (.opening b) opener) :: ps)

namespace ReadSoFar

variable {expecting next : Bool} {bs : List Bracket} {ps qs : List Piece}

theorem extend (h : ReadSoFar expecting bs ps)
    (more : ∀ inner, Stands expecting inner → Stands next (inner ++ qs)) :
    ReadSoFar next bs (ps ++ qs) := by
  cases h with
  | outside stands => exact .outside (more _ stands)
  | inside outer stands =>
      rw [List.append_assoc, List.cons_append]
      exact .inside outer (more _ stands)

theorem opened (h : ReadSoFar true bs ps) (b : Bracket) (place : Span) :
    ReadSoFar true (b :: bs) (ps ++ [.token (.plain (.opening b) place)]) :=
  .inside h fun _ after => after

theorem closed {b : Bracket} (h : ReadSoFar false (b :: bs) ps) (place : Span) :
    ReadSoFar false bs (ps ++ [.token (.plain (.closing b) place)]) := by
  cases h with
  | inside outer stands =>
      rw [List.append_assoc]
      exact outer.extend fun _ front => front _ (.bracketed stands)

end ReadSoFar
theorem Piece.ofRole (p : Piece) (expecting : Bool) :
    match p.role expecting with
    | .operand o => p.operand? = some o
    | .opening b => ∃ place, p = .token (.plain (.opening b) place)
    | .closing b => ∃ place, p = .token (.plain (.closing b) place)
    | .operation (.unary u) => p.negator? = some u
    | .operation (.binary c) => p.connective? = some c
    | .stray _ => True := by
  cases p with
  | token t =>
      cases t with
      | plain w place =>
          cases w with
          | sign s =>
              by_cases negation : s = .minus ∧ expecting
              · obtain ⟨rfl, rfl⟩ := negation
                rfl
              · simp only [Piece.role, Word.role, if_neg negation]
                rfl
          | opening b => exact ⟨place, rfl⟩
          | closing b => exact ⟨place, rfl⟩
          | _ => trivial
      | command => trivial
  | _ => rfl

theorem stepReads {y y' : Yard} {p : Piece} {ps : List Piece} {next : Bool}
    (h : y.step p = .ok y') (fits : p.next? y.expecting = some next)
    (read : ReadSoFar y.expecting (openers y.waiting) ps) :
    y'.expecting = next ∧ ReadSoFar next (openers y'.waiting) (ps ++ [p]) := by
  have kind := p.ofRole y.expecting
  unfold Yard.step at h
  unfold Piece.next? at fits
  cases role : p.role y.expecting with
  | operand o =>
      simp only [role] at h fits kind
      split at fits <;> cases fits
      rename_i expects
      rw [expects] at read
      cases h
      exact ⟨rfl, read.extend fun _ stands => stands.operand kind⟩
  | opening b =>
      simp only [role] at h fits kind
      obtain ⟨place, rfl⟩ := kind
      split at fits <;> cases fits
      rename_i expects
      rw [expects] at read
      cases h
      exact ⟨rfl, read.opened b place⟩
  | closing b =>
      simp only [role] at h fits kind
      obtain ⟨place, rfl⟩ := kind
      split at fits <;> cases fits
      rename_i passed
      rw [Bool.not_eq_true] at passed
      rw [passed] at read
      obtain ⟨ops, opener, rest, stack, rfl⟩ := Yard.closeSplit h
      rw [stack, openersOps] at read
      exact ⟨rfl, read.closed place⟩
  | operation op =>
      simp only [role] at h fits kind
      cases h
      cases op with
      | unary u =>
          simp only at fits kind
          split at fits <;> cases fits
          rename_i expects
          rw [expects] at read
          exact ⟨rfl, read.extend fun _ stands => stands.negated kind⟩
      | binary c =>
          simp only at fits kind
          split at fits <;> cases fits
          rename_i passed
          rw [Bool.not_eq_true] at passed
          rw [passed] at read
          obtain ⟨ops, rest, stack, -, -, result⟩ := Yard.operateSplit y c p.span
          rw [stack, openersOps] at read
          rw [result]
          exact ⟨rfl, read.extend fun _ stands => stands.joined kind⟩
  | stray fault =>
      simp only [role] at h
      cases h

theorem stepsRead {y y' : Yard} {ps qs : List Piece} {next : Bool}
    (h : qs.foldlM Yard.step y = .ok y') (fits : qs.foldlM Piece.next? y.expecting = some next)
    (read : ReadSoFar y.expecting (openers y.waiting) ps) :
    ReadSoFar next (openers y'.waiting) (ps ++ qs) := by
  induction qs generalizing y ps with
  | nil =>
      cases h
      cases fits
      simpa using read
  | cons q qs ih =>
      rw [List.foldlM_cons] at h fits
      obtain ⟨middle, first, later⟩ := bindIsOk.mp h
      obtain ⟨expecting, fit, fits⟩ := Option.bind_eq_some_iff.mp fits
      obtain ⟨same, read⟩ := stepReads first fit read
      rw [List.append_cons]
      subst same
      exact ih later fits read

theorem infixOfPlaces {ps : List Piece} {items : List Postfix} (fits : inPlace ps = true)
    (h : toPostfix ps = .ok items) : Infix ps := by
  obtain ⟨last, ran, finished⟩ := bindIsOk.mp h
  obtain ⟨ops, stack, -⟩ := Yard.finishSplit finished
  have start : ReadSoFar Yard.empty.expecting (openers Yard.empty.waiting) [] :=
    .outside fun _ after => after
  have read := stepsRead ran (of_decide_eq_true fits) start
  have closed := openersOps ops []
  rw [List.append_nil] at closed
  rw [stack, closed] at read
  cases read with
  | outside stands => exact stands

end Places

section Failures

theorem closeMalformed {y : Yard} {b : Bracket} {place : Span} {failure : ParseFailure}
    (h : y.close b place = .error failure) : ∃ fault at_, failure = .malformed fault at_ := by
  unfold Yard.close at h
  simp only at h
  split at h
  · split at h
    · cases h
    · cases h
      exact ⟨_, _, rfl⟩
  · cases h
    exact ⟨_, _, rfl⟩

theorem stepMalformed {y : Yard} {p : Piece} {failure : ParseFailure}
    (h : y.step p = .error failure) : ∃ fault at_, failure = .malformed fault at_ := by
  unfold Yard.step at h
  split at h
  · cases h
  · cases h
  · exact closeMalformed h
  · cases h
  · cases h
    exact ⟨_, _, rfl⟩

theorem stepsMalformed {y : Yard} {ps : List Piece} {failure : ParseFailure}
    (h : ps.foldlM Yard.step y = .error failure) : ∃ fault at_, failure = .malformed fault at_ := by
  induction ps generalizing y with
  | nil => cases h
  | cons p ps ih =>
      rw [List.foldlM_cons] at h
      cases first : y.step p with
      | error failure' =>
          rw [first] at h
          cases h
          exact stepMalformed first
      | ok y' =>
          rw [first] at h
          exact ih h

theorem postfixMalformed {ps : List Piece} {failure : ParseFailure}
    (h : toPostfix ps = .error failure) : ∃ fault at_, failure = .malformed fault at_ := by
  unfold toPostfix at h
  cases ran : ps.foldlM Yard.step Yard.empty with
  | error failure' =>
      rw [ran] at h
      cases h
      exact stepsMalformed ran
  | ok y =>
      rw [ran] at h
      simp only [bindOk, Yard.finish] at h
      split at h
      · cases h
        exact ⟨_, _, rfl⟩
      · cases h

end Failures

/-- Of the lists that are read, the infix expressions are those in which everything comes where
it is expected; and of the lists in which it does, all that are no infix expressions are found
to be malformed. -/
theorem readInPlace (ps : List Piece) (place : Option Span) :
    (∀ e, (do fold (← toPostfix ps) place) = .ok e → (Infix ps ↔ inPlace ps = true)) ∧
    (inPlace ps = true → ¬ Infix ps →
      ∃ fault at_, (do fold (← toPostfix ps) place) = .error (.malformed fault at_)) := by
  constructor
  · intro e h
    obtain ⟨items, postfixed, -⟩ := bindIsOk.mp h
    exact ⟨fun expression => decide_eq_true (infixInPlace expression),
      fun fits => infixOfPlaces fits postfixed⟩
  · intro fits none
    cases postfixed : toPostfix ps with
    | ok items => exact absurd (infixOfPlaces fits postfixed) none
    | error failure =>
        obtain ⟨fault, at_, rfl⟩ := postfixMalformed postfixed
        exact ⟨fault, at_, rfl⟩

theorem Infix.balanced {ps : List Piece} (h : Infix ps) : Balanced ps := by
  induction h with
  | @operand p o means =>
      unfold Piece.operand? at means
      split at means <;> cases means <;> rfl
  | bracketed _ ih => exact ih.wrapped rfl rfl
  | @negated sign u ps means _ ih =>
      have flat : Balanced [sign] := by
        unfold Piece.negator? at means
        split at means <;> cases means <;> rfl
      exact flat.append ih
  | @joined _ _ sign c _ means _ first second =>
      have flat : Balanced [sign] := by
        unfold Piece.connective? at means
        split at means <;> cases means <;> rfl
      exact first.append (flat.append second)

def Piece.numeral (digits : String) (first last : Nat) : Piece :=
  .token (.plain (.number digits) ⟨first, last⟩)

def onePlusTwo : List Piece := [.numeral "1" 0 1, .sign .plus 2, .numeral "2" 4 5]

def oneClosed : List Piece :=
  [.numeral "1" 0 1, .token (.plain (.closing .paren) ⟨1, 2⟩)]

theorem onePlusTwoInPlace : Infix onePlusTwo ∧
    ∃ fault at_, (do fold (← toPostfix oneClosed) none) = .error (.malformed fault at_) := by
  have stray : openAfter 0 oneClosed ≠ some 0 := by decide
  have closed : ¬ Infix oneClosed := fun h => stray h.balanced
  exact ⟨((readInPlace onePlusTwo none).1 _ rfl).mpr (by decide),
    (readInPlace oneClosed none).2 (by decide) closed⟩

def starFirst : List Piece := [.sign .star 0, .numeral "1" 2 3, .numeral "2" 4 5]

theorem starFirstRead :
    (do fold (← toPostfix starFirst) none) = .ok (.binary (.operator .multiplication)
      (.literal (.integer 1) (some ⟨2, 3⟩)) (.literal (.integer 2) (some ⟨4, 5⟩)) none) ∧
    ¬ Infix starFirst := by
  refine ⟨rfl, fun h => ?_⟩
  have places : inPlace starFirst = true := decide_eq_true (infixInPlace h)
  exact absurd places (by decide)

end LiterateMath
