import LiterateMath.Proofs.Calls

/-! The parts of a conditional. What stands between its keywords is told apart by counting the
conditionals that begin in it and still want their else, and there is no other way to part it. -/
namespace LiterateMath

open Lexical

variable {α : Type} [Lexical α]

def wantStep (wanting : Nat) (a : α) : Option Nat :=
  match word? a with
  | some (.keyword .ifWord) => some (wanting + 1)
  | some (.keyword .thenWord) => if wanting = 0 then none else some wanting
  | some (.keyword .elseWord) => if wanting = 0 then none else some (wanting - 1)
  | _ => some wanting

def wantingAfter (wanting : Nat) (as : List α) : Option Nat := as.foldlM wantStep wanting

/-- Every conditional that begins in the list has its else in it, and no then and no else of the
list belongs to a conditional outside of it. -/
def Paired (as : List α) : Prop := wantingAfter 0 as = some 0

instance (as : List α) : Decidable (Paired as) := decEq (α := Option Nat) _ _

theorem wantingAfterCons (wanting : Nat) (a : α) (rest : List α) :
    wantingAfter wanting (a :: rest)
      = (wantStep wanting a).bind fun next => wantingAfter next rest := by
  simp [wantingAfter]

theorem cutAtKeywordStep (target : Keyword) (wanting : Nat) (a : α) (rest : List α) :
    cutAtKeyword target wanting (a :: rest) = match wantStep wanting a with
      | some next => (cutAtKeyword target next rest).map fun cut => (a :: cut.1, cut.2)
      | none => if word? a = some (.keyword target) then some ([], rest) else none := by
  cases word : word? a with
  | none => cases wanting <;> simp [cutAtKeyword, wantStep, word]
  | some w =>
      cases w with
      | keyword k =>
          cases k with
          | ifWord => cases wanting <;> simp [cutAtKeyword, wantStep, word]
          | thenWord => cases wanting <;> simp [cutAtKeyword, wantStep, word, eq_comm]
          | elseWord => cases wanting <;> simp [cutAtKeyword, wantStep, word, eq_comm]
      | _ => cases wanting <;> simp [cutAtKeyword, wantStep, word]

theorem wantStepFails {wanting : Nat} {a : α} (h : wantStep wanting a = none) : wanting = 0 := by
  unfold wantStep at h
  split at h
  · cases h
  · simpa using h
  · simpa using h
  · cases h

theorem wantStepKeyword {k : Keyword} (other : k ≠ .ifWord) {a : α}
    (word : word? a = some (.keyword k)) : wantStep 0 a = none := by
  cases k with
  | ifWord => exact absurd rfl other
  | thenWord => simp [wantStep, word]
  | elseWord => simp [wantStep, word]

theorem cutAtKeywordSome {target : Keyword} (goesOn : target ≠ .ifWord) {wanting : Nat}
    {as before after : List α} : cutAtKeyword target wanting as = some (before, after) ↔
      ∃ sep, word? sep = some (.keyword target) ∧ as = before ++ sep :: after ∧
        wantingAfter wanting before = some 0 := by
  induction as generalizing wanting before with
  | nil => simp [cutAtKeyword]
  | cons a rest ih =>
      rw [cutAtKeywordStep]
      cases step : wantStep wanting a with
      | none =>
          obtain rfl := wantStepFails step
          constructor
          · intro found
            obtain ⟨word, same⟩ :
                word? a = some (.keyword target) ∧ ([], rest) = (before, after) := by
              simpa using found
            cases same
            exact ⟨a, word, rfl, rfl⟩
          · rintro ⟨sep, word, whole, paired⟩
            cases before with
            | nil =>
                obtain ⟨rfl, rfl⟩ := List.cons.inj whole
                simp [word]
            | cons b before =>
                obtain ⟨rfl, -⟩ := List.cons.inj whole
                simp [wantingAfterCons, step] at paired
      | some next =>
          constructor
          · intro found
            obtain ⟨⟨_, _⟩, cut, same⟩ := Option.map_eq_some_iff.mp found
            cases same
            obtain ⟨sep, word, rfl, paired⟩ := ih.mp cut
            exact ⟨sep, word, rfl, by rw [wantingAfterCons, step]; exact paired⟩
          · rintro ⟨sep, word, whole, paired⟩
            cases before with
            | nil =>
                obtain ⟨rfl, -⟩ := List.cons.inj whole
                obtain rfl : wanting = 0 := Option.some.inj paired
                cases step.symm.trans (wantStepKeyword goesOn word)
            | cons b before =>
                obtain ⟨rfl, rest'⟩ := List.cons.inj whole
                rw [wantingAfterCons, step] at paired
                have cut := ih.mpr ⟨sep, word, rest', paired⟩
                simp [cut]

def Conditional (condition ifTrue ifFalse rest : List α) : Prop :=
  ∃ thenWord elseWord, word? thenWord = some (.keyword .thenWord) ∧
    word? elseWord = some (.keyword .elseWord) ∧
    rest = condition ++ thenWord :: (ifTrue ++ elseWord :: ifFalse) ∧
    Paired condition ∧ Paired ifTrue

theorem conditionalPartsSome {rest condition ifTrue ifFalse : List α} :
    conditionalParts rest = some (condition, ifTrue, ifFalse) ↔
      Conditional condition ifTrue ifFalse rest := by
  have goesOn : Keyword.thenWord ≠ .ifWord := by decide
  have goesOn' : Keyword.elseWord ≠ .ifWord := by decide
  constructor
  · intro parts
    obtain ⟨⟨_, more⟩, cut, later⟩ := Option.bind_eq_some_iff.mp parts
    obtain ⟨⟨_, _⟩, cut', same⟩ := Option.bind_eq_some_iff.mp later
    cases same
    obtain ⟨thenWord, word, rfl, paired⟩ := (cutAtKeywordSome goesOn).mp cut
    obtain ⟨elseWord, word', rfl, paired'⟩ := (cutAtKeywordSome goesOn').mp cut'
    exact ⟨thenWord, elseWord, word, word', rfl, paired, paired'⟩
  · rintro ⟨thenWord, elseWord, word, word', rfl, paired, paired'⟩
    have cut : cutAtKeyword .thenWord 0 (condition ++ thenWord :: (ifTrue ++ elseWord :: ifFalse))
        = some (condition, ifTrue ++ elseWord :: ifFalse) :=
      (cutAtKeywordSome goesOn).mpr ⟨thenWord, word, rfl, paired⟩
    have cut' : cutAtKeyword .elseWord 0 (ifTrue ++ elseWord :: ifFalse)
        = some (ifTrue, ifFalse) := (cutAtKeywordSome goesOn').mpr ⟨elseWord, word', rfl, paired'⟩
    simp [conditionalParts, cut, cut']

/-- A conditional is divided into the three parts that it is put together of, and into no others.
What is put together of no such parts is refused. -/
theorem conditionalsSplitUniquely (first : α) (rest : List α) :
    (∀ condition ifTrue ifFalse, conditionalParts rest = some (condition, ifTrue, ifFalse) ↔
      Conditional condition ifTrue ifFalse rest) ∧
    (splitConditional first rest = malformed .conditionalForm (spanOf (first :: rest)) ↔
      ∀ condition ifTrue ifFalse, ¬ Conditional condition ifTrue ifFalse rest) ∧
    ParseFault.conditionalForm.kind = "MalformedConditional" := by
  refine ⟨fun _ _ _ => conditionalPartsSome, ?_, rfl⟩
  have refused : splitConditional first rest = malformed .conditionalForm (spanOf (first :: rest)) ↔
      conditionalParts rest = none := by
    unfold splitConditional
    cases conditionalParts rest with
    | none => simp
    | some parts =>
        obtain ⟨condition, ifTrue, ifFalse⟩ := parts
        simp only [reduceCtorEq, iff_false]
        split <;> simp [malformed]
  rw [refused, Option.eq_none_iff_forall_ne_some]
  constructor
  · intro none condition ifTrue ifFalse parts
    exact none (condition, ifTrue, ifFalse) (conditionalPartsSome.mpr parts)
  · rintro none ⟨condition, ifTrue, ifFalse⟩ parts
    exact none condition ifTrue ifFalse (conditionalPartsSome.mp parts)

end LiterateMath
