import Mathlib.Data.List.Forall2
import LiterateMath.Fault

/-! Outcomes of two runs that are to come to the same. A run may be excused for going too deep,
so that what has a limit can be compared with what has another. -/
namespace LiterateMath

section Steps

variable {ε α β : Type}

@[simp] theorem bindOk (a : α) (f : α → Except ε β) : (Except.ok a >>= f) = f a := rfl

@[simp] theorem bindError (fault : ε) (f : α → Except ε β) :
    (Except.error fault >>= f) = .error fault := rfl

@[simp] theorem pureOk (a : α) : (pure a : Except ε α) = .ok a := rfl

theorem bindIsOk {x : Except ε α} {f : α → Except ε β} {b : β} :
    x >>= f = .ok b ↔ ∃ a, x = .ok a ∧ f a = .ok b := by
  cases x <;> simp

theorem bindFails {x : Except ε α} {f : α → Except ε β} {fault : ε} :
    x >>= f = .error fault ↔ x = .error fault ∨ ∃ a, x = .ok a ∧ f a = .error fault := by
  cases x <;> simp

theorem mapMEach {f : α → Except ε β} {as : List α} {bs : List β} (ok : as.mapM f = .ok bs) :
    List.Forall₂ (fun a b => f a = .ok b) as bs := by
  induction as generalizing bs with
  | nil =>
    cases ok
    exact .nil
  | cons a rest ih =>
    rw [List.mapM_cons] at ok
    obtain ⟨b, first, ok⟩ := bindIsOk.mp ok
    obtain ⟨others, later, last⟩ := bindIsOk.mp ok
    cases last
    exact .cons first (ih later)

theorem mapMFrom {f : α → Except ε β} {as : List α} {bs : List β} (ok : as.mapM f = .ok bs) :
    ∀ b ∈ bs, ∃ a ∈ as, f a = .ok b := by
  have each := mapMEach ok
  clear ok
  induction each with
  | nil => simp
  | @cons a b _ _ first _ ih =>
    intro other member
    rcases List.mem_cons.mp member with rfl | later
    · exact ⟨a, List.mem_cons_self, first⟩
    · obtain ⟨a', inside, found⟩ := ih other later
      exact ⟨a', List.mem_cons_of_mem a inside, found⟩

theorem mapMFails {f : α → Except ε β} {as : List α} {fault : ε}
    (failed : as.mapM f = .error fault) :
    ∃ before a after bs, as = before ++ a :: after ∧ before.mapM f = .ok bs ∧
      f a = .error fault := by
  induction as with
  | nil => cases failed
  | cons a rest ih =>
    rw [List.mapM_cons] at failed
    rcases bindFails.mp failed with first | ⟨b, first, failed⟩
    · exact ⟨[], a, rest, [], rfl, rfl, first⟩
    · rcases bindFails.mp failed with later | ⟨bs, _, impossible⟩
      · obtain ⟨before, a', after, bs, rfl, done, found⟩ := ih later
        exact ⟨a :: before, a', after, b :: bs, rfl, by simp [first, done], found⟩
      · cases impossible

end Steps

def FailsOnly {ε α : Type} (kind : ε → Prop) (o : Except ε α) : Prop :=
  ∀ fault, o = .error fault → kind fault

namespace FailsOnly

variable {ε α β : Type} {kind : ε → Prop}

theorem ok (a : α) : FailsOnly kind (.ok a) := nofun

theorem error {fault : ε} (fitting : kind fault) : FailsOnly kind (.error fault : Except ε α) :=
  fun _ same => Except.error.inj same ▸ fitting

theorem bind {o : Except ε α} {f : α → Except ε β} (first : FailsOnly kind o)
    (next : ∀ a, o = .ok a → FailsOnly kind (f a)) : FailsOnly kind (o >>= f) := by
  intro fault failed
  rcases bindFails.mp failed with early | ⟨a, done, late⟩
  · exact first fault early
  · exact next a done fault late

theorem mapM {f : α → Except ε β} {as : List α} (each : ∀ a ∈ as, FailsOnly kind (f a)) :
    FailsOnly kind (as.mapM f) := by
  intro fault failed
  obtain ⟨before, a, after, _, rfl, _, found⟩ := mapMFails failed
  exact each a (by simp) fault found

end FailsOnly

/-- Both runs end in related values or in the same fault, unless one that is excused goes too
deep. -/
inductive Agree {α β : Type} (left right : Prop) (related : α → β → Prop) :
    Outcome α → Outcome β → Prop where
  | ok {a b} (values : related a b) : Agree left right related (.ok a) (.ok b)
  | error (fault : Fault) : Agree left right related (.error fault) (.error fault)
  | deepLeft (excused : left) (s : Outcome β) : Agree left right related (.error .tooDeep) s
  | deepRight (excused : right) (r : Outcome α) : Agree left right related r (.error .tooDeep)

namespace Agree

variable {α β γ δ : Type} {left right : Prop}

theorem refl {related : α → α → Prop} (reflexive : ∀ a, related a a) (r : Outcome α) :
    Agree left right related r r := by
  cases r with
  | ok a => exact .ok (reflexive a)
  | error fault => exact .error fault

theorem bind {related : α → β → Prop} {after : γ → δ → Prop} {r : Outcome α} {s : Outcome β}
    {f : α → Outcome γ} {g : β → Outcome δ} (first : Agree left right related r s)
    (next : ∀ a b, related a b → Agree left right after (f a) (g b)) :
    Agree left right after (r >>= f) (s >>= g) := by
  cases first with
  | ok values => exact next _ _ values
  | error fault => exact .error fault
  | deepLeft excused s => exact .deepLeft excused _
  | deepRight excused r => exact .deepRight excused _

theorem excuse {left' right' : Prop} {related : α → β → Prop} {r : Outcome α} {s : Outcome β}
    (agree : Agree left right related r s) (onLeft : left → left') (onRight : right → right') :
    Agree left' right' related r s := by
  cases agree with
  | ok values => exact .ok values
  | error fault => exact .error fault
  | deepLeft excused s => exact .deepLeft (onLeft excused) s
  | deepRight excused r => exact .deepRight (onRight excused) r

theorem mapM {related : α → β → Prop} {f : γ → Outcome α} {g : δ → Outcome β} {xs : List γ}
    {ys : List δ} (each : List.Forall₂ (fun x y => Agree left right related (f x) (g y)) xs ys) :
    Agree left right (List.Forall₂ related) (xs.mapM f) (ys.mapM g) := by
  induction each with
  | nil => exact .ok .nil
  | cons first rest ih =>
    rw [List.mapM_cons, List.mapM_cons]
    refine first.bind fun a b values => ih.bind fun as bs more => ?_
    exact .ok (.cons values more)

theorem same {r s : Outcome α} (agree : Agree left right Eq r s)
    (shallow : left → r ≠ .error .tooDeep) (shallow' : right → s ≠ .error .tooDeep) : r = s := by
  cases agree with
  | ok values => rw [values]
  | error fault => rfl
  | deepLeft excused s => exact absurd rfl (shallow excused)
  | deepRight excused r => exact absurd rfl (shallow' excused)

end Agree
end LiterateMath
