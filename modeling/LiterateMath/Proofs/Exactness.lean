import LiterateMath.Proofs.Arithmetic
import Mathlib.Algebra.Ring.Int.Parity

/-! Arithmetic on integers is exact. Sums, differences, products and natural powers are those of
the integers, a quotient is cut off toward zero, and a comparison tells what is the case. Only a
negative power of an integer other than zero goes by way of reals. -/
namespace LiterateMath

section Division

/-- What is left over of `a` is less than `b` and does not go the other way than `a`. -/
def CutOff (a b q : Int) : Prop :=
  ∃ r, a = q * b + r ∧ r.natAbs < b.natAbs ∧ (r = 0 ∨ r.sign = a.sign)

variable {a b p q : Int}

theorem cutOffQuotient (a : Int) (divides : b ≠ 0) : CutOff a b (a.tdiv b) := by
  refine ⟨a.tmod b, (Int.tdiv_mul_add_tmod a b).symm, ?_, ?_⟩
  · rw [Int.natAbs_tmod]
    exact Nat.mod_lt _ (Int.natAbs_pos.mpr divides)
  · by_cases whole : b ∣ a
    · exact .inl (Int.tmod_eq_zero_of_dvd whole)
    · exact .inr (by rw [Int.sign_tmod, if_neg whole])

theorem leftoversMeet {r s : Int} (side : r = 0 ∨ r.sign = a.sign)
    (side' : s = 0 ∨ s.sign = a.sign) (small : r.natAbs < b.natAbs)
    (small' : s.natAbs < b.natAbs) : (r - s).natAbs < b.natAbs := by
  rcases Int.lt_trichotomy a 0 with below | rfl | above
  · rw [Int.sign_eq_neg_one_of_neg below, Int.sign_eq_neg_one_iff_neg] at side side'
    omega
  · rw [Int.sign_zero, Int.sign_eq_zero_iff_zero] at side side'
    omega
  · rw [Int.sign_eq_one_of_pos above, Int.sign_eq_one_iff_pos] at side side'
    omega

theorem cutOffOnce (first : CutOff a b p) (second : CutOff a b q) : p = q := by
  obtain ⟨r, whole, small, side⟩ := first
  obtain ⟨s, whole', small', side'⟩ := second
  have apart : r - s = b * (q - p) := by
    rw [Int.mul_sub, Int.mul_comm b q, Int.mul_comm b p]
    omega
  have same : r - s = 0 :=
    Int.eq_zero_of_dvd_of_natAbs_lt_natAbs ⟨q - p, apart⟩ (leftoversMeet side side' small small')
  rcases Int.mul_eq_zero.mp (apart.symm.trans same) with nothing | equal
  · omega
  · omega

end Division

namespace Number

theorem naturalPowerExact (a : Int) (n : Nat) : naturalPower a n = a ^ n := by
  unfold naturalPower
  split
  · subst a
    cases n with
    | zero => rfl
    | succ n => exact (Int.zero_pow (Nat.succ_ne_zero n)).symm
  · split
    · subst a
      exact (one_pow n).symm
    · split
      · subst a
        split
        · rename_i even
          exact (Even.neg_one_pow (Nat.even_iff.mpr even)).symm
        · rename_i odd
          exact (Odd.neg_one_pow (Nat.odd_iff.mpr (Nat.mod_two_ne_zero.mp odd))).symm
      · rfl

open Connective

structure Exact (a b : Int) : Prop where
  sum : (operator .addition).combine (integer a) (integer b) = .ok (integer (a + b))
  difference : (operator .subtraction).combine (integer a) (integer b) = .ok (integer (a - b))
  product : (operator .multiplication).combine (integer a) (integer b) = .ok (integer (a * b))
  byZero : (operator .division).combine (integer a) (integer b) = .error .divisionByZero ↔ b = 0
  quotient : b ≠ 0 → ∃ q, (operator .division).combine (integer a) (integer b) = .ok (integer q) ∧
    ∀ p, CutOff a b p ↔ p = q
  power : 0 ≤ b →
    (operator .exponent).combine (integer a) (integer b) = .ok (integer (a ^ b.toNat))
  inverse : a = 0 → b < 0 →
    (operator .exponent).combine (integer a) (integer b) = .error .divisionByZero
  equal : (relation .equals).combine (integer a) (integer b)
    = .ok (integer (if a = b then 1 else 0))
  close : (relation .approx).combine (integer a) (integer b)
    = .ok (integer (if a = b then 1 else 0))
  atMost : (relation .lessEq).combine (integer a) (integer b)
    = .ok (integer (if a ≤ b then 1 else 0))
  atLeast : (relation .greaterEq).combine (integer a) (integer b)
    = .ok (integer (if a ≥ b then 1 else 0))
  less : (relation .less).combine (integer a) (integer b)
    = .ok (integer (if a < b then 1 else 0))
  greater : (relation .greater).combine (integer a) (integer b)
    = .ok (integer (if a > b then 1 else 0))
  fits (c : Connective) (implemented : c.meaning?.isSome = true)
    (natural : c = operator .exponent → 0 ≤ b ∨ a = 0) (fault : Fault)
    (failed : c.combine (integer a) (integer b) = .error fault) : fault = .divisionByZero

theorem combineOperands {c : Connective} {meaning : Operands → Outcome Number}
    (means : c.meaning? = some meaning) (a b : Int) :
    c.combine (integer a) (integer b) = meaning (.integers a b) := by
  rw [combine, means]
  rfl

variable {a b : Int}

theorem powerExact (natural : 0 ≤ b) :
    (operator .exponent).combine (integer a) (integer b) = .ok (integer (a ^ b.toNat)) := by
  rw [combineOperands rfl]
  simp only [integerPower, if_pos natural, naturalPowerExact]

theorem inverseOfZero (negative : b < 0) :
    (operator .exponent).combine (integer 0) (integer b) = .error .divisionByZero := by
  rw [combineOperands rfl]
  simp only [integerPower, if_neg (Int.not_le.mpr negative), if_pos]

theorem wholeQuotientTruncates (a b : Int) : wholeQuotient a b = a.tdiv b := by
  have natural (n : Nat) : ¬(n : Int) < 0 := Int.not_lt.mpr (Int.natCast_nonneg n)
  have negative (n : Nat) : -((n + 1 : Nat) : Int) < 0 := by omega
  obtain ⟨m, rfl | rfl⟩ := a.eq_nat_or_neg <;> obtain ⟨n, rfl | rfl⟩ := b.eq_nat_or_neg <;>
    simp only [wholeQuotient, Int.natAbs_neg, Int.natAbs_natCast, Int.neg_tdiv, Int.tdiv_neg,
      ← Int.ofNat_tdiv, Int.neg_neg]
  · simp [natural]
  · cases n with
    | zero => simp
    | succ n => simp only [natural, negative, decide_true, decide_false, reduceCtorEq, if_false]
  · cases m with
    | zero => simp
    | succ m => simp only [natural, negative, decide_true, decide_false, reduceCtorEq, if_false]
  · cases m with
    | zero => simp
    | succ m =>
      cases n with
      | zero => simp
      | succ n => simp only [negative, if_true]

theorem divisionExact (a b : Int) : (operator .division).combine (integer a) (integer b)
    = if b = 0 then .error .divisionByZero else .ok (integer (a.tdiv b)) := by
  rw [combineOperands rfl, ← wholeQuotientTruncates]
  rfl

theorem comparisonExact {r : Relation} {test : Operands → Bool} (found : comparison? r = some test)
    (a b : Int) : (relation r).combine (integer a) (integer b)
      = .ok (integer (if test (.integers a b) then 1 else 0)) := by
  have means : (relation r).meaning? = some fun ops => .ok (ofBool (test ops)) := by
    rw [meaning?, found, Option.map_some]
  rw [combineOperands means]
  rfl

theorem failsByZero {c : Connective} (implemented : c.meaning?.isSome = true)
    (natural : c = operator .exponent → 0 ≤ b ∨ a = 0) {fault : Fault}
    (failed : c.combine (integer a) (integer b) = .error fault) : fault = .divisionByZero := by
  cases c with
  | relation r =>
      obtain ⟨test, found⟩ := Option.isSome_iff_exists.mp implemented
      obtain ⟨test, means, -⟩ := Option.map_eq_some_iff.mp found
      rw [comparisonExact means] at failed
      cases failed
  | operator op =>
      cases op with
      | addition | subtraction | multiplication => cases failed
      | division =>
          rw [divisionExact] at failed
          split at failed
          · exact (Except.error.inj failed).symm
          · cases failed
      | exponent =>
          by_cases whole : 0 ≤ b
          · rw [powerExact whole] at failed
            cases failed
          · obtain rfl := (natural rfl).resolve_left whole
            rw [inverseOfZero (Int.not_le.mp whole)] at failed
            exact (Except.error.inj failed).symm
      | _ => cases implemented

theorem integersExact (a b : Int) : Exact a b where
  sum := rfl
  difference := rfl
  product := rfl
  byZero := by
    rw [divisionExact]
    split <;> simp_all
  quotient divides := by
    refine ⟨a.tdiv b, by rw [divisionExact, if_neg divides], fun p => ⟨fun cut => ?_, ?_⟩⟩
    · exact cutOffOnce cut (cutOffQuotient a divides)
    · rintro rfl
      exact cutOffQuotient a divides
  power := powerExact
  inverse := by
    rintro rfl negative
    exact inverseOfZero negative
  equal := by simpa using comparisonExact (r := .equals) rfl a b
  close := by simpa using comparisonExact (r := .approx) rfl a b
  atMost := by simpa using comparisonExact (r := .lessEq) rfl a b
  atLeast := by simpa using comparisonExact (r := .greaterEq) rfl a b
  less := by simpa using comparisonExact (r := .less) rfl a b
  greater := by simpa using comparisonExact (r := .greater) rfl a b
  fits _ implemented natural _ := failsByZero implemented natural

example : (operator .division).combine (integer (-7)) (integer 2) = .ok (integer (-3)) := rfl

end Number
end LiterateMath
