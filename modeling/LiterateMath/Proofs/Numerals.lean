import Mathlib.Tactic.Ring
import LiterateMath.Text.Numeral

/-! Numerals read back. The digits of a number have its value, and no other digits with that
value are fewer. -/
namespace LiterateMath.Text

section Digits

theorem digitCharNat (n : Nat) : (digitChar n).toNat = 48 + n % 10 := by
  have each : ∀ digit < 10, (Char.ofNat ('0'.toNat + digit)).toNat = 48 + digit := by decide
  exact each (n % 10) (Nat.mod_lt n (by decide))

theorem digitCharDigit (n : Nat) : (digitChar n).isDigit = true := by
  have value := digitCharNat n
  refine Char.isDigit_iff_toNat.mpr ⟨?_, ?_⟩
  · show 48 ≤ (digitChar n).toNat
    omega
  · show (digitChar n).toNat ≤ 57
    omega

theorem digitValueChar (n : Nat) : digitValue (digitChar n) = n % 10 := by
  have value := digitCharNat n
  show (digitChar n).toNat - 48 = n % 10
  omega

theorem digitValueSmall {c : Char} (digit : c.isDigit = true) : digitValue c < 10 := by
  have high : c.toNat ≤ 57 := (Char.isDigit_iff_toNat.mp digit).2
  show c.toNat - 48 < 10
  omega

theorem numeralValueAppend (start : Nat) (xs ys : List Char) :
    numeralValueFrom start (xs ++ ys) = numeralValueFrom (numeralValueFrom start xs) ys :=
  List.foldl_append

theorem numeralValueBound {digits : List Char} (each : ∀ c ∈ digits, c.isDigit = true)
    (start : Nat) : numeralValueFrom start digits < (start + 1) * 10 ^ digits.length := by
  induction digits generalizing start with
  | nil => simp [numeralValueFrom]
  | cons c rest ih =>
      have small := digitValueSmall (each c List.mem_cons_self)
      have later := ih (fun c' member => each c' (List.mem_cons_of_mem c member))
        (10 * start + digitValue c)
      have step : (10 * start + digitValue c + 1) * 10 ^ rest.length
          ≤ (start + 1) * 10 * 10 ^ rest.length := Nat.mul_le_mul_right _ (by omega)
      calc numeralValueFrom start (c :: rest)
          = numeralValueFrom (10 * start + digitValue c) rest := rfl
        _ < (10 * start + digitValue c + 1) * 10 ^ rest.length := later
        _ ≤ (start + 1) * 10 * 10 ^ rest.length := step
        _ = (start + 1) * 10 ^ (c :: rest).length := by
            rw [List.length_cons, Nat.pow_succ]; ring

end Digits

section Plain

theorem plainDigitsSmall {n : Nat} (small : n < 10) : plainDigits n = [digitChar n] := by
  rw [plainDigits, dif_pos small]

theorem plainDigitsMore {n : Nat} (large : ¬ n < 10) :
    plainDigits n = plainDigits (n / 10) ++ [digitChar n] := by
  rw [plainDigits, dif_neg large]

theorem plainDigitsValue (n : Nat) : numeralValue (plainDigits n) = n := by
  fun_induction plainDigits n with
  | case1 n small =>
      show 10 * 0 + digitValue (digitChar n) = n
      rw [digitValueChar]
      omega
  | case2 n large ih =>
      rw [numeralValue] at ih ⊢
      rw [numeralValueAppend, ih]
      show 10 * (n / 10) + digitValue (digitChar n) = n
      rw [digitValueChar]
      omega

theorem plainDigitsDigit (n : Nat) : ∀ c ∈ plainDigits n, c.isDigit = true := by
  fun_induction plainDigits n with
  | case1 n small => simp [digitCharDigit]
  | case2 n large ih =>
      intro c member
      rcases List.mem_append.mp member with before | last
      · exact ih c before
      · rw [List.mem_singleton.mp last]
        exact digitCharDigit n

theorem plainDigitsLength (n width : Nat) (fits : n < 10 ^ (width + 1)) :
    (plainDigits n).length ≤ width + 1 := by
  induction width generalizing n with
  | zero =>
      rw [plainDigitsSmall (by simpa using fits)]
      simp
  | succ width ih =>
      by_cases small : n < 10
      · simp [plainDigitsSmall small]
      · have shorter := ih (n / 10) (by rw [Nat.pow_succ] at fits; omega)
        rw [plainDigitsMore small, List.length_append, List.length_singleton]
        omega

theorem paddedDigitsValue (width n start : Nat) :
    numeralValueFrom start (paddedDigits width n) = start * 10 ^ width + n % 10 ^ width := by
  induction width generalizing n with
  | zero =>
      show start = start * 10 ^ 0 + n % 10 ^ 0
      omega
  | succ width ih =>
      have digits : n % 10 ^ (width + 1) = 10 * (n / 10 % 10 ^ width) + n % 10 := by
        rw [Nat.pow_succ, Nat.mul_comm, Nat.mod_mul, Nat.add_comm]
      rw [paddedDigits, numeralValueAppend, ih, digits]
      show 10 * (start * 10 ^ width + n / 10 % 10 ^ width) + digitValue (digitChar n) = _
      rw [digitValueChar, Nat.pow_succ]
      ring

theorem paddedDigitsDigit (width n : Nat) : ∀ c ∈ paddedDigits width n, c.isDigit = true := by
  induction width generalizing n with
  | zero => simp [paddedDigits]
  | succ width ih =>
      intro c member
      rcases List.mem_append.mp member with before | last
      · exact ih (n / 10) c before
      · rw [List.mem_singleton.mp last]
        exact digitCharDigit n

theorem paddedDigitsLength (width n : Nat) : (paddedDigits width n).length = width := by
  induction width generalizing n with
  | zero => rfl
  | succ width ih => rw [paddedDigits, List.length_append, ih, List.length_singleton]

end Plain

section Numerals

theorem blockSizePower : blockSize = 10 ^ blockWidth := by
  have power (width : Nat) : Nat.pow 10 width = 10 ^ width := rfl
  -- unfolding would compute the power
  delta blockSize
  exact power blockWidth

theorem numeralReads (n : Nat) : numeralValue (numeral n) = n := by
  fun_induction numeral n with
  | case1 n small => exact plainDigitsValue n
  | case2 n large ih =>
      rw [numeralValue] at ih ⊢
      rw [numeralValueAppend, ih, paddedDigitsValue, ← blockSizePower, Nat.mod_mod, Nat.mul_comm]
      exact Nat.div_add_mod n blockSize

theorem numeralDigits (n : Nat) : ∀ c ∈ numeral n, c.isDigit = true := by
  fun_induction numeral n with
  | case1 n small => exact plainDigitsDigit n
  | case2 n large ih =>
      intro c member
      rcases List.mem_append.mp member with before | after
      · exact ih c before
      · exact paddedDigitsDigit _ _ c after

theorem numeralNonempty (n : Nat) : numeral n ≠ [] := by
  fun_induction numeral n with
  | case1 n small =>
      rw [plainDigits]
      split <;> simp
  | case2 n large ih => simp [ih]

theorem numeralLength {n width : Nat} (fits : n < 10 ^ (width + 1)) :
    (numeral n).length ≤ width + 1 := by
  fun_induction numeral n generalizing width with
  | case1 n small => exact plainDigitsLength n width fits
  | case2 n large ih =>
      have longer : blockWidth < width + 1 := by
        by_contra few
        have : 10 ^ (width + 1) ≤ blockSize := by
          rw [blockSizePower]
          exact Nat.pow_le_pow_right (by decide) (by omega)
        omega
      obtain ⟨more, rfl⟩ : ∃ more, width = more + blockWidth :=
        ⟨width - blockWidth, by omega⟩
      have front : n / blockSize < 10 ^ (more + 1) := by
        rw [Nat.div_lt_iff_lt_mul (Nat.lt_trans Nat.zero_lt_one blockSizeLarge), blockSizePower,
          ← Nat.pow_add]
        rwa [Nat.add_right_comm] at fits
      rw [List.length_append, paddedDigitsLength]
      have := ih front
      omega

theorem numeralShortest {digits : List Char} (filled : digits ≠ [])
    (each : ∀ c ∈ digits, c.isDigit = true) :
    (numeral (numeralValue digits)).length ≤ digits.length := by
  obtain ⟨width, length⟩ : ∃ width, digits.length = width + 1 :=
    Nat.exists_eq_succ_of_ne_zero (by simpa using filled)
  have bound := numeralValueBound each 0
  rw [Nat.zero_add, Nat.one_mul, length] at bound
  rw [length]
  exact numeralLength bound

end Numerals
end LiterateMath.Text
