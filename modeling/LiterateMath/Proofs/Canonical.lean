import Mathlib
import LiterateMath.Proofs.Numerals
import LiterateMath.Number.Arithmetic

/-! The text of an integer is its standard numeral, in however many blocks it is written. Every
block but the first stands with all its leading zeros, so the blocks in a row are the digits of
the number, and no other text without a superfluous zero or sign reads as the same integer. -/
namespace LiterateMath.Text

section Digits

theorem digitCharStandard (n : Nat) : digitChar n = (n % 10).digitChar := by
  have small : n % 10 < 10 := Nat.mod_lt n (by decide)
  rw [← Char.toNat_inj, digitCharNat, Nat.toNat_digitChar_of_lt_ten small]

theorem plainDigitsStandard (n : Nat) : plainDigits n = Nat.toDigits 10 n := by
  fun_induction plainDigits n with
  | case1 n small =>
      rw [digitCharStandard, Nat.mod_eq_of_lt small, Nat.toDigits_of_lt_base small]
  | case2 n large ih =>
      rw [ih, digitCharStandard, Nat.toDigits_of_base_le (by decide) (Nat.le_of_not_lt large)]

theorem digitsCut {front low width : Nat} (positive : 0 < front) (fits : low < 10 ^ width) :
    Nat.toDigits 10 (10 ^ width * front + low)
      = Nat.toDigits 10 front ++ paddedDigits width low := by
  induction width generalizing low with
  | zero =>
      obtain rfl : low = 0 := by simpa using fits
      simp [paddedDigits]
  | succ width ih =>
      have shorter : low / 10 < 10 ^ width := by omega
      have last : low % 10 < 10 := Nat.mod_lt low (by decide)
      have above : 0 < 10 ^ width * front + low / 10 :=
        Nat.add_pos_left (Nat.mul_pos (Nat.pow_pos (by decide)) positive) _
      have divided : 10 ^ (width + 1) * front + low
          = 10 * (10 ^ width * front + low / 10) + low % 10 := by
        rw [Nat.pow_succ, Nat.mul_add, Nat.add_assoc, Nat.div_add_mod]
        ring
      rw [divided, ← Nat.toDigits_append_toDigits (by decide) above last, ih shorter,
        Nat.toDigits_of_lt_base last, paddedDigits, digitCharStandard, List.append_assoc]

theorem paddedDigitsFilled {low width : Nat} (wide : width ≠ 0) (fits : low < 10 ^ width) :
    paddedDigits width low = (Nat.toDigits 10 low).leftpad width '0' := by
  induction width generalizing low with
  | zero => exact absurd rfl wide
  | succ width ih =>
      rw [paddedDigits, digitCharStandard]
      by_cases small : low < 10
      · rw [Nat.mod_eq_of_lt small, Nat.toDigits_of_lt_base small]
        cases width with
        | zero => rfl
        | succ width =>
            rw [ih (Nat.succ_ne_zero width) (by omega), Nat.div_eq_of_lt small, Nat.toDigits_zero]
            simp [List.leftpad, List.replicate_succ']
      · have wide : width ≠ 0 := by
          rintro rfl
          exact small (by simpa using fits)
        rw [ih wide (by omega), Nat.toDigits_of_base_le (by decide) (Nat.le_of_not_lt small)]
        simp [List.leftpad]

theorem blockSizePositive : 0 < blockSize := Nat.lt_trans Nat.zero_lt_one blockSizeLarge

theorem lowSmall (n : Nat) : n % blockSize < blockSize := Nat.mod_lt n blockSizePositive

theorem frontPositive {n : Nat} (large : ¬n < blockSize) : 0 < n / blockSize :=
  Nat.div_pos (Nat.le_of_not_lt large) blockSizePositive

theorem numeralStandard (n : Nat) : numeral n = Nat.toDigits 10 n := by
  fun_induction numeral n with
  | case1 n small => exact plainDigitsStandard n
  | case2 n large ih =>
      have low : n % blockSize < 10 ^ blockWidth := blockSizePower ▸ lowSmall n
      rw [ih, ← digitsCut (frontPositive large) low, ← blockSizePower, Nat.div_add_mod]

theorem integerStandard (n : Int) : integer n = n.repr := by
  cases n with
  | ofNat n =>
      rw [integer, natural, numeralStandard]
      rfl
  | negSucc n =>
      rw [integer, natural, numeralStandard]
      rfl

end Digits

section Blocks

/-- A number divided into blocks, the lowest first and the front of the number last. The front is
zero only if it is all there is. -/
structure Blocks (n : Nat) (lows : List Nat) (front : Nat) : Prop where
  value : Nat.ofDigits blockSize (lows ++ [front]) = n
  small : ∀ block ∈ lows ++ [front], block < blockSize
  filled : lows ≠ [] → front ≠ 0

def blockText (low : Nat) : List Char := (Nat.toDigits 10 low).leftpad blockWidth '0'

example : blockText 7 = List.replicate 999 '0' ++ ['7'] := rfl

theorem blockPadded {low : Nat} (small : low < blockSize) :
    paddedDigits blockWidth low = blockText low :=
  paddedDigitsFilled (by decide) (blockSizePower ▸ small)

theorem frontFilled {n front : Nat} {lows : List Nat} (blocks : Blocks n lows front)
    (positive : n ≠ 0) : front ≠ 0 := by
  rintro rfl
  have alone : lows = [] := by
    by_contra more
    exact blocks.filled more rfl
  exact positive (by simpa [alone] using blocks.value.symm)

theorem numeralBlocks (n : Nat) : ∃ lows front, Blocks n lows front ∧
    numeral n = Nat.toDigits 10 front ++ lows.reverse.flatMap blockText := by
  fun_induction numeral n with
  | case1 n small =>
      refine ⟨[], n, ⟨by simp, by simpa using small, by simp⟩, ?_⟩
      simp [plainDigitsStandard]
  | case2 n large ih =>
      obtain ⟨lows, front, blocks, written⟩ := ih
      refine ⟨n % blockSize :: lows, front, ⟨?_, ?_, ?_⟩, ?_⟩
      · rw [List.cons_append, Nat.ofDigits_cons, blocks.value]
        exact Nat.mod_add_div n blockSize
      · exact List.forall_mem_cons.mpr ⟨lowSmall n, blocks.small⟩
      · exact fun _ => frontFilled blocks (Nat.ne_of_gt (frontPositive large))
      · rw [written, blockPadded (lowSmall n), List.reverse_cons, List.flatMap_append,
          List.append_assoc, List.flatMap_singleton]

end Blocks

section Numerals

structure Proper (digits : List Char) : Prop where
  filled : digits ≠ []
  decimal : ∀ c ∈ digits, c.isDigit = true
  unpadded : digits.head? = some '0' → digits = ['0']

/-- How integers are written: with digits of which none is a superfluous zero, and with a sign
before them where the integer is negative. -/
inductive Denotes : List Char → Int → Prop where
  | natural {digits : List Char} (proper : Proper digits) :
      Denotes digits (numeralValue digits)
  | negative {digits : List Char} (proper : Proper digits) (nonzero : numeralValue digits ≠ 0) :
      Denotes ('-' :: digits) (-numeralValue digits)

theorem numeralProper (n : Nat) : Proper (numeral n) where
  filled := numeralNonempty n
  decimal := numeralDigits n
  unpadded leading := by
    obtain ⟨rest, digits⟩ := List.head?_eq_some_iff.mp leading
    have decimal : ∀ c ∈ rest, c.isDigit = true := fun c member =>
      numeralDigits n c (digits ▸ List.mem_cons_of_mem '0' member)
    have value : numeralValue rest = n := by
      rw [← numeralReads n, digits]
      rfl
    have alone : rest = [] := by
      by_contra filled
      have shortest := numeralShortest filled decimal
      rw [value, digits, List.length_cons] at shortest
      omega
    rw [digits, alone]

theorem digitStandard {c : Char} (digit : c.isDigit = true) : (digitValue c).digitChar = c := by
  have low : 48 ≤ c.toNat := (Char.isDigit_iff_toNat.mp digit).1
  rw [← Char.toNat_inj, Nat.toNat_digitChar_of_lt_ten (digitValueSmall digit)]
  show 48 + (c.toNat - 48) = c.toNat
  omega

theorem properNumeral {digits : List Char} (proper : Proper digits) :
    numeral (numeralValue digits) = digits := by
  -- From the last digit on, since a value grows at its low end and a zero is only barred in front.
  induction digits using List.reverseRecOn with
  | nil => exact absurd rfl proper.filled
  | append_singleton front last ih =>
      have digit : last.isDigit = true := proper.decimal last (by simp)
      have small := digitValueSmall digit
      rw [numeralStandard] at ih ⊢
      by_cases single : front = []
      · subst front
        have value : numeralValue [last] = digitValue last := Nat.zero_add (digitValue last)
        rw [List.nil_append, value, Nat.toDigits_of_lt_base small, digitStandard digit]
      · have unled : front.head? ≠ some '0' := by
          intro leading
          have zero := proper.unpadded (by rw [List.head?_append_of_ne_nil _ single, leading])
          exact single (List.eq_nil_of_length_eq_zero (by simpa using congrArg List.length zero))
        have read := ih ⟨single, fun c member => proper.decimal c (by simp [member]),
          fun leading => absurd leading unled⟩
        have positive : 0 < numeralValue front := by
          refine Nat.pos_of_ne_zero fun zero => unled ?_
          rw [← read, zero]
          rfl
        have value : numeralValue (front ++ [last]) = 10 * numeralValue front + digitValue last :=
          numeralValueAppend 0 front [last]
        rw [value, ← Nat.toDigits_append_toDigits (by decide) positive small, read,
          Nat.toDigits_of_lt_base small, digitStandard digit]

def sign (n : Int) : List Char := if n < 0 then ['-'] else []

theorem integerText (n : Int) : (integer n).toList = sign n ++ numeral n.natAbs := by
  cases n <;> simp [integer, natural, sign]

theorem integerDenotes (text : List Char) (n : Int) :
    Denotes text n ↔ text = (integer n).toList := by
  rw [integerText]
  constructor
  · rintro (⟨proper⟩ | ⟨proper, nonzero⟩)
    · rw [Int.natAbs_natCast, properNumeral proper]
      simp [sign]
    · rw [Int.natAbs_neg, Int.natAbs_natCast, properNumeral proper]
      simp [sign, Nat.pos_of_ne_zero nonzero]
  · rintro rfl
    have proper := numeralProper n.natAbs
    have value := numeralReads n.natAbs
    by_cases negative : n < 0
    · have denotes := Denotes.negative proper (by omega)
      rw [value, ← Int.eq_neg_natAbs_of_nonpos negative.le] at denotes
      simpa [sign, negative] using denotes
    · have denotes := Denotes.natural proper
      rw [value, Int.natAbs_of_nonneg (Int.not_lt.mp negative)] at denotes
      simpa [sign, negative] using denotes

end Numerals

/-- What makes a text the numeral of an integer: it is the standard one and the only one, it reads
as that integer and is the text of no other, and each of its blocks is written in full. -/
structure Canonical (n : Int) (text : String) : Prop where
  standard : text = n.repr
  only (other : List Char) : Denotes other n ↔ other = text.toList
  reads : text.toInt? = some n
  apart (m : Int) : (Number.integer m).render = .ok text ↔ m = n
  blocks : ∃ lows front, Blocks n.natAbs lows front ∧
    (∀ low ∈ lows, (blockText low).length = blockWidth) ∧
    text.toList = sign n ++ (Nat.toDigits 10 front ++ lows.reverse.flatMap blockText)

theorem integerCanonical (n : Int) : Canonical n (integer n) where
  standard := integerStandard n
  only other := integerDenotes other n
  reads := by rw [integerStandard, Int.toInt?_repr]
  apart m := by
    have rendered : (Number.integer m).render = .ok (integer m) := rfl
    rw [rendered, Except.ok.injEq, integerStandard, integerStandard, Int.repr_inj]
  blocks := by
    obtain ⟨lows, front, blocks, written⟩ := numeralBlocks n.natAbs
    refine ⟨lows, front, blocks, fun low member => ?_, by rw [integerText, written]⟩
    have small : low < blockSize := blocks.small low (List.mem_append_left [front] member)
    rw [← blockPadded small, paddedDigitsLength]

end LiterateMath.Text
