import Mathlib

/-! Rounding to a real: how many places stay, and which of the reals on either side is taken. -/
namespace LiterateMath.Real

open Float.Model Float.Model.UnpackedFloat

section Rounding

def wholeMantissa (m : Nat) : ExtendedMantissa := ⟨m, false, false⟩

theorem shiftedWhole (m k : Nat) :
    wholeMantissa m >>> (k + 1) = ⟨m / 2 ^ (k + 1), m / 2 ^ k % 2 != 0, m % 2 ^ k != 0⟩ := by
  induction k with
  | zero =>
      change ExtendedMantissa.mk (m / 2) (m % 2 != 0) false = _
      simp [Nat.mod_one]
  | succ k ih =>
      change (wholeMantissa m >>> (k + 1)).shiftRightOne = _
      have below : (m / 2 ^ k % 2 != 0 || m % 2 ^ k != 0) = (m % 2 ^ (k + 1) != 0) := by
        rw [Nat.mod_pow_succ, Bool.eq_iff_iff]
        simp [or_comm, imp_iff_not_or]
      rw [ih, ExtendedMantissa.shiftRightOne, below, Nat.div_div_eq_div_mul, ← Nat.pow_succ]

theorem roundedBits (m : Nat) (half rest : Bool) :
    (ExtendedMantissa.mk m half rest).roundedMantissa
      = if half = false then m else if rest = false then m + m % 2 else m + 1 := by
  cases half <;> cases rest <;> rfl

def roundedAt (m k : Nat) : Nat := (wholeMantissa m >>> k).roundedMantissa

theorem roundedAtNone (m : Nat) : roundedAt m 0 = m := rfl

theorem roundedAtMore (m k : Nat) :
    roundedAt m (k + 1)
      = if m / 2 ^ k % 2 = 0 then m / 2 ^ k / 2
        else if m % 2 ^ k = 0 then m / 2 ^ k / 2 + m / 2 ^ k / 2 % 2
        else m / 2 ^ k / 2 + 1 := by
  have halves : m / 2 ^ (k + 1) = m / 2 ^ k / 2 := by rw [Nat.div_div_eq_div_mul, Nat.pow_succ]
  rw [roundedAt, shiftedWhole, halves, roundedBits]
  simp only [bne_eq_false_iff_eq]

variable {m k : Nat}

theorem roundedAtNearest (m k : Nat) :
    2 * m ≤ 2 * (roundedAt m k * 2 ^ k) + 2 ^ k ∧ 2 * (roundedAt m k * 2 ^ k) ≤ 2 * m + 2 ^ k ∧
      (roundedAt m k % 2 = 1 → 2 * m ≠ 2 * (roundedAt m k * 2 ^ k) + 2 ^ k ∧
        2 * (roundedAt m k * 2 ^ k) ≠ 2 * m + 2 ^ k) := by
  cases k with
  | zero =>
      rw [roundedAtNone]
      omega
  | succ k =>
      have parts := Nat.div_add_mod m (2 ^ k)
      have below := Nat.mod_lt m (Nat.two_pow_pos k)
      have more := roundedAtMore m k
      generalize roundedAt m (k + 1) = r at more ⊢
      generalize m / 2 ^ k = q at parts more
      generalize m % 2 ^ k = rest at parts below more
      rw [Nat.pow_succ]
      generalize 2 ^ k = unit at parts below ⊢
      have cut : unit * q = 2 * (unit * (q / 2)) + unit * (q % 2) := by
        conv_lhs => rw [← Nat.div_add_mod q 2]
        ring
      have stay : q / 2 * (unit * 2) = 2 * (unit * (q / 2)) := by ring
      have up : (q / 2 + 1) * (unit * 2) = 2 * (unit * (q / 2)) + 2 * unit := by ring
      obtain low | high := Nat.mod_two_eq_zero_or_one q
      · rw [low, Nat.mul_zero] at cut
        rw [more, if_pos low, stay]
        omega
      · rw [high, Nat.mul_one] at cut
        rw [if_neg (by omega)] at more
        by_cases exactly : rest = 0
        · rw [if_pos exactly] at more
          obtain even | odd := Nat.mod_two_eq_zero_or_one (q / 2)
          · rw [even, Nat.add_zero] at more
            rw [more, stay]
            omega
          · rw [odd] at more
            rw [more, up]
            omega
        · rw [more, if_neg exactly, up]
          omega

theorem cutShort (fits : m < 2 ^ (53 + (k + 1))) : m / 2 ^ k < 2 ^ 54 := by
  rw [Nat.div_lt_iff_lt_mul (Nat.two_pow_pos k), ← Nat.pow_add]
  exact fits.trans_eq (congrArg _ (by omega))

theorem roundedAtWithin (fits : m < 2 ^ (53 + k)) : roundedAt m k ≤ 2 ^ 53 := by
  cases k with
  | zero => exact fits.le
  | succ k =>
      have short := cutShort fits
      rw [roundedAtMore]
      split_ifs <;> omega

theorem roundedAtTop (fits : m < 2 ^ (53 + (k + 1))) :
    roundedAt m (k + 1) = 2 ^ 53 ↔ (2 ^ 54 - 1) * 2 ^ k ≤ m := by
  have short := cutShort fits
  rw [← Nat.le_div_iff_mul_le (Nat.two_pow_pos k), roundedAtMore]
  split_ifs <;> omega

theorem roundedAtLower (filled : 2 ^ (52 + k) ≤ m) : 2 ^ 52 ≤ roundedAt m k := by
  cases k with
  | zero => exact filled
  | succ k =>
      have left : 2 ^ 53 ≤ m / 2 ^ k := by
        rw [Nat.le_div_iff_mul_le (Nat.two_pow_pos k), ← Nat.pow_add]
        exact (congrArg _ (by omega : 53 + k = 52 + (k + 1))).trans_le filled
      rw [roundedAtMore]
      split_ifs <;> omega

end Rounding

section Formats

abbrev binary64 : Format := Format.binary64

theorem targetPlaces (m : Nat) (e : Int) :
    binary64.targetExponent (totalExponent m e) = max (m.log2 + e - 52) (-1074) := by
  change max ((m.log2 : Int) + 1 + e - 53) (-1074) = _
  omega

theorem shiftExactly (m : Nat) (e : Int) :
    shiftToTargetExponent binary64 m e .exact
      = (wholeMantissa m >>> (max (m.log2 + e - 52) (-1074) - e).toNat,
          e + (max (m.log2 + e - 52) (-1074) - e).toNat) := by
  rw [← targetPlaces]
  rfl

theorem shortEnough {m k : Nat} (short : m.log2 ≤ 52 + k) : m < 2 ^ (53 + k) :=
  Nat.lt_log2_self.trans_le (Nat.pow_le_pow_right (by decide) (by omega))

theorem shiftRounded {r : Nat} {e : Int} (within : r ≤ 2 ^ 53) (lowest : -1074 ≤ e) :
    shiftToTargetExponent binary64 r e .exact
      = if r = 2 ^ 53 then (wholeMantissa (2 ^ 52), e + 1) else (wholeMantissa r, e) := by
  rw [shiftExactly]
  by_cases carries : r = 2 ^ 53
  · have one : (max ((2 ^ 53).log2 + e - 52) (-1074) - e).toNat = 1 := by
      rw [Nat.log2_two_pow]
      omega
    rw [if_pos carries, carries, one]
    rfl
  · have short : r.log2 ≤ 52 := by
      by_cases zero : r = 0
      · simp [zero]
      · have := (Nat.log2_lt zero).mpr (lt_of_le_of_ne within carries)
        omega
    have none : (max (r.log2 + e - 52) (-1074) - e).toNat = 0 := by omega
    rw [if_neg carries, none]
    exact Prod.ext rfl (Int.add_zero _)

theorem roundTwice {s : Sign} {m r : Nat} {e x y : Int} {em : ExtendedMantissa}
    (first : shiftToTargetExponent binary64 m e .exact = (em, x))
    (second : shiftToTargetExponent binary64 em.roundedMantissa x .exact = (wholeMantissa r, y)) :
    roundWithAccuracy binary64 s m e .exact
      = if zero : r = 0 then .zero s else .finite s r y (Nat.pos_of_ne_zero zero) := by
  rw [roundWithAccuracy, first]
  dsimp only
  rw [second]
  rfl

theorem roundShape (s : Sign) (m : Nat) (e : Int) :
    let k := (max (m.log2 + e - 52) (-1074) - e).toNat
    roundWithAccuracy binary64 s m e .exact
      = if zero : roundedAt m k = 0 then .zero s
        else if roundedAt m k = 2 ^ 53 then .finite s (2 ^ 52) (e + k + 1) (by decide)
        else .finite s (roundedAt m k) (e + k) (Nat.pos_of_ne_zero zero) := by
  intro k
  have lowest : -1074 ≤ e + k := by omega
  have within : roundedAt m k ≤ 2 ^ 53 := roundedAtWithin (shortEnough (by omega))
  have first : shiftToTargetExponent binary64 m e .exact = (wholeMantissa m >>> k, e + k) :=
    shiftExactly m e
  have second := shiftRounded within lowest
  by_cases carries : roundedAt m k = 2 ^ 53
  · rw [if_pos carries] at second
    rw [roundTwice first second, dif_neg (by decide), dif_neg (by rw [carries]; decide),
      if_pos carries]
  · rw [if_neg carries] at second
    rw [roundTwice first second]
    simp only [if_neg carries]

theorem unpackInfinite (v : Float.Model) :
    v.isInf = true ↔ @unpackExponent binary64 v.toBits.toBitVec = -1 ∧
      @unpackMantissa binary64 v.toBits.toBitVec = 0 := by
  unfold Float.Model.isInf Float.Model.unpack UnpackedFloat.unpack
  dsimp only
  split_ifs <;> simp_all [UnpackedFloat.isInf]

theorem packFinite (s : Sign) {m : Nat} (e : Int) (positive : 0 < m) :
    UnpackedFloat.pack binary64 (.finite s m e positive)
      = if 972 ≤ e then packedInfinity binary64 s
        else if m.log2 + 1 = 53 then
          packComponents binary64 s (.ofNat 11 (e + 1023 + 52).toNat) (.ofNat 52 m)
        else packComponents binary64 s 0 (.ofNat 52 m) := by
  have large : 2048 ≤ (e + 1023 + 52).toNat + 1 ↔ 972 ≤ e := by omega
  change (if 2048 ≤ (e + 1023 + 52).toNat + 1 then packedInfinity binary64 s
    else if m.log2 + 1 = 53 then
      packComponents binary64 s (.ofNat 11 (e + 1023 + 52).toNat) (.ofNat 52 m)
    else packComponents binary64 s 0 (.ofNat 52 m)) = _
  simp only [large]

theorem packInfinite (s : Sign) {m : Nat} (e : Int) (positive : 0 < m) :
    (Float.Model.pack (.finite s m e positive)).isInf = true ↔ 972 ≤ e := by
  rw [unpackInfinite]
  change unpackExponent (UnpackedFloat.pack binary64 (.finite s m e positive)) = -1 ∧
    unpackMantissa (UnpackedFloat.pack binary64 (.finite s m e positive)) = 0 ↔ _
  rw [packFinite]
  by_cases beyond : 972 ≤ e
  · rw [if_pos beyond, packedInfinity, unpackExponent_packComponents,
      unpackMantissa_packComponents]
    simp [beyond]
  · rw [if_neg beyond]
    refine iff_of_false (fun ⟨exponent, _⟩ => ?_) beyond
    split at exponent
    · rw [unpackExponent_packComponents] at exponent
      have places := congrArg BitVec.toNat exponent
      change (e + 1023 + 52).toNat % 2048 = 2047 at places
      omega
    · rw [unpackExponent_packComponents] at exponent
      exact absurd exponent (by decide)

theorem unpackPacked (s : Sign) {m : Nat} {e : Int} (positive : 0 < m) (lower : 2 ^ 52 ≤ m)
    (upper : m < 2 ^ 53) (small : -1074 ≤ e) (large : e < 972) :
    (Float.Model.pack (.finite s m e positive)).unpack = .finite s m e positive := by
  have filled : m.log2 = 52 := (Nat.log2_eq_iff positive.ne').mpr ⟨lower, upper⟩
  have places : (BitVec.ofNat 11 (e + 1023 + 52).toNat).toNat = (e + 1023 + 52).toNat := by
    rw [BitVec.toNat_ofNat]
    omega
  have finite : BitVec.ofNat 11 (e + 1023 + 52).toNat ≠ -1#11 := fun same => by
    rw [same] at places
    change 2047 = _ at places
    omega
  have normal : BitVec.ofNat 11 (e + 1023 + 52).toNat ≠ 0#11 := fun same => by
    rw [same] at places
    change 0 = _ at places
    omega
  have mantissa : (1#1 ++ BitVec.ofNat 52 m).toNat = m := by
    rw [BitVec.toNat_append, ← Nat.shiftLeft_add_eq_or_of_lt (BitVec.isLt _), BitVec.toNat_ofNat]
    change 2 ^ 52 + m % 2 ^ 52 = m
    omega
  change UnpackedFloat.unpack binary64 (UnpackedFloat.pack binary64 (.finite s m e positive)) = _
  rw [packFinite, if_neg (by omega), if_pos (by omega), UnpackedFloat.unpack]
  simp only [unpackExponent_packComponents, unpackMantissa_packComponents,
    unpackSign_packComponents, Sign.ofBitVec_toBitVec, finite, normal, if_false, places, mantissa]
  congr 1
  change ((e + 1023 + 52).toNat : Int) - (1023 + 52) = e
  omega

end Formats

end LiterateMath.Real
