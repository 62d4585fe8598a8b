import LiterateMath.Number.Arithmetic
import LiterateMath.Proofs.Rounding

/-! Integers made real. One that is as far from zero as halfway from the largest real to the next
power of two, or farther, has no real next to it, and is refused. -/
namespace LiterateMath.Real

open Float.Model Float.Model.UnpackedFloat

section Naturals

theorem log2Shifted {m : Nat} (positive : m ≠ 0) (k : Nat) : (m * 2 ^ k).log2 = m.log2 + k := by
  rw [Nat.log2_eq_iff (Nat.mul_ne_zero positive (Nat.two_pow_pos k).ne')]
  have lower := Nat.mul_le_mul_right (2 ^ k) (Nat.log2_self_le positive)
  have upper := Nat.mul_lt_mul_of_pos_right (Nat.lt_log2_self (n := m)) (Nat.two_pow_pos k)
  rw [← Nat.pow_add] at lower upper
  exact ⟨lower, upper.trans_eq (congrArg _ (by omega))⟩

/-- `m * 2 ^ e` is as near to the number as any other with that exponent, and `m` even where
another is as near. -/
def Near (n m : Nat) (e : Int) : Prop :=
  |(n : ℚ) - m * 2 ^ e| ≤ 2 ^ e / 2 ∧ (|(n : ℚ) - m * 2 ^ e| = 2 ^ e / 2 → m % 2 = 0)

theorem nearRounded {n m k : Nat} {e : Int} (value : (m : ℚ) * 2 ^ e = n) :
    Near n (roundedAt m k) (e + k) := by
  obtain ⟨below, above, even⟩ := roundedAtNearest m k
  have unit : (0 : ℚ) < 2 ^ e := zpow_pos (by norm_num) e
  have scaled : (2 : ℚ) ^ (e + k) = 2 ^ k * 2 ^ e := by
    rw [zpow_add₀ (by norm_num), zpow_natCast, mul_comm]
  have apart : (n : ℚ) - roundedAt m k * 2 ^ (e + k)
      = ((m : ℚ) - roundedAt m k * 2 ^ k) * 2 ^ e := by
    rw [← value, scaled]
    ring
  have size : |(n : ℚ) - roundedAt m k * 2 ^ (e + k)|
      = |(m : ℚ) - roundedAt m k * 2 ^ k| * 2 ^ e := by rw [apart, abs_mul, abs_of_pos unit]
  rw [Near, size, scaled, mul_div_right_comm]
  generalize roundedAt m k = r at below above even
  have below' : (2 : ℚ) * m ≤ 2 * (r * 2 ^ k) + 2 ^ k := by exact_mod_cast below
  have above' : (2 : ℚ) * (r * 2 ^ k) ≤ 2 * m + 2 ^ k := by exact_mod_cast above
  refine ⟨mul_le_mul_of_nonneg_right (abs_le.mpr ⟨by linarith, by linarith⟩) unit.le, ?_⟩
  intro tie
  by_contra odd
  obtain ⟨high, low⟩ := even (Nat.mod_two_ne_zero.mp odd)
  obtain up | down := (abs_eq (by positivity)).mp (mul_right_cancel₀ unit.ne' tie)
  · exact high (by exact_mod_cast (by linarith : (2 : ℚ) * m = 2 * (r * 2 ^ k) + 2 ^ k))
  · exact low (by exact_mod_cast (by linarith : (2 : ℚ) * (r * 2 ^ k) = 2 * m + 2 ^ k))

theorem nearCarried {n : Nat} {e : Int} (near : Near n (2 ^ 53) e) :
    Near n (2 ^ 52) (e + 1) := by
  have unit : (0 : ℚ) < 2 ^ e := zpow_pos (by norm_num) e
  have next : (2 : ℚ) ^ (e + 1) = 2 ^ e * 2 := zpow_add_one₀ (by norm_num) e
  have same : ((2 ^ 52 : Nat) : ℚ) * 2 ^ (e + 1) = (2 ^ 53 : Nat) * 2 ^ e := by
    rw [next]
    push_cast
    ring
  refine ⟨?_, fun _ => rfl⟩
  rw [same, next]
  exact near.1.trans (by linarith)

theorem tooLargeByPlaces {m places : Nat} (lower : 2 ^ places ≤ m) (upper : m < 2 ^ (places + 1)) :
    (2 ^ 54 - 1) * 2 ^ 970 ≤ m ↔
      1024 ≤ places ∨ places = 1023 ∧ (2 ^ 54 - 1) * 2 ^ places ≤ m * 2 ^ 53 := by
  have last : 2 ^ 1023 = 2 ^ 53 * 2 ^ 970 := by rw [← Nat.pow_add]
  have next : 2 ^ 1024 = 2 ^ 54 * 2 ^ 970 := by rw [← Nat.pow_add]
  generalize 2 ^ 970 = unit at last next ⊢
  by_cases beyond : 1024 ≤ places
  · have := Nat.pow_le_pow_right (n := 2) (by decide) beyond
    omega
  · by_cases top : places = 1023
    · subst top
      omega
    · have := Nat.pow_le_pow_right (n := 2) (by decide) (by omega : places + 1 ≤ 1023)
      omega

theorem ofScientificWhole {m : Nat} (positive : m ≠ 0) :
    UnpackedFloat.ofScientific binary64 m 0
      = roundWithAccuracy binary64 .positive (m * 2 ^ 53) (-53) .exact := by
  have few : ¬(0 : Int) < -((2 ^ 11 : Int) + m.log2) := by omega
  rw [UnpackedFloat.ofScientific, dif_neg positive, if_neg (by decide), if_neg few,
    if_pos (by decide)]
  change roundWithAccuracy binary64 .positive (m <<< 53 * 1) (-53) .exact = _
  rw [Nat.shiftLeft_eq, Nat.mul_one]

theorem roundFilled {s : Sign} {m : Nat} {e : Int} (filled : 52 ≤ m.log2)
    (places : 0 ≤ m.log2 + e) :
    ∃ r x positive, roundWithAccuracy binary64 s m e .exact = .finite s r x positive ∧
      2 ^ 52 ≤ r ∧ r < 2 ^ 53 ∧ -52 ≤ x ∧
      (972 ≤ x ↔ 1024 ≤ m.log2 + e ∨
        m.log2 + e = 1023 ∧ roundedAt m (m.log2 - 52) = 2 ^ 53) ∧
      ∀ n : Nat, (m : ℚ) * 2 ^ e = n → Near n r x := by
  have positive : m ≠ 0 := by
    rintro rfl
    simp at filled
  have shift : (max (m.log2 + e - 52) (-1074) - e).toNat = m.log2 - 52 := by omega
  have exponent : e + (m.log2 - 52 : Nat) = m.log2 + e - 52 := by omega
  have all : 52 + (m.log2 - 52) = m.log2 := by omega
  have lower : 2 ^ 52 ≤ roundedAt m (m.log2 - 52) :=
    roundedAtLower (by rw [all]; exact Nat.log2_self_le positive)
  have upper : roundedAt m (m.log2 - 52) ≤ 2 ^ 53 := roundedAtWithin (shortEnough all.ge)
  have near (n : Nat) (value : (m : ℚ) * 2 ^ e = n) := nearRounded (k := m.log2 - 52) value
  have shape := roundShape s m e
  rw [shift] at shape
  dsimp only at shape
  rw [dif_neg (by omega)] at shape
  rw [exponent] at near
  by_cases carries : roundedAt m (m.log2 - 52) = 2 ^ 53
  · rw [if_pos carries] at shape
    refine ⟨_, _, _, shape, by decide, by decide, by omega, by omega, fun n value => ?_⟩
    rw [exponent]
    exact nearCarried (carries ▸ near n value)
  · rw [if_neg carries] at shape
    refine ⟨_, _, _, shape, lower, by omega, by omega, by omega, fun n value => ?_⟩
    rw [exponent]
    exact near n value

theorem ofNatUnpacked {m : Nat} (positive : m ≠ 0) (small : m < 2 ^ 53) :
    ∃ filled, (Float.Model.ofNat m).unpack
      = .finite .positive (m * 2 ^ (52 - m.log2)) (m.log2 - 52) filled := by
  have places : m.log2 < 53 := (Nat.log2_lt positive).mpr small
  have whole : (m * 2 ^ (52 - m.log2)).log2 = 52 := by
    rw [log2Shifted positive]
    omega
  generalize more : m * 2 ^ (52 - m.log2) = M at whole ⊢
  have some : M ≠ 0 := by
    rintro rfl
    simp at whole
  obtain ⟨lower, upper⟩ := (Nat.log2_eq_iff some).mp whole
  have made : UnpackedFloat.ofNat binary64 m
      = roundWithAccuracy binary64 .positive M (m.log2 - 52) .exact := by
    have positive' : compare (m : Int) 0 = .gt := Int.compare_eq_gt.mpr (by omega)
    have target := targetPlaces m 0
    have room : (0 - max ((m.log2 : Int) + 0 - 52) (-1074)).toNat = 52 - m.log2 := by omega
    rw [UnpackedFloat.ofNat, UnpackedFloat.ofInt, UnpackedFloat.normalize, positive']
    dsimp only
    rw [UnpackedFloat.round, Int.toNat_natCast, target, decreaseExponent, room]
    dsimp only
    rw [Nat.shiftLeft_eq, more]
    congr 1
    omega
  have none : (max ((52 : Nat) + (m.log2 - 52 : Int) - 52) (-1074) - (m.log2 - 52)).toNat = 0 := by
    omega
  have shape := roundShape .positive M (m.log2 - 52)
  rw [whole, none] at shape
  dsimp only at shape
  rw [roundedAtNone, dif_neg some, if_neg upper.ne, Int.natCast_zero, Int.add_zero] at shape
  refine ⟨Nat.pos_of_ne_zero some, ?_⟩
  rw [Float.Model.ofNat, made, shape]
  exact unpackPacked _ _ lower upper (by omega) (by omega)

theorem oneUnpacked : (Float.Model.ofBits 0x3FF0000000000000).unpack
    = .finite .positive (2 ^ 52) (-52) (by decide) := by
  have bits : UnpackedFloat.unpack binary64 0x3FF0000000000000#64
      = .finite .positive (2 ^ 52) (-52) (by decide) := by rfl
  change (Float.Model.pack (UnpackedFloat.unpack binary64 0x3FF0000000000000#64)).unpack = _
  rw [bits]
  exact unpackPacked _ _ (by decide) (by decide) (by decide) (by decide)

theorem ofScientificSmall {m : Nat} (positive : m ≠ 0) (small : m < 2 ^ 53) :
    (Float.ofScientific m false 0).toModel
      = Float.Model.pack (roundWithAccuracy binary64 .positive
          (m * 2 ^ (52 - m.log2) * 2 ^ 52) (m.log2 - 52 + -52) .exact) := by
  obtain ⟨filled, whole⟩ := ofNatUnpacked positive small
  have number : (UInt64.ofNat m).toNat = m := UInt64.toNat_ofNat_of_lt (small.trans (by decide))
  rw [Float.ofScientific, dif_pos ⟨small, by decide⟩]
  change Float.Model.pack (UnpackedFloat.mul binary64
    (Float.Model.ofNat (UInt64.ofNat m).toNat).unpack
    (Float.Model.ofBits 0x3FF0000000000000).unpack) = _
  rw [number, whole, oneUnpacked]
  rfl

theorem ofScientificLarge {m : Nat} (large : 2 ^ 53 ≤ m) :
    (Float.ofScientific m false 0).toModel
      = Float.Model.pack (roundWithAccuracy binary64 .positive (m * 2 ^ 53) (-53) .exact) := by
  rw [Float.ofScientific, dif_neg (by omega), ← ofScientificWhole (by omega)]
  rfl

theorem valueShifted {m k : Nat} {e : Int} (back : e = -k) :
    ((m * 2 ^ k : Nat) : ℚ) * 2 ^ e = m := by
  rw [back, zpow_neg, zpow_natCast]
  push_cast
  exact mul_inv_cancel_right₀ (by positivity) _

/-- A whole number made real has 53 places and is next to the number, but for its exponent, which
is too large where the number is. -/
theorem ofScientificNear {m : Nat} (positive : m ≠ 0) :
    ∃ r x filled, (Float.ofScientific m false 0).toModel
        = Float.Model.pack (.finite .positive r x filled) ∧
      2 ^ 52 ≤ r ∧ r < 2 ^ 53 ∧ -52 ≤ x ∧ (972 ≤ x ↔ (2 ^ 54 - 1) * 2 ^ 970 ≤ m) ∧
      Near m r x := by
  by_cases small : m < 2 ^ 53
  · have places : m.log2 < 53 := (Nat.log2_lt positive).mpr small
    have joined : m * 2 ^ (52 - m.log2) * 2 ^ 52 = m * 2 ^ (52 - m.log2 + 52) := by
      rw [Nat.mul_assoc, ← Nat.pow_add]
    have filled := log2Shifted positive (52 - m.log2 + 52)
    have within : m < (2 ^ 54 - 1) * 2 ^ 970 := by
      have unit : 0 < 2 ^ 970 := by positivity
      generalize 2 ^ 970 = k at unit ⊢
      omega
    have model := ofScientificSmall positive small
    rw [joined] at model
    obtain ⟨r, x, some, rounded, lower, upper, least, beyond, near⟩ :=
      @roundFilled .positive (m * 2 ^ (52 - m.log2 + 52)) (m.log2 - 52 + -52) (by omega) (by omega)
    rw [rounded] at model
    refine ⟨r, x, some, model, lower, upper, least, ?_, near m (valueShifted (by omega))⟩
    omega
  · have large : 2 ^ 53 ≤ m := Nat.le_of_not_lt small
    have filled := log2Shifted positive 53
    have wide : 52 ≤ m.log2 := (Nat.le_log2 positive).mpr (by omega)
    have upper := Nat.lt_log2_self (n := m)
    have fits : m * 2 ^ 53 < 2 ^ (53 + (m.log2 + 1)) := by
      rw [Nat.pow_add, Nat.mul_comm]
      exact Nat.mul_lt_mul_of_pos_left upper (by decide)
    have top := roundedAtTop fits
    have model := ofScientificLarge large
    obtain ⟨r, x, some, rounded, lower, upper', least, beyond, near⟩ :=
      @roundFilled .positive (m * 2 ^ 53) (-53) (by omega) (by omega)
    rw [rounded] at model
    rw [filled, show m.log2 + 53 - 52 = m.log2 + 1 by omega, top] at beyond
    refine ⟨r, x, some, model, lower, upper', least, ?_, near m (valueShifted rfl)⟩
    rw [beyond, tooLargeByPlaces (Nat.log2_self_le positive) upper]
    omega

end Naturals

section Integers

theorem negInfinite {v : Float.Model} (infinite : v.isInf = true) : (-v).isInf = true := by
  change (Float.Model.pack v.unpack.neg).isInf = true
  change v.unpack.isInf = true at infinite
  cases found : v.unpack with
  | infinity s =>
      rw [UnpackedFloat.neg, unpackInfinite]
      exact ⟨unpackExponent_packComponents, unpackMantissa_packComponents⟩
  | notANumber | zero | finite =>
      rw [found] at infinite
      cases infinite

/-- Zero, or a real of the same sign with 53 places that is as near to the integer as any. -/
inductive NextTo (n : Int) : UnpackedFloat → Prop where
  | zero (none : n = 0) : NextTo n (.zero .positive)
  | finite {m : Nat} {e : Int} (some : n ≠ 0) (positive : 0 < m) (lower : 2 ^ 52 ≤ m)
      (upper : m < 2 ^ 53) (near : Near n.natAbs m e) :
      NextTo n (.finite (if n < 0 then .negative else .positive) m e positive)

theorem ofIntegerStandard (n : Int) : ofInteger n = Float.ofInt n := by
  rw [ofInteger]
  cases n with
  | ofNat m =>
      have natural : ¬Int.ofNat m < 0 := Int.not_lt.mpr (Int.natCast_nonneg m)
      rw [if_neg natural]
      rfl
  | negSucc m =>
      rw [if_pos (Int.negSucc_lt_zero m)]
      rfl

/-- Halfway from the largest real to the power of two that comes next, `2 ^ 1024`. -/
def beyond : Nat := (2 ^ 54 - 1) * 2 ^ 970

theorem beyondPositive : 0 < beyond := by
  unfold beyond
  positivity

theorem ofIntegerNext {n : Int} (within : n.natAbs < beyond) :
    NextTo n (ofInteger n).toModel.unpack := by
  by_cases some : n = 0
  · subst some
    have zero : (ofInteger 0).toModel.unpack = .zero .positive := by rfl
    rw [zero]
    exact .zero rfl
  · obtain ⟨r, x, positive, model, lower, upper, least, beyond, near⟩ :=
      ofScientificNear (Int.natAbs_ne_zero.mpr some)
    have finite : x < 972 := by
      rw [← Int.not_le, beyond]
      exact Nat.not_le.mpr within
    have unpacked := unpackPacked .positive positive lower upper (by omega) finite
    have next := NextTo.finite some positive lower upper near
    rw [ofInteger]
    by_cases negative : n < 0
    · rw [if_pos negative] at next ⊢
      change NextTo n
        (Float.Model.pack (Float.ofScientific n.natAbs false 0).toModel.unpack.neg).unpack
      rw [model, unpacked, UnpackedFloat.neg]
      change NextTo n (Float.Model.pack (.finite .negative r x positive)).unpack
      rwa [unpackPacked .negative positive lower upper (by omega) finite]
    · rw [if_neg negative] at next ⊢
      rwa [model, unpacked]

theorem ofIntegerInfinite {n : Int} (beyond : beyond ≤ n.natAbs) :
    (ofInteger n).isInf = true := by
  have some : n.natAbs ≠ 0 := by
    intro none
    rw [none] at beyond
    exact absurd beyondPositive (Nat.not_lt.mpr beyond)
  obtain ⟨r, x, positive, model, -, -, -, large, -⟩ := ofScientificNear some
  have infinite : (Float.ofScientific n.natAbs false 0).toModel.isInf = true := by
    rw [model, packInfinite]
    exact large.mpr beyond
  rw [ofInteger]
  split
  · exact negInfinite infinite
  · exact infinite

theorem promotionNext (n : Int) :
    (n.natAbs < beyond → Number.toReal (.integer n) = .ok (Float.ofInt n) ∧
      NextTo n (Float.ofInt n).toModel.unpack) ∧
    (beyond ≤ n.natAbs → Number.toReal (.integer n)
      = .error (.mismatch (.integerTooLarge (Text.digitCount n.natAbs)))) := by
  rw [← ofIntegerStandard]
  refine ⟨fun within => ?_, fun beyond => ?_⟩
  · have next := ofIntegerNext within
    have finite : (ofInteger n).isInf = false := by
      change (ofInteger n).toModel.unpack.isInf = false
      generalize (ofInteger n).toModel.unpack = x at next
      cases next <;> rfl
    refine ⟨?_, next⟩
    rw [Number.toReal, if_neg (by simp [finite])]
  · rw [Number.toReal, if_pos (ofIntegerInfinite beyond)]

end Integers

end LiterateMath.Real
