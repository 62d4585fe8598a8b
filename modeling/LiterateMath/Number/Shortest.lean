import LiterateMath.Text.Numeral

/-! The shortest decimal that stands for a binary number. A real in memory is a whole number
times a power of two, and stands for all the reals that are nearer to it than to its
neighbours. Its decimal is the one with the fewest digits among those, and of these the
nearest. All comparisons are between whole numbers. -/
namespace LiterateMath

/-- The number `significand * 2 ^ exponent`. It is at an edge when the numbers below it lie
twice as close together as those above it. -/
structure Binary where
  significand : Nat
  exponent : Int
  edge : Bool
  deriving DecidableEq, Repr

structure Decimal where
  digits : Nat
  exponent : Int
  deriving DecidableEq, Repr

def Binary.ofBits (bits : UInt64) : Binary :=
  let fraction := bits.toNat % Nat.pow 2 52
  let biased := bits.toNat / Nat.pow 2 52 % Nat.pow 2 11
  if biased = 0 then ⟨fraction, -1074, false⟩
  else ⟨Nat.pow 2 52 + fraction, (biased : Int) - 1075, fraction = 0 && 1 < biased⟩

/-- A number and the ends of the interval that it stands for, as fractions with one
denominator. The ends belong to the interval when the significand is even. -/
structure Interval where
  low : Nat
  mid : Nat
  high : Nat
  denominator : Nat
  closed : Bool

def Binary.interval (b : Binary) : Interval :=
  let up := Nat.pow 2 b.exponent.toNat
  let quarters := 4 * b.significand * up
  { low := quarters - (if b.edge then up else 2 * up)
    mid := quarters
    high := quarters + 2 * up
    denominator := 4 * Nat.pow 2 (-b.exponent).toNat
    closed := b.significand % 2 = 0 }

namespace Interval

def scale (i : Interval) (exponent : Int) (numerator : Nat) : Nat × Nat :=
  (numerator * Nat.pow 10 (-exponent).toNat, i.denominator * Nat.pow 10 exponent.toNat)

def holds (i : Interval) (exponent : Int) (digits : Nat) : Bool :=
  let low := i.scale exponent i.low
  let high := i.scale exponent i.high
  if i.closed then low.1 ≤ digits * low.2 && digits * high.2 ≤ high.1
  else low.1 < digits * low.2 && digits * high.2 < high.1

/-- Of the two neighbours of the number on the grid of multiples of `10 ^ exponent`, the one to
take: the one in the interval; if both are, the nearer one, and the even one of a tie. -/
def onGrid? (i : Interval) (exponent : Int) : Option Decimal :=
  let mid := i.scale exponent i.mid
  let below := mid.1 / mid.2
  match i.holds exponent below, i.holds exponent (below + 1) with
  | false, false => none
  | true, false => some ⟨below, exponent⟩
  | false, true => some ⟨below + 1, exponent⟩
  | true, true =>
      let twice := 2 * mid.1
      let half := (2 * below + 1) * mid.2
      if twice < half || (twice = half && below % 2 = 0) then some ⟨below, exponent⟩
      else some ⟨below + 1, exponent⟩

def leadingPower (i : Interval) : Int :=
  if i.denominator ≤ i.mid then (Text.digitCount (i.mid / i.denominator) : Int) - 1
  else -(Text.digitCount ((i.denominator + i.mid - 1) / i.mid - 1) : Int)

/-- The first grid that has a point in the interval, from one digit on. Seventeen digits always
suffice. -/
def shortest (i : Interval) : Decimal :=
  let lead := i.leadingPower
  ((List.range 17).findSome? fun (more : Nat) => i.onGrid? (lead - more)).getD ⟨0, 0⟩

end Interval

def Binary.shortest (b : Binary) : Decimal := b.interval.shortest

end LiterateMath
