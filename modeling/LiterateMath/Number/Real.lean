import LiterateMath.Number.Shortest

/-! Reals as text: written with the fewest digits that read back as the same number, and read
from a whole part and a fraction. -/
namespace LiterateMath.Real

structure Style where
  leastPlain : Int
  plainBelow : Int
  exponentWidth : Nat

def style : Style := ⟨-4, 16, 2⟩

def plain (digits : List Char) (power : Int) : List Char :=
  if power < 0 then
    '0' :: '.' :: List.replicate (-power - 1).toNat '0' ++ digits
  else
    let whole := power.toNat + 1
    if digits.length ≤ whole then
      digits ++ List.replicate (whole - digits.length) '0' ++ ['.', '0']
    else digits.take whole ++ '.' :: digits.drop whole

def withExponent (s : Style) (digits : List Char) (power : Int) : List Char :=
  let mantissa := match digits with
    | [] => []
    | [d] => [d]
    | d :: more => d :: '.' :: more
  let exponent := Text.numeral power.natAbs
  mantissa ++ 'e' :: (if power < 0 then '-' else '+')
    :: List.replicate (s.exponentWidth - exponent.length) '0' ++ exponent

def decimalText (s : Style) (d : Decimal) : List Char :=
  let all := Text.numeral d.digits
  let power := d.exponent + all.length - 1
  let digits := (all.reverse.dropWhile (· = '0')).reverse
  if s.leastPlain ≤ power && power < s.plainBelow then plain digits power
  else withExponent s digits power

def magnitudeText (s : Style) (b : Binary) : List Char :=
  if b.significand = 0 then plain ['0'] 0 else decimalText s b.shortest

def isNegative (x : Float) : Bool := x.toBits.toNat / Nat.pow 2 63 = 1

def text (x : Float) : String :=
  if x.isNaN then "nan"
  else
    let magnitude :=
      if x.isInf then ['i', 'n', 'f'] else magnitudeText style (.ofBits x.toBits)
    String.ofList (if isNegative x then '-' :: magnitude else magnitude)

def ofDigits (whole fraction : List Char) : Float :=
  Float.ofScientific (Text.numeralValue (whole ++ fraction)) true fraction.length

def ofInteger (n : Int) : Float :=
  let magnitude := Float.ofScientific n.natAbs false 0
  if n < 0 then -magnitude else magnitude

end LiterateMath.Real
