/-! Decimal numerals of whole numbers of any size. A long numeral is written in blocks of a
thousand digits from the low end; every block but the first keeps its leading zeros. -/
namespace LiterateMath.Text

def digitChar (n : Nat) : Char := Char.ofNat ('0'.toNat + n % 10)

def digitValue (c : Char) : Nat := c.toNat - '0'.toNat

def numeralValueFrom (start : Nat) (digits : List Char) : Nat :=
  digits.foldl (fun value c => 10 * value + digitValue c) start

def numeralValue (digits : List Char) : Nat := numeralValueFrom 0 digits

def paddedDigits : (width : Nat) → Nat → List Char
  | 0, _ => []
  | width + 1, n => paddedDigits width (n / 10) ++ [digitChar n]

def plainDigits (n : Nat) : List Char :=
  if _h : n < 10 then [digitChar n] else plainDigits (n / 10) ++ [digitChar n]

def blockWidth : Nat := 1000

def blockSize : Nat := Nat.pow 10 blockWidth

theorem oneLtPowTen (width : Nat) (h : width ≠ 0) : 1 < Nat.pow 10 width :=
  Nat.one_lt_pow h (by decide)

theorem blockSizeLarge : 1 < blockSize := by
  unfold blockSize
  exact oneLtPowTen blockWidth (by decide)

def numeral (n : Nat) : List Char :=
  if _h : n < blockSize then plainDigits n
  else numeral (n / blockSize) ++ paddedDigits blockWidth (n % blockSize)
termination_by n
decreasing_by exact Nat.div_lt_self (by have := blockSizeLarge; omega) blockSizeLarge

def natural (n : Nat) : String := String.ofList (numeral n)

def integer : Int → String
  | .ofNat n => natural n
  | .negSucc n => "-" ++ natural (n + 1)

def digitCount (n : Nat) : Nat := (numeral n).length

end LiterateMath.Text
