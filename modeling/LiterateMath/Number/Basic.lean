import LiterateMath.Number.Real

/-! Numbers: what expressions come out to. A number is of one of four kinds. A truth value may
be handed to arithmetic from outside; it is no number, and every operation refuses it. -/
namespace LiterateMath

inductive Number where
  | integer (n : Int)
  | real (x : Float)
  | complex (re im : Float)
  | rational (q : Rat)
  | truth (b : Bool)
  deriving DecidableEq, Repr

inductive NumberKind where
  | integer | real | complex | rational
  deriving DecidableEq, Repr

def NumberKind.text : NumberKind → String
  | integer => "integer" | real => "real" | complex => "complex" | rational => "rational"

namespace Number

def kind? : Number → Option NumberKind
  | integer _ => some .integer
  | real _ => some .real
  | complex .. => some .complex
  | rational _ => some .rational
  | truth _ => none

def text : Number → String
  | integer n => Text.integer n
  | real x => Real.text x
  | complex re im =>
      Real.text re ++ (if im < 0 then "-" else "+") ++ Real.text im.abs ++ "i"
  | rational q =>
      if q.den = 1 then Text.integer q.num
      else Text.integer q.num ++ "/" ++ Text.natural q.den
  | truth b => if b then "True" else "False"

end Number
end LiterateMath
