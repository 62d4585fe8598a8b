import LiterateMath.Vocabulary

/-! Names of variables and functions. Subscripts nest to the right: in `a_b_c` the subscript of
`a` is `b_c`. -/
namespace LiterateMath

inductive Name where
  | text (letters : String)
  | greek (letter : GreekLetter)
  | subscripted (base subscript : Name)
  deriving DecidableEq, Repr

namespace Name

def toString : Name → String
  | text letters => letters
  | greek letter => letter.text
  | subscripted base sub => base.toString ++ "_\x7b" ++ sub.toString ++ "\x7d"

def depth : Name → Nat
  | subscripted base sub => max base.depth sub.depth + 1
  | _ => 0

def isSubscripted : Name → Bool
  | subscripted .. => true
  | _ => false

end Name
end LiterateMath
