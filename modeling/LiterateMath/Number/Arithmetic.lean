import LiterateMath.Fault

/-! Arithmetic on numbers. Integers stay exact; an integer that meets a real is made real
first, in one place, and complex and rational numbers are not calculated with. -/
namespace LiterateMath
namespace Number

def kind (n : Number) : Outcome NumberKind :=
  match n.kind? with
  | some k => .ok k
  | none => .error (.mismatch (.notANumber n))

def toReal : Number → Outcome Float
  | real x => .ok x
  | integer n =>
      if (Real.ofInteger n).isInf then
        .error (.mismatch (.integerTooLarge (Text.digitCount n.natAbs)))
      else .ok (Real.ofInteger n)
  | complex .. => .error (.mismatch (.notReal .complex))
  | rational _ => .error (.mismatch (.notReal .rational))
  | truth b => .error (.mismatch (.notANumber (.truth b)))

inductive Operands where
  | integers (a b : Int)
  | reals (a b : Float)
  deriving DecidableEq, Repr

def supportsArithmetic : NumberKind → Bool
  | .integer | .real => true
  | .complex | .rational => false

def operands (a b : Number) : Outcome Operands :=
  match a, b with
  | integer m, integer n => .ok (.integers m n)
  | a, b => do
      let ka ← a.kind
      let kb ← b.kind
      if supportsArithmetic ka && supportsArithmetic kb then
        return .reals (← a.toReal) (← b.toReal)
      else .error (.mismatch (.arithmetic (if supportsArithmetic ka then kb else ka)))

def wholeQuotient (a b : Int) : Int :=
  let magnitude : Int := (a.natAbs / b.natAbs : Nat)
  if decide (a < 0) = decide (b < 0) then magnitude else -magnitude

def quotient (a b : Int) : Outcome Number :=
  if b = 0 then .error .divisionByZero else .ok (.integer (wholeQuotient a b))

/-- Powers with a natural exponent; exponents of any size are fine for the bases whose powers
stay small. -/
def naturalPower (a : Int) (n : Nat) : Int :=
  if a = 0 then if n = 0 then 1 else 0
  else if a = 1 then 1
  else if a = -1 then if n % 2 = 0 then 1 else -1
  else Int.pow a n

def isWhole (x : Float) : Bool := x.floor == x

inductive RealPower where
  | real (x : Float)
  | complex
  | overflow
  deriving DecidableEq, Repr

/-- What a power of two reals comes to, zero to a negative exponent aside. From finite operands
the result has to be finite. A negative base with a fractional exponent has a complex power, which
overflows with its magnitude. -/
def RealPower.of (a b : Float) : RealPower :=
  if a.isFinite && b.isFinite then
    if a < 0 && !isWhole b then
      if (Float.pow (-a) b).isInf then overflow else complex
    else if (Float.pow a b).isInf then overflow
    else real (Float.pow a b)
  else real (Float.pow a b)

def realPower (a b : Float) : Outcome Number :=
  if a == 0 && b < 0 then .error .divisionByZero
  else
    match RealPower.of a b with
    | .real x => .ok (.real x)
    | .overflow => .error (.mismatch .exponentOverflow)
    | .complex => .error (.mismatch (.noRealPower a b))

def integerPower (a b : Int) : Outcome Number :=
  if 0 ≤ b then .ok (.integer (naturalPower a b.toNat))
  else if a = 0 then .error .divisionByZero
  else do realPower (← toReal (.integer a)) (← toReal (.integer b))

def areClose (a b : Float) : Bool :=
  if a == b then true
  else if a.isInf || b.isInf then false
  else (b - a).abs ≤ (1e-9 * b).abs || (b - a).abs ≤ (1e-9 * a).abs

def ofBool (b : Bool) : Number := integer (if b then 1 else 0)

def arithmetic? : BinaryOperator → Option (Operands → Outcome Number)
  | .addition => some fun
      | .integers a b => .ok (.integer (a + b))
      | .reals a b => .ok (.real (a + b))
  | .subtraction => some fun
      | .integers a b => .ok (.integer (a - b))
      | .reals a b => .ok (.real (a - b))
  | .multiplication => some fun
      | .integers a b => .ok (.integer (a * b))
      | .reals a b => .ok (.real (a * b))
  | .division => some fun
      | .integers a b => quotient a b
      | .reals a b => if b == 0 then .error .divisionByZero else .ok (.real (a / b))
  | .exponent => some fun
      | .integers a b => integerPower a b
      | .reals a b => realPower a b
  | _ => none

def comparison? : Relation → Option (Operands → Bool)
  | .equals => some fun
      | .integers a b => a = b
      | .reals a b => a == b
  | .approx => some fun
      | .integers a b => a = b
      | .reals a b => areClose a b
  | .lessEq => some fun
      | .integers a b => a ≤ b
      | .reals a b => a ≤ b
  | .greaterEq => some fun
      | .integers a b => b ≤ a
      | .reals a b => b ≤ a
  | .less => some fun
      | .integers a b => a < b
      | .reals a b => a < b
  | .greater => some fun
      | .integers a b => b < a
      | .reals a b => b < a
  | _ => none

end Number

def Connective.meaning? : Connective → Option (Number.Operands → Outcome Number)
  | operator o => Number.arithmetic? o
  | relation r => (Number.comparison? r).map fun test ops => .ok (Number.ofBool (test ops))

def Connective.combine (c : Connective) (a b : Number) : Outcome Number :=
  match c.meaning? with
  | some meaning => do meaning (← Number.operands a b)
  | none => .error (.unsupported (.operation (.binary c)))

namespace Operation

def combine (op : Operation) (a b : Number) : Outcome Number :=
  match op with
  | binary c => c.combine a b
  | unary _ => .error (.unsupported (.operation op))

def apply (op : Operation) (a : Number) : Outcome Number :=
  match op with
  | unary .negation =>
      match a with
      | .integer n => .ok (.integer (-n))
      | .real x => .ok (.real (-x))
      | a => do .error (.mismatch (.negation (← a.kind)))
  | op => .error (.unsupported (.operation op))

end Operation

def Number.render (n : Number) : Outcome String := do
  let _ ← n.kind
  return n.text

end LiterateMath
