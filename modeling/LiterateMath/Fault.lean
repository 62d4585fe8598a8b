import LiterateMath.Name
import LiterateMath.Number.Basic

/-! What can go wrong while statements run. -/
namespace LiterateMath

inductive Mismatch where
  | notANumber (value : Number)
  | integerTooLarge (digits : Nat)
  | notReal (kind : NumberKind)
  | arithmetic (kind : NumberKind)
  | negation (kind : NumberKind)
  | exponentOverflow
  | noRealPower (base exponent : Float)
  | argumentCount (function : Name) (expected given : Nat)
  deriving DecidableEq, Repr

def Mismatch.message : Mismatch → String
  | notANumber value => value.text ++ " is not a number"
  | integerTooLarge digits =>
      "An integer of " ++ Text.natural digits ++ " digits is too large to treat as a real number"
  | notReal kind => "Cannot treat a " ++ kind.text ++ " number as real"
  | arithmetic kind => "Arithmetic on " ++ kind.text ++ " numbers is not implemented"
  | negation kind => "Negation of " ++ kind.text ++ " numbers is not implemented"
  | exponentOverflow => "Exponent overflows a real number"
  | noRealPower base exponent =>
      Real.text base ++ " ^ " ++ Real.text exponent ++ " has no real value"
  | argumentCount function expected given =>
      function.toString ++ " takes " ++ Text.natural expected ++ " argument(s) but got "
        ++ Text.natural given

inductive Unsupported where
  | operation (op : Operation)
  | sets
  deriving DecidableEq, Repr

def Unsupported.message : Unsupported → String
  | operation op => "The " ++ op.text ++ " operator is not implemented"
  | sets => "Sets are not implemented yet"

inductive Fault where
  | mismatch (m : Mismatch)
  | missingVariable (name : Name)
  | missingFunction (name : Name)
  | undeclaredFunction (name : Name)
  | conditionNotInteger (value : Number)
  | divisionByZero
  | tooDeep
  | unsupported (what : Unsupported)
  deriving DecidableEq, Repr

namespace Fault

def kind : Fault → String
  | mismatch _ => "TypeMismatch"
  | missingVariable _ => "MissingVariable"
  | missingFunction _ => "MissingFunction"
  | undeclaredFunction _ => "FunctionDefinedWithNoDeclaration"
  | conditionNotInteger _ => "ConditionalsMustEvaluateToNumber"
  | divisionByZero => "DivisionByZero"
  | tooDeep => "RecursionTooDeep"
  | unsupported _ => "NotYetSupported"

/-- A text that mentions a name can be made only for a name without a subscript. -/
def about (before : String) (name : Name) (after : String) : Option String :=
  if name.isSubscripted then none else some (before ++ name.toString ++ after)

def message? : Fault → Option String
  | mismatch m => some m.message
  | missingVariable name => about "No value is bound to " name ""
  | missingFunction name => about "No function is defined as " name ""
  | undeclaredFunction name => about "Function " name " is defined with no declaration"
  | conditionNotInteger value =>
      some ("A condition must come out to an integer, not " ++ value.text)
  | divisionByZero => some "Division by zero"
  | tooDeep => some "Function calls nested too deeply"
  | unsupported what => some what.message

end Fault

abbrev Outcome (α : Type) := Except Fault α

end LiterateMath
