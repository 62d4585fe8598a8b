import LiterateMath.Token.Basic

/-! What can be wrong with a text before any of it runs. -/
namespace LiterateMath

inductive ParseFault where
  | regionNeverClosed
  | bracketsDoNotMatch
  | nothingOpens
  | neverClosed
  | subscriptNeverClosed
  | argumentsNeverClosed
  | parametersNeverClosed
  | setNeverClosed
  | conditionalForm
  | conditionalPartEmpty
  | nameMissing
  | declarationForm
  | numberSetExpected (role : String)
  | afterParameters
  | repeatedParameter
  | afterSet
  | fractionGroups
  | rootGroups
  | subscriptMissing
  | valueMissing
  | operandMissing (operation : Operation)
  | sideBySide
  | notAName
  | meaninglessCommand (name : String)
  | unknownCommand (name : String)
  | unsupportedBigOperator (o : BigOperator)
  | unsupportedSetRelation (r : SetRelation)
  | stray (word : Word)
  deriving Repr

namespace ParseFault

def kind : ParseFault → String
  | regionNeverClosed | bracketsDoNotMatch | nothingOpens | neverClosed | subscriptNeverClosed
  | argumentsNeverClosed | parametersNeverClosed | setNeverClosed => "UnterminatedDelimiter"
  | conditionalForm | conditionalPartEmpty => "MalformedConditional"
  | nameMissing | declarationForm | numberSetExpected _ | afterParameters | repeatedParameter
  | afterSet => "MalformedDeclaration"
  | fractionGroups | rootGroups | subscriptMissing | valueMissing | operandMissing _
  | sideBySide => "MalformedExpression"
  | notAName | meaninglessCommand _ | unknownCommand _ | unsupportedBigOperator _
  | unsupportedSetRelation _ | stray _ => "UnexpectedToken"

def message : ParseFault → String
  | regionNeverClosed => "This code region is never closed."
  | bracketsDoNotMatch => "These brackets do not match."
  | nothingOpens => "Nothing opens this."
  | neverClosed => "This is never closed."
  | subscriptNeverClosed => "This subscript is never closed."
  | argumentsNeverClosed => "This argument list is never closed."
  | parametersNeverClosed => "This parameter list is never closed."
  | setNeverClosed => "This set is never closed."
  | conditionalForm => "A conditional must read: if ... then ... else ..."
  | conditionalPartEmpty => "Each part of this conditional needs something in it."
  | nameMissing => "Expected a name, but found nothing."
  | declarationForm => "A function declaration reads: name : domain \\to codomain"
  | numberSetExpected role => "The " ++ role ++ " must be one number set, like \\R or \\Z."
  | afterParameters =>
      "Only the parameter list may come between the name and the equals sign."
  | repeatedParameter => "A parameter name appears twice."
  | afterSet => "Nothing may follow a set literal."
  | fractionGroups => "\\frac takes exactly two \x7bgroups\x7d."
  | rootGroups => "\\sqrt takes one \x7bradicand\x7d and at most one [index]."
  | subscriptMissing => "The subscript is missing."
  | valueMissing => "Expected a value, but found nothing."
  | operandMissing (.binary c) => "The " ++ c.text ++ " operator is missing an operand."
  | operandMissing (.unary u) => "The " ++ u.text ++ " operator is missing its operand."
  | sideBySide => "Two values sit side by side here with no operator between them."
  | notAName => "This is not a name."
  | meaninglessCommand name => "I do not know what \\" ++ name ++ " means in an expression."
  | unknownCommand name => "I do not know the command \\" ++ name ++ "."
  | unsupportedBigOperator o =>
      "Big operators like \\" ++ o.spelling ++ " are not supported yet."
  | unsupportedSetRelation r =>
      "Set relations like \\" ++ r.spelling ++ " cannot appear in an expression yet."
  | stray word => "I did not expect to see " ++ word.exhibit ++ " here."

end ParseFault

inductive ParseFailure where
  | malformed (fault : ParseFault) (place : Option Span)
  | literalTooLong
  | tooDeep
  deriving Repr

abbrev Parsed (α : Type) := Except ParseFailure α

end LiterateMath
