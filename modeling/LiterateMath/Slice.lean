import LiterateMath.Grouping

/-! The code of a document cut into slices, one for each statement, and what each slice says
that it is. -/
namespace LiterateMath

def isWhitespace (t : Token) : Bool :=
  t.word? = some .space || t.word? = some .newline

def asKeyword : Token → Token
  | .plain (.text letters) place =>
      match Keyword.ofText? letters with
      | some k => .plain (.keyword k) place
      | none => .plain (.text letters) place
  | t => t

def normalize (ts : List Token) : List Token :=
  (ts.filter (fun t => !isWhitespace t)).map asKeyword

/-- Cuts at commas outside of all brackets, and at the ends of regions whatever the brackets. The
slice under way is held with its latest token first. -/
def sliceFrom : (depth : Int) → (current : List Token) → List Token → List (List Token)
  | _, current, [] => [current.reverse]
  | depth, current, t :: rest =>
      if t.word? = some .regionEnd then current.reverse :: sliceFrom 0 [] rest
      else if t.word? = some .comma ∧ depth = 0 then current.reverse :: sliceFrom depth [] rest
      else sliceFrom (depth + depthStep t) (t :: current) rest

def intoSlices (ts : List Token) : List (List Token) :=
  (sliceFrom 0 [] (normalize ts)).filter fun slice => !slice.isEmpty

inductive Shape where
  | expression
  | functionDeclaration (name signature : List Token)
  | valueDeclaration (name value : List Token)
  | functionDefinition (signature body : List Token)
  deriving Repr

def Shape.label : Shape → String
  | expression => "expression"
  | functionDeclaration .. => "function declaration"
  | valueDeclaration .. => "value declaration"
  | functionDefinition .. => "function definition"

def mentions (w : Word) (ts : List Token) : Bool := ts.any (fun t => t.word? = some w)

def isDecidingSign (t : Token) : Bool := t.word? = some .colon || t.word? = some .equals

/-- The first deciding sign decides; before an equals sign, a parenthesis makes the difference
between a function and a value. -/
def shape (ts : List Token) : Shape :=
  match cutAt isDecidingSign ts with
  | none => .expression
  | some (before, sign, after) =>
      if sign.word? = some .colon then .functionDeclaration before after
      else if mentions (.opening .paren) before then .functionDefinition before after
      else .valueDeclaration before after

end LiterateMath
