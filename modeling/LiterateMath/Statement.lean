import LiterateMath.Depth
import LiterateMath.Expr

/-! Statements: an expression to show, a declaration, or the definition of a function. -/
namespace LiterateMath

structure FunctionDeclaration where
  name : Name
  domain : NumberSet
  codomain : NumberSet
  place : Option Span
  deriving DecidableEq, Repr

def FunctionDeclaration.text (d : FunctionDeclaration) : String :=
  d.name.toString ++ " : " ++ d.domain.text ++ " \\to " ++ d.codomain.text

/-- The definition of a function. Where it is stored, its body mentions only its parameters,
itself, and the functions among its captures: what those were when it was defined. -/
structure FunctionDefinition where
  name : Name
  params : List Name
  body : Expr
  captures : List (Name × Option FunctionDeclaration × FunctionDefinition)
  place : Option Span
  deriving Repr

def FunctionDefinition.text (d : FunctionDefinition) : String :=
  d.name.toString ++ "(" ++ ", ".intercalate (d.params.map Name.toString) ++ ") = "
    ++ d.body.text

inductive Statement where
  | expression (e : Expr)
  | functionDeclaration (d : FunctionDeclaration)
  | valueDeclaration (name : Name) (value : Expr) (place : Option Span)
  | setDeclaration (name : Name) (members : List Expr) (place : Option Span)
  | functionDefinition (d : FunctionDefinition)
  deriving Repr

namespace Statement

def text : Statement → String
  | expression e => e.text
  | functionDeclaration d => d.text
  | valueDeclaration name value _ => name.toString ++ " = " ++ value.text
  | setDeclaration name members _ =>
      name.toString ++ " = \\\x7b" ++ ", ".intercalate (Expr.texts members) ++ "\\\x7d"
  | functionDefinition d => d.text

def textLevels : Statement → Nat
  | expression e => e.textLevels
  | functionDeclaration d => d.name.depth + 1
  | valueDeclaration name value _ => max name.depth value.textLevels + 1
  | setDeclaration name members _ => max name.depth (Expr.mostLevels members + 1) + 1
  | functionDefinition d =>
      max d.name.depth (max ((d.params.map Name.depth).foldr max 0 + 1) d.body.textLevels) + 1

def text? (s : Statement) : Option String :=
  if s.textLevels ≤ textDepth then some s.text else none

def place : Statement → Option Span
  | expression e => e.place
  | functionDeclaration d => d.place
  | valueDeclaration _ _ place => place
  | setDeclaration _ _ place => place
  | functionDefinition d => d.place

def putAt (place : Option Span) : Statement → Statement
  | expression e => expression (e.putAt place)
  | functionDeclaration d => functionDeclaration { d with place }
  | valueDeclaration name value _ => valueDeclaration name value place
  | setDeclaration name members _ => setDeclaration name members place
  | functionDefinition d => functionDefinition { d with place }

end Statement
end LiterateMath
