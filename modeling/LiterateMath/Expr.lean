import LiterateMath.Name
import LiterateMath.Span
import LiterateMath.Number.Basic

/-! Expressions, and how they are written. Every operation is written in parentheses, so the
text of an expression shows its structure whatever the operators are. -/
namespace LiterateMath

inductive Expr where
  | literal (value : Number) (place : Option Span)
  | lookup (name : Name) (place : Option Span)
  | call (function : Name) (args : List Expr) (place : Option Span)
  | unary (op : UnaryOperator) (arg : Expr) (place : Option Span)
  | binary (op : Connective) (lhs rhs : Expr) (place : Option Span)
  | conditional (condition ifTrue ifFalse : Expr) (place : Option Span)
  deriving Repr

namespace Expr

def place : Expr → Option Span
  | literal _ place | lookup _ place | call _ _ place | unary _ _ place | binary _ _ _ place
  | conditional _ _ _ place => place

def putAt (place : Option Span) : Expr → Expr
  | literal value _ => literal value place
  | lookup name _ => lookup name place
  | call function args _ => call function args place
  | unary op arg _ => unary op arg place
  | binary op lhs rhs _ => binary op lhs rhs place
  | conditional condition ifTrue ifFalse _ => conditional condition ifTrue ifFalse place

def settleAt (place : Option Span) (e : Expr) : Expr :=
  match e.place with
  | some _ => e
  | none => e.putAt place

mutual

def text : Expr → String
  | literal value _ => value.text
  | lookup name _ => name.toString
  | call function args _ => function.toString ++ "(" ++ ", ".intercalate (texts args) ++ ")"
  | unary op arg _ => "(" ++ op.text ++ " " ++ arg.text ++ ")"
  | binary op lhs rhs _ => "(" ++ lhs.text ++ " " ++ op.text ++ " " ++ rhs.text ++ ")"
  | conditional condition ifTrue ifFalse _ =>
      "(if " ++ condition.text ++ " then " ++ ifTrue.text ++ " else " ++ ifFalse.text ++ ")"

def texts : List Expr → List String
  | [] => []
  | e :: rest => e.text :: texts rest

end

mutual

def textLevels : Expr → Nat
  | literal .. => 1
  | lookup name _ => name.depth + 1
  | call function args _ => max (function.depth + 1) (mostLevels args + 2)
  | unary _ arg _ => arg.textLevels + 1
  | binary _ lhs rhs _ => max lhs.textLevels rhs.textLevels + 1
  | conditional condition ifTrue ifFalse _ =>
      max condition.textLevels (max ifTrue.textLevels ifFalse.textLevels) + 1

def mostLevels : List Expr → Nat
  | [] => 0
  | e :: rest => max e.textLevels (mostLevels rest)

end

mutual

def bare : Expr → Expr
  | literal value _ => literal value none
  | lookup name _ => lookup name none
  | call function args _ => call function (bares args) none
  | unary op arg _ => unary op arg.bare none
  | binary op lhs rhs _ => binary op lhs.bare rhs.bare none
  | conditional condition ifTrue ifFalse _ =>
      conditional condition.bare ifTrue.bare ifFalse.bare none

def bares : List Expr → List Expr
  | [] => []
  | e :: rest => e.bare :: bares rest

end

end Expr
end LiterateMath
