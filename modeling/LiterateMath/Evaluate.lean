import LiterateMath.Environment
import LiterateMath.Number.Arithmetic

/-! Evaluation. Every call gets an environment of its own, which holds only what the function
captured, the function itself and the arguments. How deep an evaluation may go is limited:
every level of a tree takes one off, and the body of a function lies below its call. -/
namespace LiterateMath

def Environment.functionArgument? (env : Environment) : Expr → Option Snapshot
  | .lookup name _ =>
      if env.namesFunction name then (env.snapshot name).toOption else none
  | _ => none

def bindArguments (eval : Expr → Outcome Number) (caller : Environment) :
    Environment → List (Name × Expr) → Outcome Environment
  | inner, [] => .ok inner
  | inner, (param, arg) :: rest =>
      match caller.functionArgument? arg with
      | some s => bindArguments eval caller (inner.adopt param s) rest
      | none => do
          let value ← eval arg
          bindArguments eval caller (inner.bindVariable param value) rest

def conditionHolds (value : Number) : Outcome Bool :=
  match value with
  | .integer n => .ok (n != 0)
  | value => do
      let _ ← value.kind
      .error (.conditionNotInteger value)

def evaluate : (limit : Nat) → Environment → Expr → Outcome Number
  | 0, _, _ => .error .tooDeep
  | _ + 1, _, .literal value _ => .ok value
  | _ + 1, env, .lookup name _ => env.lookupVariable name
  | limit + 1, env, .unary op arg _ => do
      (Operation.unary op).apply (← evaluate limit env arg)
  | limit + 1, env, .binary op lhs rhs _ => do
      let a ← evaluate limit env lhs
      let b ← evaluate limit env rhs
      op.combine a b
  | limit + 1, env, .conditional condition ifTrue ifFalse _ => do
      let value ← evaluate limit env condition
      if ← conditionHolds value then evaluate limit env ifTrue else evaluate limit env ifFalse
  | limit + 1, env, .call function args _ => do
      let callee ← env.lookupFunction function
      if args.length ≠ callee.params.length then
        .error (.mismatch (.argumentCount function callee.params.length args.length))
      else
        let frame := callee.frame (env.declarations.find? function)
        let inner ← bindArguments (evaluate limit env) env frame (callee.params.zip args)
        evaluate limit inner callee.body

end LiterateMath
