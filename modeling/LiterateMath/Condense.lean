import LiterateMath.Evaluate

/-! Condensing a function body: every name that is not a parameter is replaced by what it means
now, so that later statements cannot reach into the function. Names of numbers become literals.
A call whose arguments are all settled is made right away. A call that has to wait stays, and
what its function is now goes into the captures. Calls of a parameter or of the function itself
always wait. -/
namespace LiterateMath

abbrev Captures := Table Snapshot

structure Scope where
  env : Environment
  locals : List Name

namespace Scope

def isLocal (s : Scope) (name : Name) : Bool := s.locals.contains name

def capture (s : Scope) (name : Name) : Outcome Captures := do
  return [(name, ← s.env.snapshot name)]

def settled (s : Scope) : Expr → Bool
  | .literal .. => true
  | .lookup name _ => !s.isLocal name
  | _ => false

end Scope

def condenseArguments (condense : Expr → Outcome (Expr × Captures)) :
    List Expr → Outcome (List Expr × Captures)
  | [] => .ok ([], [])
  | e :: rest => do
      let (e, first) ← condense e
      let (rest, more) ← condenseArguments condense rest
      return (e :: rest, first.union more)

def condenseMaking (make : Nat → Expr → Outcome Number) (s : Scope) :
    (limit : Nat) → Expr → Outcome (Expr × Captures)
  | 0, _ => .error .tooDeep
  | _ + 1, .literal value place => .ok (.literal value place, [])
  | _ + 1, .lookup name place =>
      if s.isLocal name then .ok (.lookup name place, [])
      else if s.env.namesFunction name then do
        return (.lookup name place, ← s.capture name)
      else do
        return (.literal (← s.env.lookupVariable name) place, [])
  | limit + 1, .unary op arg place => do
      let (arg, captures) ← condenseMaking make s limit arg
      return (.unary op arg place, captures)
  | limit + 1, .binary op lhs rhs place => do
      let (lhs, first) ← condenseMaking make s limit lhs
      let (rhs, second) ← condenseMaking make s limit rhs
      return (.binary op lhs rhs place, first.union second)
  | limit + 1, .conditional condition ifTrue ifFalse place => do
      let (condition, first) ← condenseMaking make s limit condition
      let (ifTrue, second) ← condenseMaking make s limit ifTrue
      let (ifFalse, third) ← condenseMaking make s limit ifFalse
      return (.conditional condition ifTrue ifFalse place, (first.union second).union third)
  | limit + 1, .call function args place => do
      let (args, captures) ← condenseArguments (condenseMaking make s limit) args
      if s.isLocal function then return (.call function args place, captures)
      else if args.all s.settled then
        let value ← make limit (.call function args place)
        return (.literal value place, captures)
      else
        return (.call function args place, captures.union (← s.capture function))

def condense (s : Scope) : (limit : Nat) → Expr → Outcome (Expr × Captures) :=
  condenseMaking (fun limit => evaluate limit s.env) s

def FunctionDefinition.scope (d : FunctionDefinition) (env : Environment) : Scope :=
  ⟨env, d.name :: d.params⟩

def FunctionDefinition.condensed (limit : Nat) (env : Environment) (d : FunctionDefinition) :
    Outcome FunctionDefinition := do
  let (body, captures) ← condense (d.scope env) limit d.body
  return { d with body, captures }

end LiterateMath
