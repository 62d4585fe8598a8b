import LiterateMath.Condense

/-! What a statement comes to in an environment: the environment after it, and the line that it
shows, if any. -/
namespace LiterateMath

def storedDefinition (limit : Nat) (strict : Bool) (env : Environment) (d : FunctionDefinition) :
    Outcome FunctionDefinition :=
  if strict && !env.declarations.contains d.name then .error (.undeclaredFunction d.name)
  else d.condensed limit env

def Statement.run (limit : Nat) (strict : Bool) (env : Environment) :
    Statement → Outcome (Environment × Option String)
  | .expression e => do
      let value ← evaluate limit env e
      return (env, some (← value.render))
  | .valueDeclaration name value _ => do
      return (env.bindVariable name (← evaluate limit env value), none)
  | .functionDeclaration d => .ok (env.declare d, none)
  | .setDeclaration .. => .error (.unsupported .sets)
  | .functionDefinition d => do
      return (env.define (← storedDefinition limit strict env d), none)

end LiterateMath
