import LiterateMath.Memory

/-! Carrying out statements in a memory, one read or write after another. -/
namespace LiterateMath
namespace Act

def bindArgument (eval : Expr → Act Number) (caller inner : Ref) (param : Name) (arg : Expr) :
    Act Unit := do
  match (← look caller).functionArgument? arg with
  | some s => write inner (·.adopt param s)
  | none =>
      let value ← eval arg
      write inner (·.bindVariable param value)

def evaluate : (limit : Nat) → Ref → Expr → Act Number
  | 0, _, _ => throw .tooDeep
  | _ + 1, _, .literal value _ => return value
  | _ + 1, ref, .lookup name _ => do (← look ref).lookupVariable name
  | limit + 1, ref, .unary op arg _ => do
      (Operation.unary op).apply (← evaluate limit ref arg)
  | limit + 1, ref, .binary op lhs rhs _ => do
      let a ← evaluate limit ref lhs
      let b ← evaluate limit ref rhs
      op.combine a b
  | limit + 1, ref, .conditional condition ifTrue ifFalse _ => do
      let value ← evaluate limit ref condition
      if ← conditionHolds value then evaluate limit ref ifTrue else evaluate limit ref ifFalse
  | limit + 1, ref, .call function args _ => do
      let callee ← (← look ref).lookupFunction function
      if args.length ≠ callee.params.length then
        throw (.mismatch (.argumentCount function callee.params.length args.length))
      else
        let inner ← enter
        callee.captures.forM fun entry => write inner (·.adopt entry.1 entry.2)
        let known := (← look ref).declarations.find? function
        write inner (·.adopt callee.name (known, callee))
        (callee.params.zip args).forM fun argument =>
          bindArgument (evaluate limit ref) ref inner argument.1 argument.2
        let value ← evaluate limit inner callee.body
        leave
        return value

def capture (ref : Ref) (name : Name) : Act Unit := do
  let captures ← captured
  if captures.contains name then return
  else
    let s ← (← look ref).snapshot name
    keepCaptures (captures ++ [(name, s)])

def condense (ref : Ref) (locals : List Name) : (limit : Nat) → Expr → Act Expr
  | 0, _ => throw .tooDeep
  | _ + 1, .literal value place => return .literal value place
  | _ + 1, .lookup name place => do
      let s : Scope := ⟨← look ref, locals⟩
      if s.isLocal name then return .lookup name place
      else if s.env.namesFunction name then
        capture ref name
        return .lookup name place
      else return .literal (← s.env.lookupVariable name) place
  | limit + 1, .unary op arg place => do
      let arg ← condense ref locals limit arg
      return .unary op arg place
  | limit + 1, .binary op lhs rhs place => do
      let lhs ← condense ref locals limit lhs
      let rhs ← condense ref locals limit rhs
      return .binary op lhs rhs place
  | limit + 1, .conditional condition ifTrue ifFalse place => do
      let condition ← condense ref locals limit condition
      let ifTrue ← condense ref locals limit ifTrue
      let ifFalse ← condense ref locals limit ifFalse
      return .conditional condition ifTrue ifFalse place
  | limit + 1, .call function args place => do
      let args ← args.mapM (condense ref locals limit)
      let s : Scope := ⟨← look ref, locals⟩
      if s.isLocal function then return .call function args place
      else if args.all s.settled then
        return .literal (← evaluate limit ref (.call function args place)) place
      else
        capture ref function
        return .call function args place

end Act

def Statement.perform (limit : Nat) (strict : Bool) : Statement → Act Unit
  | .expression e => do
      let value ← Act.evaluate limit .session e
      Act.print (← value.render)
  | .valueDeclaration name value _ => do
      let value ← Act.evaluate limit .session value
      Act.write .session (·.bindVariable name value)
  | .functionDeclaration d => Act.write .session (·.declare d)
  | .setDeclaration .. => throw (.unsupported .sets)
  | .functionDefinition d => do
      let env ← Act.look .session
      if strict && !env.declarations.contains d.name then throw (.undeclaredFunction d.name)
      else
        Act.keepCaptures []
        let body ← Act.condense .session (d.name :: d.params) limit d.body
        let captures ← Act.captured
        Act.write .session (·.define { d with body, captures })

end LiterateMath
