import LiterateMath.Proofs.Places.Reading
import LiterateMath.Proofs.Performing

/-! Running does not look at places. Statements in other places show the same lines, end in
the same fault and leave the same environment, with its definitions in other places. -/
namespace LiterateMath

variable {r : Relocation}

section Tables

variable {α β : Type} {f : α → β}

def Table.changed (f : α → β) (t : Table α) : Table β := List.map (fun e => (e.1, f e.2)) t

theorem findChanged (t : Table α) (name : Name) :
    (t.changed f).find? name = (t.find? name).map f := by
  induction t with
  | nil => rfl
  | cons e rest ih =>
      obtain ⟨key, value⟩ := e
      simp only [Table.changed, Table.find?, List.map_cons, List.lookup_cons] at ih ⊢
      split
      · rfl
      · exact ih

theorem containsChanged (t : Table α) (name : Name) :
    (t.changed f).contains name = t.contains name := by
  simp [Table.contains, findChanged]

theorem insertChanged (t : Table α) (name : Name) (value : α) :
    (t.changed f).insert name (f value) = (t.insert name value).changed f := by
  simp [Table.insert, Table.remove, Table.changed, List.filter_map, Function.comp_def]

theorem unionChanged (s t : Table α) :
    (s.changed f).union (t.changed f) = (s.union t).changed f := by
  have same (name : Name) : Table.contains (Table.changed f s) name = s.contains name :=
    containsChanged s name
  simp only [Table.union, same]
  simp [Table.changed, List.filter_map, Function.comp_def]

end Tables

section Environments

def movedSnapshot (r : Relocation) (s : Snapshot) : Snapshot :=
  (s.1.map (FunctionDeclaration.moved r), s.2.moved r)

theorem movedCapturesChanged (captures : Captures) :
    movedCaptures r captures = captures.changed (movedSnapshot r) := by
  induction captures with
  | nil => rfl
  | cons e rest ih => simpa [movedCaptures, Table.changed, movedSnapshot] using ih

def Environment.moved (r : Relocation) (env : Environment) : Environment :=
  ⟨env.values, env.declarations.changed (FunctionDeclaration.moved r),
    env.definitions.changed (FunctionDefinition.moved r)⟩

def Scope.moved (r : Relocation) (s : Scope) : Scope := ⟨s.env.moved r, s.locals⟩

variable {env : Environment}

theorem lookupFunctionMoved (name : Name) :
    (env.moved r).lookupFunction name
      = (env.lookupFunction name).map (FunctionDefinition.moved r) := by
  simp only [Environment.lookupFunction, Environment.moved, findChanged]
  cases env.definitions.find? name <;> rfl

theorem namesFunctionMoved (name : Name) :
    (env.moved r).namesFunction name = env.namesFunction name := by
  simp only [Environment.namesFunction, Environment.moved, containsChanged]

theorem snapshotMoved (name : Name) :
    (env.moved r).snapshot name = (env.snapshot name).map (movedSnapshot r) := by
  simp only [Environment.snapshot, lookupFunctionMoved]
  simp only [Environment.moved, findChanged]
  cases env.lookupFunction name <;> rfl

theorem adoptMoved (name : Name) (s : Snapshot) :
    (env.moved r).adopt name (movedSnapshot r s) = (env.adopt name s).moved r := by
  obtain ⟨known, d⟩ := s
  cases known <;>
    simp [Environment.adopt, Environment.moved, movedSnapshot, insertChanged]

theorem frameMoved (d : FunctionDefinition) (known : Option FunctionDeclaration) :
    (d.moved r).frame (known.map (FunctionDeclaration.moved r)) = (d.frame known).moved r := by
  have folded (captures : Captures) (env : Environment) :
      (captures.changed (movedSnapshot r)).foldl (fun env e => env.adopt e.1 e.2) (env.moved r)
        = (captures.foldl (fun env e => env.adopt e.1 e.2) env).moved r := by
    induction captures generalizing env with
    | nil => rfl
    | cons e rest ih =>
        simp only [Table.changed, List.map_cons, List.foldl_cons, adoptMoved] at ih ⊢
        exact ih _
  obtain ⟨name, params, body, captures, place⟩ := d
  have whole := folded captures .empty
  rw [← movedCapturesChanged] at whole
  simp only [FunctionDefinition.frame, FunctionDefinition.moved]
  rw [show Environment.empty = Environment.empty.moved r from rfl, whole, ← adoptMoved]
  rfl

end Environments

section Evaluation

variable {α β γ δ : Type}

theorem mapBind {f : α → β} {h : γ → δ} {x : Outcome α} {y : Outcome β} {g : α → Outcome γ}
    {g' : β → Outcome δ} (first : y = x.map f) (next : ∀ a, x = .ok a → g' (f a) = (g a).map h) :
    (y >>= g') = (x >>= g).map h := by
  cases x with
  | ok a =>
      rw [first]
      exact next a rfl
  | error fault =>
      rw [first]
      rfl

theorem mapNothing (x : Outcome α) : x = x.map id := by cases x <;> rfl

theorem functionArgumentMoved (env : Environment) (e : Expr) :
    (env.moved r).functionArgument? (e.moved r)
      = (env.functionArgument? e).map (movedSnapshot r) := by
  cases e with
  | lookup name place =>
      simp only [Expr.moved, Environment.functionArgument?, namesFunctionMoved, snapshotMoved]
      split
      · cases env.snapshot name <;> rfl
      · rfl
  | _ => rfl

theorem bindArgumentsMoved {eval eval' : Expr → Outcome Number}
    (same : ∀ e, eval' (e.moved r) = eval e) (caller inner : Environment)
    (bindings : List (Name × Expr)) :
    bindArguments eval' (caller.moved r) (inner.moved r)
        (bindings.map fun b => (b.1, b.2.moved r))
      = (bindArguments eval caller inner bindings).map (Environment.moved r) := by
  induction bindings generalizing inner with
  | nil => rfl
  | cons b rest ih =>
      obtain ⟨param, arg⟩ := b
      simp only [List.map_cons, bindArguments, functionArgumentMoved]
      cases caller.functionArgument? arg with
      | some s =>
          simp only [Option.map_some, adoptMoved]
          exact ih _
      | none =>
          exact mapBind ((same arg).trans (mapNothing _)) fun value _ =>
            ih (inner.bindVariable param value)

theorem evaluateMoved (limit : Nat) (env : Environment) (e : Expr) :
    evaluate limit (env.moved r) (e.moved r) = evaluate limit env e := by
  induction limit generalizing env e with
  | zero => rfl
  | succ limit ih =>
      cases e with
      | literal value place => rfl
      | lookup name place => rfl
      | unary op arg place => simp only [Expr.moved, evaluate, ih]
      | binary op lhs rhs place => simp only [Expr.moved, evaluate, ih]
      | conditional condition ifTrue ifFalse place => simp only [Expr.moved, evaluate, ih]
      | call function args place =>
          simp only [Expr.moved, evaluate, lookupFunctionMoved, movedArgumentsMap,
            List.length_map]
          cases env.lookupFunction function with
          | error fault => rfl
          | ok callee =>
              obtain ⟨name, params, body, captures, place⟩ := callee
              have known : (env.moved r).declarations.find? function
                  = (env.declarations.find? function).map (FunctionDeclaration.moved r) :=
                findChanged _ _
              have frame := frameMoved (r := r) ⟨name, params, body, captures, place⟩
                (env.declarations.find? function)
              simp only [Except.map, bindOk, known, frame]
              simp only [FunctionDefinition.moved, List.zip_map_right]
              split
              · rfl
              · refine (mapBind (bindArgumentsMoved (fun e => ih env e) env _ _)
                  fun inner _ => ?_).trans (mapNothing _).symm
                exact (ih inner body).trans (mapNothing _)

end Evaluation

section Condensing

def movedCondensed (r : Relocation) (c : Expr × Captures) : Expr × Captures :=
  (c.1.moved r, c.2.changed (movedSnapshot r))

theorem captureMoved (s : Scope) (name : Name) :
    (s.moved r).capture name
      = (s.capture name).map (Table.changed (movedSnapshot r)) := by
  simp only [Scope.capture, Scope.moved, snapshotMoved]
  cases s.env.snapshot name <;> rfl

theorem settledMoved (s : Scope) (e : Expr) : (s.moved r).settled (e.moved r) = s.settled e := by
  cases e <;> rfl

theorem condenseArgumentsMoved {condense condense' : Expr → Outcome (Expr × Captures)}
    (same : ∀ e, condense' (e.moved r) = (condense e).map (movedCondensed r)) (es : List Expr) :
    condenseArguments condense' (es.map (Expr.moved r))
      = (condenseArguments condense es).map
        fun c => (c.1.map (Expr.moved r), c.2.changed (movedSnapshot r)) := by
  induction es with
  | nil => rfl
  | cons e rest ih =>
      rw [List.map_cons, condenseArguments, condenseArguments]
      refine mapBind (same e) fun first _ => ?_
      refine mapBind ih fun more _ => ?_
      simp [unionChanged, Except.map]

theorem condenseMoved (s : Scope) (limit : Nat) (e : Expr) :
    condense (s.moved r) limit (e.moved r) = (condense s limit e).map (movedCondensed r) := by
  have isLocal (name : Name) : (s.moved r).isLocal name = s.isLocal name := rfl
  have inner : (s.moved r).env = s.env.moved r := rfl
  have settled : (fun e => (s.moved r).settled (Expr.moved r e)) = s.settled :=
    funext (settledMoved s)
  induction limit generalizing e with
  | zero => rfl
  | succ limit ih =>
      cases e with
      | literal value place => rfl
      | lookup name place =>
          simp only [Expr.moved, condense, condenseMaking, isLocal, inner, namesFunctionMoved]
          split
          · rfl
          · split
            · exact mapBind (captureMoved s name) fun captures _ => rfl
            · exact mapBind (mapNothing (s.env.lookupVariable name)) fun value _ => rfl
      | unary op arg place =>
          exact mapBind (ih arg) fun c _ => rfl
      | binary op lhs rhs place =>
          refine mapBind (ih lhs) fun first _ => mapBind (ih rhs) fun second _ => ?_
          simp [movedCondensed, unionChanged, Except.map, Expr.moved]
      | conditional condition ifTrue ifFalse place =>
          refine mapBind (ih condition) fun first _ => mapBind (ih ifTrue) fun second _ => ?_
          refine mapBind (ih ifFalse) fun third _ => ?_
          simp [movedCondensed, unionChanged, Except.map, Expr.moved]
      | call function args place =>
          simp only [Expr.moved, condense, condenseMaking, movedArgumentsMap]
          refine mapBind (condenseArgumentsMoved ih args) fun c _ => ?_
          simp only [isLocal, List.all_map, Function.comp_def, settled]
          split
          · simp [movedCondensed, Except.map, Expr.moved]
          · split
            · have made := evaluateMoved (r := r) limit s.env (.call function c.1 place)
              simp only [Expr.moved, movedArgumentsMap] at made
              exact mapBind (made.trans (mapNothing _)) fun value _ => rfl
            · refine mapBind (captureMoved s function) fun captures _ => ?_
              simp [movedCondensed, unionChanged, Except.map, Expr.moved]

theorem condensedMoved (limit : Nat) (env : Environment) (d : FunctionDefinition) :
    (d.moved r).condensed limit (env.moved r)
      = (d.condensed limit env).map (FunctionDefinition.moved r) := by
  obtain ⟨name, params, body, captures, place⟩ := d
  refine mapBind (condenseMoved ⟨env, name :: params⟩ limit body) fun c _ => ?_
  simp only [FunctionDefinition.moved, movedCondensed, ← movedCapturesChanged]
  rfl

end Condensing

section Sessions

def Session.moved (r : Relocation) (s : Session) : Session := { s with env := s.env.moved r }

def Run.moved (r : Relocation) (run : Run) : Run :=
  ⟨run.session.moved r, run.output,
    run.failure.map fun f => { f with place := f.place.map r.move },
    run.left.map (Statement.moved r)⟩

theorem definitionNameMoved (d : FunctionDefinition) : (d.moved r).name = d.name := by
  cases d
  rfl

theorem statementRunMoved (limit : Nat) (strict : Bool) (env : Environment) (s : Statement) :
    (s.moved r).run limit strict (env.moved r)
      = (s.run limit strict env).map fun done => (done.1.moved r, done.2) := by
  cases s with
  | expression e =>
      refine mapBind ((evaluateMoved limit env e).trans (mapNothing _)) fun value _ => ?_
      exact mapBind (mapNothing value.render) fun line _ => rfl
  | functionDeclaration d =>
      simp [Statement.moved, Statement.run, Environment.declare, Environment.moved,
        FunctionDeclaration.moved, ← insertChanged, Except.map]
  | valueDeclaration name value place =>
      exact mapBind ((evaluateMoved limit env value).trans (mapNothing _)) fun value _ => rfl
  | setDeclaration name members place => rfl
  | functionDefinition d =>
      have stored : storedDefinition limit strict (env.moved r) (d.moved r)
          = (storedDefinition limit strict env d).map (FunctionDefinition.moved r) := by
        simp only [storedDefinition, definitionNameMoved]
        rw [show (env.moved r).declarations = env.declarations.changed _ from rfl,
          containsChanged, condensedMoved]
        split <;> rfl
      refine mapBind stored fun d' _ => ?_
      simp [Environment.define, Environment.moved, definitionNameMoved, ← insertChanged,
        Except.map]

theorem statementPlaceMoved (s : Statement) : (s.moved r).place = s.place.map r.move := by
  cases s with
  | expression e => exact placeMoved e
  | functionDefinition d =>
      cases d
      rfl
  | _ => rfl

theorem sessionRunMoved (s : Session) (statements : List Statement) (limit : Nat) :
    (s.moved r).run (statements.map (Statement.moved r)) limit
      = (s.run statements limit).moved r := by
  induction statements generalizing s with
  | nil => rfl
  | cons statement rest ih =>
      have moved := statementRunMoved (r := r) limit s.strict s.env statement
      rw [List.map_cons]
      cases done : statement.run limit s.strict s.env with
      | error fault =>
          rw [done] at moved
          rw [runFails done, runFails moved, statementPlaceMoved]
          rfl
      | ok result =>
          obtain ⟨env, line⟩ := result
          rw [done] at moved
          have later := ih { s with env, index := s.index + 1 }
          rw [runOk done, runOk moved]
          exact congrArg (Run.following line.toList) later

end Sessions
end LiterateMath
