import LiterateMath.Proofs.Condensing
import LiterateMath.Session
import LiterateMath.Step

/-! Statements carried out in a memory do what they come to. Where that is a fault, calls and
captures that were under way may be left in the memory; all that it held before is as it was. -/
namespace LiterateMath

namespace Memory

variable {m n : Memory} {ref : Ref} {env : Environment}

def Holds (m : Memory) : Ref → Prop
  | .session => True
  | .call n => n < m.calls.size

def entered (m : Memory) (env : Environment) : Memory := { m with calls := m.calls.push env }

def keeping (m : Memory) (captures : Captures) : Memory := { m with captures }

structure Kept (m n : Memory) : Prop where
  held (ref : Ref) (holds : m.Holds ref) : n.Holds ref ∧ n.environment ref = m.environment ref
  shown : n.shown = m.shown

theorem Kept.refl (m : Memory) : m.Kept m := ⟨fun _ holds => ⟨holds, rfl⟩, rfl⟩

theorem Kept.trans {k : Memory} (first : k.Kept m) (second : m.Kept n) : k.Kept n where
  held ref holds := by
    obtain ⟨holds, same⟩ := first.held ref holds
    obtain ⟨holds, same'⟩ := second.held ref holds
    exact ⟨holds, same'.trans same⟩
  shown := second.shown.trans first.shown

theorem keptKeeping (m : Memory) (captures : Captures) : m.Kept (m.keeping captures) := by
  refine ⟨fun ref holds => ?_, rfl⟩
  cases ref <;> exact ⟨holds, rfl⟩

theorem enteredEnvironment (holds : m.Holds ref) :
    (m.entered env).environment ref = m.environment ref := by
  cases ref with
  | session => rfl
  | call n =>
      have within : n < m.calls.size := holds
      simp [environment, entered, Array.getElem?_push, Nat.ne_of_lt within]

theorem keptEntered (m : Memory) (env : Environment) : m.Kept (m.entered env) := by
  refine ⟨fun ref holds => ⟨?_, enteredEnvironment holds⟩, rfl⟩
  cases ref with
  | session => trivial
  | call n => simpa [Holds, entered] using Nat.lt_succ_of_lt holds

theorem newHeld (m : Memory) (env : Environment) :
    (m.entered env).Holds (.call m.calls.size) := by
  simp [Holds, entered]

theorem newEnvironment (m : Memory) (env : Environment) :
    (m.entered env).environment (.call m.calls.size) = env := by
  simp [environment, entered]

theorem changeNew (m : Memory) (env : Environment) (f : Environment → Environment) :
    (m.entered env).change f (.call m.calls.size) = m.entered (f env) := by
  have same : (m.calls.push env).modify m.calls.size f = m.calls.push (f env) := by
    refine Array.ext_getElem? fun i => ?_
    simp only [Array.getElem?_modify, Array.getElem?_push]
    by_cases newest : i = m.calls.size
    · simp [newest]
    · simp [newest, Ne.symm newest]
  simp [change, entered, same]

end Memory

open Memory

section Acts

/-- A value is followed by a value with which it is related, and by a memory. A fault is followed
by the same fault, and by a memory in which everything is kept. -/
inductive Follows {α β : Type} (m : Memory) (related : α → β → Memory → Prop) :
    Outcome α → EStateM.Result Fault Memory β → Prop where
  | ok {a : α} {b : β} {n : Memory} (values : related a b n) :
      Follows m related (.ok a) (.ok b n)
  | error (fault : Fault) {left : Memory} (kept : m.Kept left) :
      Follows m related (.error fault) (.error fault left)

variable {α β γ δ : Type} {k m n : Memory} {ref : Ref}

theorem Follows.bind {related : α → β → Memory → Prop} {after : γ → δ → Memory → Prop}
    {r : Outcome α} {x : Act β} {f : α → Outcome γ} {g : β → Act δ}
    (first : Follows m related r (x.run n))
    (next : ∀ a b p, r = .ok a → related a b p → Follows m after (f a) ((g b).run p)) :
    Follows m after (r >>= f) ((x >>= g).run n) := by
  change Follows m after (r >>= f) (EStateM.bind x g n)
  unfold EStateM.bind
  change Follows m related r (x n) at first
  generalize x n = result at first
  cases first with
  | ok values => exact next _ _ _ rfl values
  | error fault kept => exact .error fault kept

theorem Follows.finish {related : α → β → Memory → Prop} {after : α → γ → Memory → Prop}
    {r : Outcome α} {x : Act β} {g : β → Act γ} (first : Follows m related r (x.run n))
    (last : ∀ a b p, related a b p → ∃ c q, (g b).run p = .ok c q ∧ after a c q) :
    Follows m after r ((x >>= g).run n) := by
  have same : (r >>= fun a => .ok a) = r := by cases r <;> rfl
  rw [← same]
  refine first.bind fun a b p _ values => ?_
  obtain ⟨c, q, done, values⟩ := last a b p values
  rw [done]
  exact .ok values

theorem Follows.weaken {related related' : α → β → Memory → Prop} {r : Outcome α}
    {result : EStateM.Result Fault Memory β} (follows : Follows m related r result)
    (kept : k.Kept m) (weaker : ∀ a b n, related a b n → related' a b n) :
    Follows k related' r result := by
  cases follows with
  | ok values => exact .ok (weaker _ _ _ values)
  | error fault more => exact .error fault (kept.trans more)

def Returns (m : Memory) (a b : α) (n : Memory) : Prop := b = a ∧ n = m

theorem Follows.andThen {after : γ → δ → Memory → Prop} {r : Outcome α} {x : Act α}
    {f : α → Outcome γ} {g : α → Act δ} {p : Memory} (first : Follows m (Returns p) r (x.run n))
    (next : ∀ a, Follows m after (f a) ((g a).run p)) :
    Follows m after (r >>= f) ((x >>= g).run n) := by
  refine first.bind fun a b q _ same => ?_
  obtain ⟨rfl, rfl⟩ := same
  exact next b

theorem followsRead (r : Outcome α) (kept : m.Kept n) :
    Follows m (Returns n) r ((liftM r : Act α).run n) := by
  cases r with
  | ok a => exact .ok ⟨rfl, rfl⟩
  | error fault => exact .error fault kept

def Collects (m : Memory) (before : Captures) (part : α × Captures) (a : α)
    (n : Memory) : Prop :=
  a = part.1 ∧ n = m.keeping (before.union part.2)

theorem Follows.collect {after : γ → δ → Memory → Prop} {r : Outcome (α × Captures)} {x : Act α}
    {f : α × Captures → Outcome γ} {g : α → Act δ} {before : Captures}
    (first : Follows m (Collects m before) r (x.run n))
    (next : ∀ a captures, r = .ok (a, captures) →
      Follows m after (f (a, captures)) ((g a).run (m.keeping (before.union captures)))) :
    Follows m after (r >>= f) ((x >>= g).run n) := by
  refine first.bind fun part b p made collected => ?_
  obtain ⟨rfl, rfl⟩ := collected
  exact next part.1 part.2 made

end Acts

namespace Act

section Steps

variable {α β : Type} {m n : Memory} {ref : Ref} {env : Environment}

theorem afterDone {x : Act α} {a : α} (done : x.run m = .ok a n) (g : α → Act β) :
    (x >>= g).run m = (g a).run n := by
  change EStateM.bind x g m = g a n
  change x m = .ok a n at done
  rw [EStateM.bind, done]

theorem lookDone (ref : Ref) (m : Memory) : (look ref).run m = .ok (m.environment ref) m := rfl

theorem enterDone (m : Memory) : enter.run m = .ok (.call m.calls.size) (m.entered .empty) := rfl

theorem lookEntered (holds : m.Holds ref) (env : Environment) :
    (look ref).run (m.entered env) = .ok (m.environment ref) (m.entered env) := by
  rw [lookDone, enteredEnvironment holds]

theorem writeNew (m : Memory) (env : Environment) (f : Environment → Environment) :
    (write (.call m.calls.size) f).run (m.entered env) = .ok ⟨⟩ (m.entered (f env)) := by
  rw [← changeNew]
  rfl

theorem leaveDone (m : Memory) (env : Environment) : leave.run (m.entered env) = .ok ⟨⟩ m := by
  have popped : (m.entered env).calls.pop = m.calls := Array.pop_push ..
  change EStateM.Result.ok _ { m with calls := (m.entered env).calls.pop } = _
  rw [popped]

theorem adoptAll (m : Memory) (captures : Captures) (env : Environment) :
    (captures.forM fun entry => write (.call m.calls.size) (·.adopt entry.1 entry.2)).run
        (m.entered env)
      = .ok ⟨⟩ (m.entered (captures.foldl (fun env entry => env.adopt entry.1 entry.2) env)) := by
  induction captures generalizing env with
  | nil => rfl
  | cons entry rest ih =>
      rw [List.forM, afterDone (writeNew m env _)]
      exact ih _

end Steps

variable {m : Memory} {ref : Ref}

theorem bindArgumentsFollows (holds : m.Holds ref) {eval : Expr → Outcome Number}
    {act : Expr → Act Number}
    (each : ∀ e inner, Follows m (Returns (m.entered inner)) (eval e)
      ((act e).run (m.entered inner)))
    (arguments : List (Name × Expr)) (inner : Environment) :
    Follows m (fun env _ n => n = m.entered env)
      (LiterateMath.bindArguments eval (m.environment ref) inner arguments)
      ((arguments.forM fun argument =>
        bindArgument act ref (.call m.calls.size) argument.1 argument.2).run
          (m.entered inner)) := by
  induction arguments generalizing inner with
  | nil => exact .ok rfl
  | cons argument rest ih =>
      obtain ⟨param, arg⟩ := argument
      have read (g : Environment → Act PUnit) : (look ref >>= g).run (m.entered inner)
          = (g (m.environment ref)).run (m.entered inner) := afterDone (lookEntered holds inner) g
      rw [List.forM, LiterateMath.bindArguments]
      cases found : (m.environment ref).functionArgument? arg with
      | some s =>
          have bound : (bindArgument act ref (.call m.calls.size) param arg).run (m.entered inner)
              = .ok ⟨⟩ (m.entered (inner.adopt param s)) := by
            rw [bindArgument, read, found]
            exact writeNew m inner _
          rw [afterDone bound]
          exact ih _
      | none =>
          have bound : Follows m
              (fun value _ n => n = m.entered (inner.bindVariable param value)) (eval arg)
              ((bindArgument act ref (.call m.calls.size) param arg).run (m.entered inner)) := by
            rw [bindArgument, read, found]
            refine (each arg inner).finish fun value _ _ same => ?_
            obtain ⟨rfl, rfl⟩ := same
            exact ⟨⟨⟩, _, writeNew m inner _, rfl⟩
          refine bound.bind fun value _ _ _ same => ?_
          subst same
          exact ih _

theorem evaluateFollows (holds : m.Holds ref) (limit : Nat) (e : Expr) :
    Follows m (Returns m) (LiterateMath.evaluate limit (m.environment ref) e)
      ((evaluate limit ref e).run m) := by
  induction limit generalizing m ref e with
  | zero => exact .error _ (.refl m)
  | succ limit ih =>
      have read (r : Outcome Number) : Follows m (Returns m) r ((liftM r : Act Number).run m) :=
        followsRead r (.refl m)
      cases e with
      | literal value place => exact .ok ⟨rfl, rfl⟩
      | lookup name place => exact read _
      | unary op arg place => exact (ih holds arg).andThen fun _ => read _
      | binary op lhs rhs place =>
          exact (ih holds lhs).andThen fun _ => (ih holds rhs).andThen fun _ => read _
      | conditional condition ifTrue ifFalse place =>
          refine (ih holds condition).andThen fun value => ?_
          refine (followsRead (conditionHolds value) (.refl m)).andThen fun test => ?_
          cases test with
          | true => exact ih holds ifTrue
          | false => exact ih holds ifFalse
      | call function args place =>
          have known : Follows m (Returns m) ((m.environment ref).lookupFunction function)
              ((look ref >>= fun env => liftM (env.lookupFunction function)).run m) :=
            followsRead _ (.refl m)
          refine known.andThen fun callee => ?_
          by_cases unfitting : args.length ≠ callee.params.length
          · rw [if_pos unfitting, if_pos unfitting]
            exact .error _ (.refl m)
          · have each (e : Expr) (inner : Environment) : Follows m (Returns (m.entered inner))
                (LiterateMath.evaluate limit (m.environment ref) e)
                ((evaluate limit ref e).run (m.entered inner)) := by
              have entered := ih ((keptEntered m inner).held ref holds).1 e
              rw [enteredEnvironment holds] at entered
              exact entered.weaken (keptEntered m inner) fun _ _ _ same => same
            rw [if_neg unfitting, if_neg unfitting, afterDone (enterDone m),
              afterDone (adoptAll m callee.captures .empty), afterDone (lookEntered holds _),
              afterDone (writeNew m _ _)]
            refine (bindArgumentsFollows holds each _ _).bind fun inner _ _ _ same => ?_
            subst same
            have body := ih (newHeld m inner) callee.body
            rw [newEnvironment] at body
            refine (body.weaken (keptEntered m inner) fun _ _ _ same => same).finish ?_
            rintro value _ _ ⟨rfl, rfl⟩
            exact ⟨_, m, by rw [afterDone (leaveDone m inner)]; rfl, rfl, rfl⟩

section Condensing

variable {s : Scope} {before : Captures}

theorem lookKeeping (ref : Ref) (m : Memory) (captures : Captures) :
    (look ref).run (m.keeping captures) = .ok (m.environment ref) (m.keeping captures) := by
  cases ref <;> rfl

theorem captureFollows (same : m.environment ref = s.env) (kept : s.Captured before) (name : Name) :
    Follows m (fun more _ n => n = m.keeping (before.union more)) (s.capture name)
      ((capture ref name).run (m.keeping before)) := by
  have found : captured.run (m.keeping before) = .ok before (m.keeping before) := rfl
  rw [capture, afterDone found]
  cases had : before.contains name with
  | true =>
      obtain ⟨⟨known, t⟩, member, named⟩ := Table.containsMember had
      have snapped := (kept _ member).2
      rw [named] at snapped
      have nothing : before.union [(name, t)] = before := by
        simp [Table.union, had]
      rw [Scope.capture, snapped]
      exact .ok (congrArg m.keeping nothing.symm)
  | false =>
      rw [if_neg Bool.false_ne_true, afterDone (lookKeeping ref m before), same, Scope.capture]
      refine (followsRead (s.env.snapshot name) (keptKeeping m before)).andThen fun t => ?_
      have added : before ++ [(name, t)] = before.union [(name, t)] := by
        simp [Table.union, had]
      exact .ok (congrArg m.keeping added)

theorem condenseArgumentsFollows {make : Expr → Outcome (Expr × Captures)} {act : Expr → Act Expr}
    (captured : ∀ e a captures, make e = .ok (a, captures) → s.Captured captures)
    (each : ∀ e before, s.Captured before →
      Follows m (Collects m before) (make e) ((act e).run (m.keeping before)))
    (args : List Expr) (kept : s.Captured before) :
    Follows m (Collects m before) (condenseArguments make args)
      ((args.mapM act).run (m.keeping before)) := by
  induction args generalizing before with
  | nil => exact .ok ⟨rfl, by rw [Table.unionNil]⟩
  | cons arg rest ih =>
      rw [List.mapM_cons, condenseArguments]
      refine (each arg before kept).collect fun a first made => ?_
      refine (ih (kept.union (captured arg a first made))).collect fun b more _ => ?_
      exact .ok ⟨rfl, by rw [Table.unionAssoc]⟩

theorem condenseFollows (holds : m.Holds ref) (same : m.environment ref = s.env) (limit : Nat)
    (e : Expr) (kept : s.Captured before) :
    Follows m (Collects m before) (LiterateMath.condense s limit e)
      ((condense ref s.locals limit e).run (m.keeping before)) := by
  obtain ⟨env, locals⟩ := s
  induction limit generalizing e before with
  | zero => exact .error _ (keptKeeping m before)
  | succ limit ih =>
      have look' (before : Captures) (g : Environment → Act Expr) :
          (look ref >>= g).run (m.keeping before) = (g env).run (m.keeping before) := by
        rw [afterDone (lookKeeping ref m before), same]
      have nothing (e : Expr) : Follows m (Collects m before) (.ok (e, []))
          ((pure e : Act Expr).run (m.keeping before)) := .ok ⟨rfl, by rw [Table.unionNil]⟩
      cases e with
      | literal value place => exact nothing _
      | lookup name place =>
          rw [condense, look', LiterateMath.condense, condenseMaking]
          dsimp only
          cases Scope.isLocal ⟨env, locals⟩ name with
          | true => exact nothing _
          | false =>
              cases env.namesFunction name with
              | true =>
                  refine (captureFollows same kept name).bind fun _ _ _ _ same => ?_
                  exact .ok ⟨rfl, same⟩
              | false =>
                  refine (followsRead _ (keptKeeping m before)).andThen fun value => ?_
                  exact nothing _
      | unary op arg place =>
          exact (ih arg kept).collect fun a captures _ => .ok ⟨rfl, rfl⟩
      | binary op lhs rhs place =>
          refine (ih lhs kept).collect fun a first made => ?_
          refine (ih rhs (kept.union (Scope.condenseCaptured made))).collect fun b second _ => ?_
          exact .ok ⟨rfl, by rw [Table.unionAssoc]⟩
      | conditional condition ifTrue ifFalse place =>
          refine (ih condition kept).collect fun a first made => ?_
          have kept := kept.union (Scope.condenseCaptured made)
          refine (ih ifTrue kept).collect fun b second made => ?_
          have kept := kept.union (Scope.condenseCaptured made)
          refine (ih ifFalse kept).collect fun c third _ => ?_
          exact .ok ⟨rfl, by simp only [Table.unionAssoc]⟩
      | call function args place =>
          rw [condense, LiterateMath.condense, condenseMaking]
          refine (condenseArgumentsFollows (fun _ _ _ => Scope.condenseCaptured)
            (fun e _ => ih e) args kept).collect fun bodies captures made => ?_
          rw [look']
          dsimp only
          cases Scope.isLocal ⟨env, locals⟩ function with
          | true => exact .ok ⟨rfl, rfl⟩
          | false =>
              cases bodies.all (Scope.settled ⟨env, locals⟩) with
              | true =>
                  have kept := keptKeeping m (before.union captures)
                  have value := evaluateFollows (kept.held ref holds).1 limit
                    (.call function bodies place)
                  rw [(kept.held ref holds).2, same] at value
                  refine (value.weaken kept fun _ _ _ same => same).andThen fun value => ?_
                  exact .ok ⟨rfl, rfl⟩
              | false =>
                  obtain ⟨parts, each, -, rfl⟩ := condenseArgumentsParts made
                  have kept := kept.union (.ofParts (each.imp fun _ _ => Scope.condenseCaptured))
                  refine (captureFollows same kept function).bind fun more _ _ _ same => ?_
                  exact .ok ⟨rfl, by rw [same, Table.unionAssoc]⟩

end Condensing
end Act

section Statements

variable {limit : Nat} {strict : Bool} {m : Memory}

def Finishes (m : Memory) (done : Environment × Option String) (_ : Unit) (n : Memory) : Prop :=
  n.session = done.1 ∧ n.shown = m.shown ++ done.2.toList

theorem performFollows (limit : Nat) (strict : Bool) (m : Memory) (statement : Statement) :
    Follows m (Finishes m) (statement.run limit strict m.session)
      ((statement.perform limit strict).run m) := by
  have holds : m.Holds .session := trivial
  cases statement with
  | expression e =>
      refine (Act.evaluateFollows holds limit e).andThen fun value => ?_
      refine (followsRead value.render (.refl m)).andThen fun line => ?_
      exact .ok ⟨rfl, rfl⟩
  | valueDeclaration name e place =>
      refine (Act.evaluateFollows holds limit e).andThen fun value => ?_
      exact .ok ⟨rfl, (List.append_nil _).symm⟩
  | functionDeclaration d => exact .ok ⟨rfl, (List.append_nil _).symm⟩
  | setDeclaration name members place => exact .error _ (.refl m)
  | functionDefinition d =>
      rw [Statement.run, storedDefinition, Statement.perform,
        Act.afterDone (Act.lookDone .session m)]
      by_cases undeclared : (strict && !m.session.declarations.contains d.name) = true
      · rw [if_pos undeclared, environment, if_pos undeclared]
        exact .error _ (.refl m)
      · have none : (d.scope m.session).Captured [] := fun _ => List.not_mem_nil.elim
        have emptied : (Act.keepCaptures []).run m = .ok ⟨⟩ (m.keeping []) := rfl
        rw [if_neg undeclared, environment, if_neg undeclared, FunctionDefinition.condensed,
          bind_assoc, Act.afterDone emptied]
        refine (Act.condenseFollows holds rfl limit d.body none).collect fun body captures _ => ?_
        rw [Table.nilUnion]
        exact .ok ⟨rfl, (List.append_nil _).symm⟩

theorem performFails {statement : Statement} {fault : Fault} {left : Memory}
    (failed : (statement.perform limit strict).run m = .error fault left) : m.Kept left := by
  have follows := performFollows limit strict m statement
  rw [failed] at follows
  generalize statement.run limit strict m.session = result at follows
  cases follows with
  | error _ kept => exact kept

variable {s : Session} {statement : Statement}

theorem performStarted (limit : Nat) (s : Session) (statement : Statement) :
    Follows (.start s.env) (Finishes (.start s.env)) (statement.run limit s.strict s.env)
      ((statement.perform limit s.strict).run (.start s.env)) :=
  performFollows limit s.strict (.start s.env) statement

theorem performOk {env : Environment} {line : Option String}
    (done : statement.run limit s.strict s.env = .ok (env, line)) :
    ∃ m, (statement.perform limit s.strict).run (.start s.env) = .ok ⟨⟩ m ∧ m.session = env ∧
      m.shown = line.toList := by
  have follows := performStarted limit s statement
  rw [done] at follows
  generalize (statement.perform limit s.strict).run (.start s.env) = result at follows
  cases follows with
  | ok finishes => exact ⟨_, rfl, finishes⟩

theorem performError {fault : Fault}
    (failed : statement.run limit s.strict s.env = .error fault) :
    ∃ left, (statement.perform limit s.strict).run (.start s.env) = .error fault left ∧
      (Memory.start s.env).Kept left := by
  have follows := performStarted limit s statement
  rw [failed] at follows
  generalize (statement.perform limit s.strict).run (.start s.env) = result at follows
  cases follows with
  | error _ kept => exact ⟨_, rfl, kept⟩

end Statements

section Sessions

variable {limit : Nat} {s : Session} {statement : Statement}

def Run.following (lines : List String) (run : Run) : Run :=
  { run with output := lines ++ run.output }

theorem runOk {env : Environment} {line : Option String}
    (done : statement.run limit s.strict s.env = .ok (env, line)) (rest : List Statement) :
    s.run (statement :: rest) limit
      = (Session.run { s with env, index := s.index + 1 } rest limit).following line.toList := by
  obtain ⟨m, performed, rfl, shown⟩ := performOk done
  rw [Session.run, performed, ← shown]
  rfl

theorem runFails {fault : Fault} (failed : statement.run limit s.strict s.env = .error fault)
    (rest : List Statement) :
    s.run (statement :: rest) limit
      = ⟨{ s with index := s.index + 1 }, [],
          some ⟨fault, some (s.index + 1), statement.place⟩, rest⟩ := by
  obtain ⟨left, performed, kept⟩ := performError failed
  have same : left.session = s.env := (kept.held .session trivial).2
  rw [Session.run, performed]
  simp [same, kept.shown, Memory.start]

end Sessions
end LiterateMath
