import LiterateMath.Proofs.Closure

/-! What names are looked up in a call. Once its arguments are there, none is that is not bound
where it is looked up, since stored functions are closed: nothing is left for the environment of
the caller to decide. -/
namespace LiterateMath

section Asking

def Environment.binds (env : Environment) (name : Name) : Bool :=
  env.values.contains name || env.definitions.contains name

/-- While an expression is evaluated in an environment, `inner` is asked for a name. All parts of
an expression count, whether or not evaluation gets to them. -/
inductive Asks : Environment → Expr → Environment → Name → Prop where
  | lookup (env : Environment) (name : Name) (place : Option Span) :
      Asks env (.lookup name place) env name
  | call (env : Environment) (name : Name) (args : List Expr) (place : Option Span) :
      Asks env (.call name args place) env name
  | unary {env inner : Environment} {op : UnaryOperator} {arg : Expr} {place : Option Span}
      {name : Name} (within : Asks env arg inner name) : Asks env (.unary op arg place) inner name
  | left {env inner : Environment} {op : Connective} {lhs rhs : Expr} {place : Option Span}
      {name : Name} (within : Asks env lhs inner name) :
      Asks env (.binary op lhs rhs place) inner name
  | right {env inner : Environment} {op : Connective} {lhs rhs : Expr} {place : Option Span}
      {name : Name} (within : Asks env rhs inner name) :
      Asks env (.binary op lhs rhs place) inner name
  | condition {env inner : Environment} {condition ifTrue ifFalse : Expr} {place : Option Span}
      {name : Name} (within : Asks env condition inner name) :
      Asks env (.conditional condition ifTrue ifFalse place) inner name
  | ifTrue {env inner : Environment} {condition ifTrue ifFalse : Expr} {place : Option Span}
      {name : Name} (within : Asks env ifTrue inner name) :
      Asks env (.conditional condition ifTrue ifFalse place) inner name
  | ifFalse {env inner : Environment} {condition ifTrue ifFalse : Expr} {place : Option Span}
      {name : Name} (within : Asks env ifFalse inner name) :
      Asks env (.conditional condition ifTrue ifFalse place) inner name
  | argument {env inner : Environment} {function name : Name} {args : List Expr} {arg : Expr}
      {place : Option Span} (given : arg ∈ args) (within : Asks env arg inner name) :
      Asks env (.call function args place) inner name
  | body {env inner : Environment} {function name : Name} {args : List Expr}
      {place : Option Span} {limit : Nat} {callee : FunctionDefinition} {found : List Argument}
      (called : env.definitions.find? function = some callee)
      (fitting : args.length = callee.params.length)
      (given : args.mapM (env.argument (evaluate limit env)) = .ok found)
      (within : Asks (callee.entered (env.declarations.find? function) found) callee.body inner
        name) : Asks env (.call function args place) inner name

structure Environment.Suffices (env : Environment) (e : Expr) : Prop where
  closed : ∀ entry ∈ env.definitions, entry.2.Closed
  bound : ∀ name ∈ e.mentioned, env.binds name = true

def Argument.Closed : Argument → Prop
  | number _ => True
  | function s => s.2.Closed

namespace Environment

variable {env : Environment}

theorem Suffices.part {e part : Expr} (enough : env.Suffices e)
    (within : part.mentioned ⊆ e.mentioned) : env.Suffices part :=
  ⟨enough.closed, fun name member => enough.bound name (within member)⟩

theorem adoptBinds (env : Environment) (key name : Name) (s : Snapshot) :
    (env.adopt key s).binds name = (name == key || env.binds name) := by
  by_cases same : name = key <;>
    simp [binds, adopt, Table.contains, Table.findInsert, same]

theorem bindArgumentBinds (env : Environment) (param name : Name) (x : Argument) :
    (env.bindArgument param x).binds name = (name == param || env.binds name) := by
  cases x with
  | function s => exact env.adoptBinds param name s
  | number value =>
      by_cases same : name = param <;>
        simp [binds, bindArgument, bindVariable, Table.contains, Table.findInsert, same]

theorem bindAllBinds (env : Environment) {params : List Name} {found : List Argument}
    (oneEach : found.length = params.length) {name : Name}
    (known : name ∈ params ∨ env.binds name = true) :
    (env.bindAll (params.zip found)).binds name = true := by
  induction params generalizing env found with
  | nil => exact known.resolve_left (List.not_mem_nil)
  | cons param params ih =>
      cases found with
      | nil => cases oneEach
      | cons x found =>
          refine ih (env.bindArgument param x) (by simpa using oneEach) ?_
          rw [bindArgumentBinds]
          rcases known with inParams | before
          · rcases List.mem_cons.mp inParams with rfl | later
            · simp
            · exact .inl later
          · simp [before]

theorem adoptAllBinds (captures : Captures) (start : Environment) {name : Name}
    (known : captures.contains name = true ∨ start.binds name = true) :
    (captures.foldl (fun env entry => env.adopt entry.1 entry.2) start).binds name = true := by
  induction captures generalizing start with
  | nil => exact known.resolve_left (by simp [Table.contains, Table.find?])
  | cons entry rest ih =>
      obtain ⟨key, s⟩ := entry
      refine ih (start.adopt key s) ?_
      rw [adoptBinds]
      by_cases same : name = key
      · simp [same]
      · simpa [Table.contains, Table.findCons, same] using known

theorem adoptClosed (closed : ∀ entry ∈ env.definitions, entry.2.Closed) (key : Name)
    {s : Snapshot} (sound : s.2.Closed) :
    ∀ entry ∈ (env.adopt key s).definitions, entry.2.Closed := by
  intro entry member
  rcases Table.insertMember member with rfl | before
  · exact sound
  · exact closed entry before

theorem bindAllClosed (closed : ∀ entry ∈ env.definitions, entry.2.Closed) (params : List Name)
    {found : List Argument} (sound : ∀ x ∈ found, x.Closed) :
    ∀ entry ∈ (env.bindAll (params.zip found)).definitions, entry.2.Closed := by
  induction params generalizing env found with
  | nil => exact closed
  | cons param params ih =>
      cases found with
      | nil => exact closed
      | cons x found =>
          have first := sound x List.mem_cons_self
          refine ih ?_ fun later member => sound later (List.mem_cons_of_mem x member)
          cases x with
          | number value => exact closed
          | function s => exact adoptClosed closed param first

theorem adoptAllClosed (closed : ∀ entry ∈ env.definitions, entry.2.Closed) {captures : Captures}
    (sound : ∀ entry ∈ captures, entry.2.2.Closed) :
    ∀ entry ∈ (captures.foldl (fun env entry => env.adopt entry.1 entry.2) env).definitions,
      entry.2.Closed := by
  induction captures generalizing env with
  | nil => exact closed
  | cons first rest ih =>
      exact ih (adoptClosed closed first.1 (sound first List.mem_cons_self))
        fun later member => sound later (List.mem_cons_of_mem first member)

theorem argumentClosed (closed : ∀ entry ∈ env.definitions, entry.2.Closed)
    {eval : Expr → Outcome Number} {e : Expr} {x : Argument} (given : env.argument eval e = .ok x) :
    x.Closed := by
  unfold argument at given
  split at given
  · rename_i s named
    cases given
    cases e with
    | lookup name place =>
        rw [functionArgumentLookup] at named
        split at named
        · obtain ⟨d, found, rfl⟩ := Option.map_eq_some_iff.mp named
          exact closed _ (Table.findMember found)
        · cases named
    | _ => cases named
  · obtain ⟨value, _, last⟩ := bindIsOk.mp given
    cases last
    trivial

end Environment

theorem enteredSuffices {d : FunctionDefinition} (closed : d.Closed)
    (known : Option FunctionDeclaration) {found : List Argument}
    (oneEach : found.length = d.params.length) (sound : ∀ x ∈ found, x.Closed) :
    (d.entered known found).Suffices d.body := by
  obtain ⟨-, -, names, -, within⟩ := id closed
  have nothing : ∀ entry ∈ Environment.empty.definitions, entry.2.Closed := nofun
  refine ⟨Environment.bindAllClosed ?_ d.params sound, fun name member => ?_⟩
  · exact Environment.adoptClosed (Environment.adoptAllClosed nothing within) d.name closed
  · refine Environment.bindAllBinds _ oneEach ?_
    rw [FunctionDefinition.frame, Environment.adoptBinds]
    rcases names name member with inner | captured
    · rcases List.mem_cons.mp inner with rfl | param
      · simp
      · exact .inl param
    · simp [Environment.adoptAllBinds d.captures Environment.empty (.inl captured)]

theorem calleeSuffices {env : Environment} {function : Name} {callee : FunctionDefinition}
    {args : List Expr} {found : List Argument} {limit : Nat}
    (closed : ∀ entry ∈ env.definitions, entry.2.Closed)
    (called : env.definitions.find? function = some callee)
    (fitting : args.length = callee.params.length)
    (given : args.mapM (env.argument (evaluate limit env)) = .ok found)
    (known : Option FunctionDeclaration) : (callee.entered known found).Suffices callee.body := by
  refine enteredSuffices (closed _ (Table.findMember called)) known ?_ fun x member => ?_
  · exact (mapMEach given).length_eq.symm.trans fitting
  · obtain ⟨e, _, evaluated⟩ := mapMFrom given x member
    exact Environment.argumentClosed closed evaluated

theorem askedIsBound {env inner : Environment} {e : Expr} {name : Name}
    (asks : Asks env e inner name) (enough : env.Suffices e) : inner.binds name = true := by
  induction asks with
  | lookup env name place => exact enough.bound name List.mem_cons_self
  | call env name args place => exact enough.bound name List.mem_cons_self
  | unary _ ih => exact ih (enough.part (List.Subset.refl _))
  | left _ ih => exact ih (enough.part (List.subset_append_left _ _))
  | right _ ih => exact ih (enough.part (List.subset_append_right _ _))
  | condition _ ih =>
      exact ih (enough.part fun name member => by simp [Expr.mentioned, member])
  | ifTrue _ ih => exact ih (enough.part fun name member => by simp [Expr.mentioned, member])
  | ifFalse _ ih => exact ih (enough.part fun name member => by simp [Expr.mentioned, member])
  | argument given _ ih =>
      refine ih (enough.part fun name member => ?_)
      exact List.mem_cons_of_mem _ (Expr.mentionedWithin.mpr ⟨_, given, member⟩)
  | body called fitting given _ ih =>
      exact ih (calleeSuffices enough.closed called fitting given _)

end Asking

section Missing

def Fault.missing? : Fault → Option Name
  | missingVariable name | missingFunction name => some name
  | _ => none

def Environment.lacks (env : Environment) : Fault → Prop
  | .missingVariable name => env.values.find? name = none
  | .missingFunction name => env.definitions.find? name = none
  | _ => False

abbrev Nameless {α : Type} (o : Outcome α) : Prop :=
  FailsOnly (fun fault => fault.missing? = none) o

theorem FailsOnly.impossible {α : Type} {o : Outcome α} {fault : Fault} {name : Name}
    (nameless : Nameless o) (failed : o = .error fault) (missing : fault.missing? = some name) :
    False := by
  simp [nameless fault failed] at missing

namespace Number

theorem kindNameless (n : Number) : Nameless n.kind := by
  unfold kind
  split
  · exact .ok _
  · exact .error rfl

theorem toRealNameless (n : Number) : Nameless n.toReal := by
  unfold toReal
  split <;> try split
  all_goals first | exact .ok _ | exact .error rfl

theorem operandsNameless (a b : Number) : Nameless (operands a b) := by
  unfold operands
  split
  · exact .ok _
  · refine (kindNameless _).bind fun ka _ => (kindNameless _).bind fun kb _ => ?_
    split
    · exact (toRealNameless _).bind fun x _ => (toRealNameless _).bind fun y _ => .ok _
    · exact .error rfl

theorem realPowerNameless (a b : Float) : Nameless (realPower a b) := by
  unfold realPower
  repeat' split
  all_goals first | exact .ok _ | exact .error rfl

theorem integerPowerNameless (a b : Int) : Nameless (integerPower a b) := by
  unfold integerPower
  split
  · exact .ok _
  · split
    · exact .error rfl
    · exact (toRealNameless _).bind fun x _ => (toRealNameless _).bind fun y _ =>
        realPowerNameless x y

theorem arithmeticNameless {op : BinaryOperator} {meaning : Operands → Outcome Number}
    (found : arithmetic? op = some meaning) (ops : Operands) : Nameless (meaning ops) := by
  unfold arithmetic? at found
  split at found
  case h_4 =>
    cases found
    cases ops with
    | integers a b =>
        dsimp only
        unfold quotient
        split
        · exact .error rfl
        · exact .ok _
    | reals a b =>
        dsimp only
        split
        · exact .error rfl
        · exact .ok _
  case h_5 =>
    cases found
    cases ops with
    | integers a b => exact integerPowerNameless a b
    | reals a b => exact realPowerNameless a b
  case h_6 => cases found
  all_goals
    cases found
    cases ops <;> exact .ok _

end Number

theorem combineNameless (c : Connective) (a b : Number) : Nameless (c.combine a b) := by
  unfold Connective.combine
  cases means : c.meaning? with
  | none => exact .error rfl
  | some meaning =>
      refine (Number.operandsNameless a b).bind fun ops _ => ?_
      cases c with
      | operator op => exact Number.arithmeticNameless means ops
      | relation r =>
          obtain ⟨test, _, rfl⟩ := Option.map_eq_some_iff.mp means
          exact .ok _

theorem applyNameless (op : Operation) (a : Number) : Nameless (op.apply a) := by
  unfold Operation.apply
  split
  · split
    · exact .ok _
    · exact .ok _
    · exact (Number.kindNameless _).bind fun k _ => .error rfl
  · exact .error rfl

theorem conditionNameless (value : Number) : Nameless (conditionHolds value) := by
  unfold conditionHolds
  split
  · exact .ok _
  · exact (Number.kindNameless _).bind fun k _ => .error rfl

theorem argumentFails {env : Environment} {eval : Expr → Outcome Number} {e : Expr} {fault : Fault}
    (failed : env.argument eval e = .error fault) : eval e = .error fault := by
  unfold Environment.argument at failed
  split at failed
  · cases failed
  · rcases bindFails.mp failed with inside | ⟨_, _, impossible⟩
    · exact inside
    · cases impossible

theorem missingAsked {limit : Nat} {env : Environment} {e : Expr} {fault : Fault} {name : Name}
    (failed : evaluate limit env e = .error fault) (missing : fault.missing? = some name) :
    ∃ inner, Asks env e inner name ∧ inner.lacks fault := by
  induction limit generalizing env e with
  | zero =>
      cases failed
      cases missing
  | succ limit ih =>
      cases e with
      | literal value place => cases failed
      | lookup key place =>
          rw [evaluate, Environment.lookupVariable] at failed
          split at failed
          · cases failed
          · rename_i unbound
            cases failed
            cases missing
            exact ⟨env, .lookup env name place, unbound⟩
      | unary op arg place =>
          rcases bindFails.mp failed with inside | ⟨value, _, applied⟩
          · exact (ih inside).imp fun inner found => ⟨.unary found.1, found.2⟩
          · exact ((applyNameless _ value).impossible applied missing).elim
      | binary op lhs rhs place =>
          rcases bindFails.mp failed with inLeft | ⟨a, _, failed⟩
          · exact (ih inLeft).imp fun inner found => ⟨.left found.1, found.2⟩
          · rcases bindFails.mp failed with inRight | ⟨b, _, combined⟩
            · exact (ih inRight).imp fun inner found => ⟨.right found.1, found.2⟩
            · exact ((combineNameless op a b).impossible combined missing).elim
      | conditional condition ifTrue ifFalse place =>
          rcases bindFails.mp failed with inCondition | ⟨value, _, failed⟩
          · exact (ih inCondition).imp fun inner found => ⟨.condition found.1, found.2⟩
          · rcases bindFails.mp failed with tested | ⟨holds, _, failed⟩
            · exact ((conditionNameless value).impossible tested missing).elim
            · split at failed
              · exact (ih failed).imp fun inner found => ⟨.ifTrue found.1, found.2⟩
              · exact (ih failed).imp fun inner found => ⟨.ifFalse found.1, found.2⟩
      | call function args place =>
          rw [evaluateCall] at failed
          cases called : env.definitions.find? function with
          | none =>
              simp only [Environment.lookupFunction, called] at failed
              cases failed
              cases missing
              exact ⟨env, .call env name args place, called⟩
          | some callee =>
              simp only [Environment.lookupFunction, called, bindOk] at failed
              split at failed
              · cases failed
                cases missing
              · rename_i oneEach
                rcases bindFails.mp failed with inArguments | ⟨found, given, inBody⟩
                · obtain ⟨_, arg, _, _, rfl, _, inArgument⟩ := mapMFails inArguments
                  obtain ⟨inner, asks, lacks⟩ := ih (argumentFails inArgument)
                  exact ⟨inner, .argument (by simp) asks, lacks⟩
                · obtain ⟨inner, asks, lacks⟩ := ih inBody
                  exact ⟨inner, .body called (not_not.mp oneEach) given asks, lacks⟩

end Missing

/-- What a parser reads has no parameter twice. Where programs of that kind have run, every stored
function goes by the name that it is stored under and is closed. When it is called, and its
arguments are there, its body looks up only names that are bound where they are looked up; what is
then said to be missing is bound, but to the other kind of thing. -/
theorem storedFunctionsClosed :
    (∀ (doc : Document) (statements : List Statement), doc.parse = .ok statements →
      ∀ statement ∈ statements, statement.ParametersDiffer) ∧
    ∀ s : Session, s.Reachable → s.env.StoresClosed ∧
      ∀ (function : Name) (d : FunctionDefinition) (args : List Expr) (found : List Argument)
        (limit : Nat), s.env.definitions.find? function = some d →
        args.length = d.params.length →
        args.mapM (s.env.argument (evaluate limit s.env)) = .ok found →
        let inside := d.entered (s.env.declarations.find? function) found
        (∀ inner name, Asks inside d.body inner name → inner.binds name = true) ∧
          ∀ limit fault name, evaluate limit inside d.body = .error fault →
            fault.missing? = some name →
            ∃ inner, Asks inside d.body inner name ∧ inner.lacks fault ∧
              inner.binds name = true := by
  refine ⟨fun doc statements parsed => parsedParametersDiffer parsed, fun s reachable => ?_⟩
  have stores := reachableClosed reachable
  refine ⟨stores, fun function d args found limit called oneEach given => ?_⟩
  have enough := calleeSuffices (fun entry member => (stores entry member).2) called oneEach given
    (s.env.declarations.find? function)
  refine ⟨fun inner name asks => askedIsBound asks enough, ?_⟩
  intro limit fault name failed missing
  obtain ⟨inner, asks, lacks⟩ := missingAsked failed missing
  exact ⟨inner, asks, lacks, askedIsBound asks enough⟩

def constantOne : FunctionDefinition where
  name := .text "f"
  params := [.text "n"]
  body := .literal (.integer 1) (some ⟨8, 9⟩)
  captures := []
  place := some ⟨3, 9⟩

def successor : FunctionDefinition where
  name := .greek .sigma
  params := [.greek .nu]
  body := .binary (.operator .addition) (.letter .nu) (.integer 1) none
  captures := []
  place := none

def relay : FunctionDefinition where
  name := .greek .rho
  params := [.greek .kappa]
  body := .call (.greek .sigma) [.letter .kappa] none
  captures := []
  place := none

def relays : List Statement := [.functionDefinition successor, .functionDefinition relay]

def storedRelay : FunctionDefinition :=
  { relay with captures := [(.greek .sigma, none, successor)] }

theorem relayClosed :
    (⟨"\\$(f(n)=1\\$)", none⟩ : Document).parse = .ok [.functionDefinition constantOne] ∧
      constantOne.params.Nodup ∧
      let s := ((Session.fresh false).run relays).session
      let inside := storedRelay.entered none [.function (none, successor)]
      s.env.definitions.find? (.greek .rho) = some storedRelay ∧ storedRelay.Closed ∧
        evaluate 9 inside storedRelay.body = .error (.missingVariable (.greek .nu)) ∧
        ∃ inner, Asks inside storedRelay.body inner (.greek .nu) ∧
          inner.values.find? (.greek .nu) = none ∧ inner.binds (.greek .nu) = true := by
  have parsed : (⟨"\\$(f(n)=1\\$)", none⟩ : Document).parse
      = .ok [.functionDefinition constantOne] := by cbv
  refine ⟨parsed, storedFunctionsClosed.1 _ _ parsed _ List.mem_cons_self, ?_⟩
  intro s inside
  have distinct : ∀ statement ∈ relays, statement.ParametersDiffer := by
    simp [relays, Statement.ParametersDiffer, successor, relay]
  have called : s.env.definitions.find? (.greek .rho) = some storedRelay := by rfl
  have failed : evaluate 9 inside storedRelay.body = .error (.missingVariable (.greek .nu)) := by
    rfl
  obtain ⟨closed, calls⟩ := storedFunctionsClosed.2 s (.run depthLimit (.fresh false) distinct)
  obtain ⟨inner, asks, lacks, binds⟩ :=
    (calls (.greek .rho) storedRelay [.letter .sigma] [.function (none, successor)] 1
      called rfl rfl).2 9 _ (.greek .nu) failed rfl
  exact ⟨called, (closed _ (Table.findMember called)).2, failed, inner, asks, lacks, binds⟩

end LiterateMath
