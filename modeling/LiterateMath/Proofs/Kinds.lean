import LiterateMath.Proofs.Arithmetic
import LiterateMath.Proofs.Asking
import LiterateMath.Proofs.Promotion

/-! Only integers and reals come up in a run. Literals are nothing else, operations on them give
nothing else, and what is stored, in variables and in the literals of functions and of what these
have captured, was computed from them. -/
namespace LiterateMath

namespace Expr

mutual

def literals : Expr → List Number
  | literal value _ => [value]
  | lookup .. => []
  | call _ args _ => literalsIn args
  | unary _ arg _ => arg.literals
  | binary _ lhs rhs _ => lhs.literals ++ rhs.literals
  | conditional condition ifTrue ifFalse _ =>
      condition.literals ++ ifTrue.literals ++ ifFalse.literals

def literalsIn : List Expr → List Number
  | [] => []
  | e :: rest => e.literals ++ literalsIn rest

end

def Plain (e : Expr) : Prop := ∀ value ∈ e.literals, value.isPlain = true

theorem plainCall {function : Name} {args : List Expr} {place : Option Span} :
    (call function args place).Plain ↔ ∀ e ∈ args, e.Plain := by
  simp only [Plain, literals]
  induction args with
  | nil => simp [literalsIn]
  | cons e rest ih => simp [literalsIn, or_imp, forall_and, ih]

theorem plainBinary {op : Connective} {lhs rhs : Expr} {place : Option Span} :
    (binary op lhs rhs place).Plain ↔ lhs.Plain ∧ rhs.Plain := by
  simp [Plain, literals, or_imp, forall_and]

theorem plainConditional {condition ifTrue ifFalse : Expr} {place : Option Span} :
    (conditional condition ifTrue ifFalse place).Plain
      ↔ condition.Plain ∧ ifTrue.Plain ∧ ifFalse.Plain := by
  simp [Plain, literals, or_imp, forall_and]

end Expr

inductive FunctionDefinition.Plain : FunctionDefinition → Prop where
  | intro {d : FunctionDefinition} (body : d.body.Plain)
      (within : ∀ entry ∈ d.captures, entry.2.2.Plain) : d.Plain

def Argument.Plain : Argument → Prop
  | number value => value.isPlain = true
  | function s => s.2.Plain

structure Environment.Plain (env : Environment) : Prop where
  values : ∀ entry ∈ env.values, entry.2.isPlain = true
  definitions : ∀ entry ∈ env.definitions, entry.2.Plain

def Statement.Plain : Statement → Prop
  | expression e => e.Plain
  | valueDeclaration _ value _ => value.Plain
  | functionDeclaration _ => True
  | setDeclaration _ members _ => ∀ e ∈ members, e.Plain
  | functionDefinition d => d.body.Plain

abbrev InKind {α : Type} (good : α → Prop) (o : Outcome α) : Prop :=
  Yields good (fun fault => fault.isOfKind = false) o

namespace Environment.Plain

variable {env : Environment}

theorem empty : Environment.empty.Plain := ⟨nofun, nofun⟩

theorem bindVariable (plain : env.Plain) (name : Name) {value : Number}
    (sound : value.isPlain = true) : (env.bindVariable name value).Plain := by
  refine ⟨fun entry member => ?_, plain.definitions⟩
  rcases Table.insertMember member with rfl | before
  · exact sound
  · exact plain.values entry before

theorem define (plain : env.Plain) {d : FunctionDefinition} (sound : d.Plain) :
    (env.define d).Plain := by
  refine ⟨plain.values, fun entry member => ?_⟩
  rcases Table.insertMember member with rfl | before
  · exact sound
  · exact plain.definitions entry before

theorem adopt (plain : env.Plain) (name : Name) {s : Snapshot} (sound : s.2.Plain) :
    (env.adopt name s).Plain := by
  refine ⟨plain.values, fun entry member => ?_⟩
  rcases Table.insertMember member with rfl | before
  · exact sound
  · exact plain.definitions entry before

theorem adoptAll (plain : env.Plain) {captures : Captures}
    (sound : ∀ entry ∈ captures, entry.2.2.Plain) :
    (captures.foldl (fun env entry => env.adopt entry.1 entry.2) env).Plain := by
  induction captures generalizing env with
  | nil => exact plain
  | cons first rest ih =>
      exact ih (plain.adopt first.1 (sound first List.mem_cons_self))
        fun later member => sound later (List.mem_cons_of_mem first member)

theorem bindAll (plain : env.Plain) (params : List Name) {found : List Argument}
    (sound : ∀ x ∈ found, x.Plain) : (env.bindAll (params.zip found)).Plain := by
  induction params generalizing env found with
  | nil => exact plain
  | cons param params ih =>
      cases found with
      | nil => exact plain
      | cons x found =>
          have first := sound x List.mem_cons_self
          refine ih ?_ fun later member => sound later (List.mem_cons_of_mem x member)
          cases x with
          | number value => exact plain.bindVariable param first
          | function s => exact plain.adopt param first

theorem entered {d : FunctionDefinition} (plain : d.Plain) (known : Option FunctionDeclaration)
    {found : List Argument} (sound : ∀ x ∈ found, x.Plain) : (d.entered known found).Plain := by
  obtain ⟨-, within⟩ := id plain
  exact ((empty.adoptAll within).adopt d.name plain).bindAll d.params sound

end Environment.Plain

section Evaluating

variable {env : Environment}

theorem lookupVariableEnds (plain : env.Plain) (name : Name) :
    InKind (fun value => value.isPlain = true) (env.lookupVariable name) := by
  unfold Environment.lookupVariable
  cases found : env.values.find? name with
  | none => exact .error rfl
  | some value => exact .ok (plain.values _ (Table.findMember found))

theorem lookupFunctionEnds (plain : env.Plain) (name : Name) :
    InKind FunctionDefinition.Plain (env.lookupFunction name) := by
  unfold Environment.lookupFunction
  cases found : env.definitions.find? name with
  | none => exact .error rfl
  | some d => exact .ok (plain.definitions _ (Table.findMember found))

theorem conditionEnds {value : Number} (plain : value.isPlain = true) :
    InKind (fun _ => True) (conditionHolds value) := by
  obtain ⟨i, rfl⟩ | ⟨x, rfl⟩ := Number.plainCases plain
  · exact .ok trivial
  · exact .error rfl

theorem argumentEnds (plain : env.Plain) {eval : Expr → Outcome Number} {e : Expr}
    (value : InKind (fun v => v.isPlain = true) (eval e)) :
    InKind Argument.Plain (env.argument eval e) := by
  unfold Environment.argument
  split
  · rename_i s named
    refine .ok ?_
    cases e with
    | lookup name place =>
        rw [Environment.functionArgumentLookup] at named
        split at named
        · obtain ⟨d, found, rfl⟩ := Option.map_eq_some_iff.mp named
          exact plain.definitions _ (Table.findMember found)
        · cases named
    | _ => cases named
  · exact value.bind fun v sound => .ok sound

theorem evaluateEnds (limit : Nat) {e : Expr} (plain : env.Plain) (literals : e.Plain) :
    InKind (fun value => value.isPlain = true) (evaluate limit env e) := by
  induction limit generalizing env e with
  | zero => exact .error rfl
  | succ limit ih =>
      cases e with
      | literal value place => exact .ok (literals value List.mem_cons_self)
      | lookup name place => exact lookupVariableEnds plain name
      | unary op arg place =>
          refine (ih (e := arg) plain literals).bind fun a sound => ?_
          exact (applyEnds (.unary op) sound).imp (fun _ result => result.1)
            fun _ fault => fault.inKind
      | binary op lhs rhs place =>
          obtain ⟨left, right⟩ := Expr.plainBinary.mp literals
          refine (ih plain left).bind fun a sound => (ih plain right).bind fun b sound' => ?_
          exact (op.combineEnds sound sound').imp (fun _ => id) fun _ fault => fault.inKind
      | conditional condition ifTrue ifFalse place =>
          obtain ⟨first, second, third⟩ := Expr.plainConditional.mp literals
          refine (ih plain first).bind fun value sound => (conditionEnds sound).bind ?_
          rintro holds -
          cases holds with
          | true => exact ih plain second
          | false => exact ih plain third
      | call function args place =>
          rw [evaluateCall]
          refine (lookupFunctionEnds plain function).bind fun callee sound => ?_
          split
          · exact .error rfl
          · have each : ∀ e ∈ args, InKind Argument.Plain (env.argument (evaluate limit env) e) :=
              fun e member =>
                argumentEnds plain (ih plain (Expr.plainCall.mp literals e member))
            refine (Yields.mapM each).bind fun found given => ?_
            obtain ⟨body, -⟩ := id sound
            exact ih (.entered sound _ given) body

end Evaluating

section Condensing

variable {s : Scope}

theorem captureEnds (name : Name) : InKind (fun _ => True) (s.capture name) := by
  simp only [Scope.capture, Environment.snapshot, Environment.lookupFunction]
  cases s.env.definitions.find? name with
  | none => exact .error rfl
  | some d => exact .ok trivial

theorem condenseArgumentsEnd {f : Expr → Outcome (Expr × Captures)} {args : List Expr}
    (each : ∀ e ∈ args, InKind (fun part => part.1.Plain) (f e)) :
    InKind (fun parts => ∀ e ∈ parts.1, e.Plain) (condenseArguments f args) := by
  induction args with
  | nil => exact .ok (by simp)
  | cons e rest ih =>
      refine (each e List.mem_cons_self).bind fun part first => ?_
      refine (ih fun later member => each later (List.mem_cons_of_mem e member)).bind ?_
      exact fun parts more => .ok (List.forall_mem_cons.mpr ⟨first, more⟩)

theorem condenseEnds (plain : s.env.Plain) (limit : Nat) {e : Expr} (literals : e.Plain) :
    InKind (fun part => part.1.Plain) (condense s limit e) := by
  induction limit generalizing e with
  | zero => exact .error rfl
  | succ limit ih =>
      cases e with
      | literal value place => exact .ok literals
      | lookup name place =>
          rw [condense, condenseMaking]
          split
          · exact .ok literals
          · split
            · exact (captureEnds name).bind fun _ _ => .ok literals
            · refine (lookupVariableEnds plain name).bind fun value sound => .ok ?_
              exact List.forall_mem_singleton.mpr sound
      | unary op arg place => exact (ih (e := arg) literals).bind fun part sound => .ok sound
      | binary op lhs rhs place =>
          obtain ⟨left, right⟩ := Expr.plainBinary.mp literals
          refine (ih left).bind fun one sound => (ih right).bind fun other sound' => .ok ?_
          exact Expr.plainBinary.mpr ⟨sound, sound'⟩
      | conditional condition ifTrue ifFalse place =>
          obtain ⟨first, second, third⟩ := Expr.plainConditional.mp literals
          refine (ih first).bind fun c sound => (ih second).bind fun t sound' =>
            (ih third).bind fun f sound'' => .ok ?_
          exact Expr.plainConditional.mpr ⟨sound, sound', sound''⟩
      | call function args place =>
          refine (condenseArgumentsEnd fun e member =>
            ih (Expr.plainCall.mp literals e member)).bind fun parts sound => ?_
          have waiting : (Expr.call function parts.1 place).Plain := Expr.plainCall.mpr sound
          dsimp only
          split
          · exact .ok waiting
          · split
            · refine (evaluateEnds limit plain waiting).bind fun value sound => .ok ?_
              exact List.forall_mem_singleton.mpr sound
            · exact (captureEnds function).bind fun _ _ => .ok waiting

theorem storedEnds (limit : Nat) (strict : Bool) {env : Environment} (plain : env.Plain)
    {d : FunctionDefinition} (literals : d.body.Plain) :
    InKind FunctionDefinition.Plain (storedDefinition limit strict env d) := by
  unfold storedDefinition
  split
  · exact .error rfl
  · have inside := condenseEnds (s := d.scope env) plain limit literals
    cases condensed : d.condensed limit env with
    | ok stored =>
        have captured := fun entry member => (storedCaptured condensed entry member).2
        obtain ⟨part, found, last⟩ := bindIsOk.mp condensed
        cases last
        refine .ok (.intro (inside.result found) fun entry member => ?_)
        exact plain.definitions _ (Table.findMember (captured entry member))
    | error fault =>
        rcases bindFails.mp condensed with failed | ⟨part, -, impossible⟩
        · exact .error (inside.fault failed)
        · cases impossible

end Condensing

section Running

variable {env : Environment} {statement : Statement}

theorem renderEnds {value : Number} (plain : value.isPlain = true) :
    InKind (fun _ => True) value.render := by
  obtain ⟨i, rfl⟩ | ⟨x, rfl⟩ := Number.plainCases plain <;> exact .ok trivial

theorem statementEnds (limit : Nat) (strict : Bool) (plain : env.Plain) (sound : statement.Plain) :
    InKind (fun done => done.1.Plain) (statement.run limit strict env) := by
  cases statement with
  | expression e =>
      refine (evaluateEnds limit plain sound).bind fun value good => ?_
      exact (renderEnds good).bind fun _ _ => .ok plain
  | valueDeclaration name e place =>
      refine (evaluateEnds limit (e := e) plain sound).bind fun value good => ?_
      exact .ok (plain.bindVariable name good)
  | functionDeclaration d => exact .ok ⟨plain.values, plain.definitions⟩
  | setDeclaration name members place => exact .error rfl
  | functionDefinition d =>
      exact (storedEnds limit strict plain sound).bind fun stored good => .ok (plain.define good)

variable {limit : Nat} {s : Session} {program : List Statement}

theorem runPlain (plain : s.env.Plain) (sound : ∀ statement ∈ program, statement.Plain) :
    (s.run program limit).session.env.Plain :=
  Session.runKeeps plain fun statement member _ _ _ plain done =>
    (statementEnds limit s.strict plain (sound statement member)).result done

theorem runFailsInKind (plain : s.env.Plain) (sound : ∀ statement ∈ program, statement.Plain)
    {failure : Failure} (failed : (s.run program limit).failure = some failure) :
    failure.fault.isOfKind = false := by
  induction program generalizing s with
  | nil => cases failed
  | cons statement rest ih =>
      have first := statementEnds limit s.strict plain (sound statement List.mem_cons_self)
      cases done : statement.run limit s.strict s.env with
      | error fault =>
          rw [runFails done] at failed
          cases failed
          exact first.fault done
      | ok result =>
          obtain ⟨next, line⟩ := result
          rw [runOk done] at failed
          exact ih (s := ⟨next, s.index + 1, s.strict⟩) (first.result done)
            (fun later member => sound later (List.mem_cons_of_mem statement member)) failed

inductive Session.PlainlyReached : Session → Prop where
  | fresh (strict : Bool) : PlainlyReached (.fresh strict)
  | run {s : Session} {program : List Statement} (limit : Nat) (before : s.PlainlyReached)
      (sound : ∀ statement ∈ program, statement.Plain) :
      PlainlyReached (s.run program limit).session

theorem reachedPlain (reached : s.PlainlyReached) : s.env.Plain := by
  induction reached with
  | fresh strict => exact .empty
  | run limit before sound plain => exact runPlain plain sound

end Running

section Parsing

mutual

theorem legiblePlain {e : Expr} (legible : e.legible) : e.Plain := by
  cases e with
  | literal value place =>
      refine List.forall_mem_singleton.mpr ?_
      cases value with
      | integer i => rfl
      | real x => rfl
      | _ => cases legible
  | lookup name place => exact nofun
  | call function args place => exact Expr.plainCall.mpr (legiblePlainAll legible.2)
  | unary op arg place => exact legiblePlain (e := arg) legible
  | binary op lhs rhs place =>
      exact Expr.plainBinary.mpr ⟨legiblePlain legible.1, legiblePlain legible.2⟩
  | conditional condition ifTrue ifFalse place =>
      exact Expr.plainConditional.mpr
        ⟨legiblePlain legible.1, legiblePlain legible.2.1, legiblePlain legible.2.2⟩

theorem legiblePlainAll {es : List Expr} (legible : legibleAll es) : ∀ e ∈ es, e.Plain := by
  cases es with
  | nil => exact nofun
  | cons e rest =>
      exact List.forall_mem_cons.mpr ⟨legiblePlain legible.1, legiblePlainAll legible.2⟩

end

theorem parsedPlain {doc : Document} {statements : List Statement}
    (parsed : doc.parse = .ok statements) : ∀ statement ∈ statements, statement.Plain := by
  intro statement member
  obtain ⟨code, reads, each⟩ := bindIsOk.mp parsed
  obtain ⟨slice, inCode, read⟩ := mapMFrom each statement member
  have legible := statementLegible read (sliceProper (codeTokensLexed reads) inCode)
  cases statement with
  | expression e => exact legiblePlain (e := e) legible
  | valueDeclaration name value place => exact legiblePlain legible.2
  | functionDeclaration d => trivial
  | setDeclaration name members place => exact legiblePlainAll legible.2
  | functionDefinition d => exact legiblePlain legible.2.2.2.1

end Parsing

/-- Operations on integers and reals end in an integer or a real, or in a fault that arithmetic
has: integers give integers but for a negative exponent, comparisons give integers, and an integer
beside a real is first made the real that is next to it, or refused if it is beyond all of them.
What a parser reads has no other literals, and where a session began with nothing and has only seen
such programs, nothing else is stored in it, and no run fails because of the kind of a number. -/
theorem onlyIntegersAndReals :
    (∀ (op : Operation) (a b : Number), a.isPlain = true → b.isPlain = true →
      Yields (fun n => n.isPlain = true) Fault.Arithmetical (op.combine a b)) ∧
    (∀ (op : Operation) (a : Number), a.isPlain = true →
      Yields (fun n => n.isPlain = true ∧ n.isInteger = a.isInteger) Fault.Arithmetical
        (op.apply a)) ∧
    (∀ (op : Operation) (i j : Int), (op = .binary (.operator .exponent) → 0 ≤ j) →
      Yields (fun n => n.isInteger = true) Fault.Arithmetical
        (op.combine (.integer i) (.integer j))) ∧
    (∀ (r : Relation) (a b : Number), a.isPlain = true → b.isPlain = true →
      Yields (fun n => n.isInteger = true) Fault.Arithmetical
        ((Operation.binary (.relation r)).combine a b)) ∧
    (∀ (c : Connective) (i : Int) (x : Float), c.meaning?.isSome = true →
      (Operation.binary c).combine (.integer i) (.real x) = (do
        let promoted ← Number.toReal (.integer i)
        (Operation.binary c).combine (.real promoted) (.real x)) ∧
      (Operation.binary c).combine (.real x) (.integer i) = (do
        let promoted ← Number.toReal (.integer i)
        (Operation.binary c).combine (.real x) (.real promoted))) ∧
    (∀ i : Int,
      (i.natAbs < Real.beyond → Number.toReal (.integer i) = .ok (Float.ofInt i) ∧
        Real.NextTo i (Float.ofInt i).toModel.unpack) ∧
      (Real.beyond ≤ i.natAbs → Number.toReal (.integer i)
        = .error (.mismatch (.integerTooLarge (Text.digitCount i.natAbs))))) ∧
    (∀ (doc : Document) (statements : List Statement), doc.parse = .ok statements →
      ∀ statement ∈ statements, statement.Plain) ∧
    ∀ s : Session, s.PlainlyReached → s.env.Plain ∧
      ∀ (program : List Statement) (limit : Nat), (∀ statement ∈ program, statement.Plain) →
        ∀ failure, (s.run program limit).failure = some failure →
          failure.fault.isOfKind = false := by
  refine ⟨fun op _ _ => operationEnds op, fun op _ => applyEnds op, ?_,
    fun r _ _ => Connective.combineRelation r, ?_, Real.promotionNext,
    fun _ _ => parsedPlain, fun s reached => ⟨reachedPlain reached, ?_⟩⟩
  · intro op i j natural
    cases op with
    | unary u => exact .error (.unsupported _)
    | binary c => exact c.combineIntegers i fun same => natural (congrArg Operation.binary same)
  · exact fun c i x implemented => ⟨Connective.combineIntegerReal implemented i x,
      Connective.combineRealInteger implemented x i⟩
  · exact fun program limit sound failure => runFailsInKind (reachedPlain reached) sound

def threeAndTwo : List Statement :=
  [.functionDefinition ⟨.text "a", [.text "x"], .literal (.integer 3) (some ⟨8, 9⟩), [],
      some ⟨3, 9⟩⟩,
   .valueDeclaration (.text "n")
      (.binary (.operator .subtraction) (.literal (.integer 7) (some ⟨12, 13⟩))
        (.literal (.integer 5) (some ⟨14, 15⟩)) (some ⟨12, 15⟩)) (some ⟨10, 15⟩)]

def threeCaptured : List Statement :=
  [.functionDefinition ⟨.text "b", [.text "x"],
      .binary (.operator .exponent) (.call (.text "a") [.lookup (.text "x") none] none)
        (.lookup (.text "n") none) none, [], none⟩,
   .valueDeclaration (.text "m") (.call (.text "b") [.integer 1] none) none,
   .expression (.binary (.operator .division) (.lookup (.text "m") none) (.integer 0) none)]

theorem capturesStayPlain :
    (⟨"\\$(a(x)=3,n=7-5\\$)", none⟩ : Document).parse = .ok threeAndTwo ∧
      let before := ((Session.fresh false).run threeAndTwo).session
      (before.run threeCaptured).session.env.Plain ∧
      (before.run threeCaptured).session.env.values
        = [(.text "m", .integer 9), (.text "n", .integer 2)] ∧
      (before.run threeCaptured).failure = some ⟨.divisionByZero, some 5, none⟩ ∧
      Fault.isOfKind .divisionByZero = false := by
  obtain ⟨-, -, -, -, -, -, read, reached⟩ := onlyIntegersAndReals
  have parsed : (⟨"\\$(a(x)=3,n=7-5\\$)", none⟩ : Document).parse = .ok threeAndTwo := by cbv
  have plain : ∀ statement ∈ threeCaptured, statement.Plain := by
    simp [threeCaptured, Statement.Plain, Expr.Plain, Expr.literals, Expr.literalsIn,
      Expr.integer, Number.isPlain, Number.isInteger]
  have first := Session.PlainlyReached.run depthLimit (.fresh false) (read _ _ parsed)
  have failed : (Session.run ((Session.fresh false).run threeAndTwo).session threeCaptured).failure
      = some ⟨.divisionByZero, some 5, none⟩ := by cbv
  exact ⟨parsed, (reached _ (.run depthLimit first plain)).1, by cbv, failed,
    (reached _ first).2 threeCaptured depthLimit plain _ failed⟩

end LiterateMath
