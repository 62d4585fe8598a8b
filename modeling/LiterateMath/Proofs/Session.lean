import LiterateMath.Proofs.Performing

/-! What a program does to the definitions of a session, and what a call on numbers depends on:
the stored definition alone. -/
namespace LiterateMath

theorem condensedSignature {limit : Nat} {env : Environment} {d stored : FunctionDefinition}
    (condensed : d.condensed limit env = .ok stored) :
    stored.name = d.name ∧ stored.params = d.params := by
  obtain ⟨result, _, last⟩ := bindIsOk.mp condensed
  cases last
  exact ⟨rfl, rfl⟩

theorem storedName {limit : Nat} {strict : Bool} {env : Environment} {d stored : FunctionDefinition}
    (ok : storedDefinition limit strict env d = .ok stored) : stored.name = d.name := by
  unfold storedDefinition at ok
  split at ok
  · cases ok
  · exact (condensedSignature ok).1

namespace Statement

def defines (name : Name) : Statement → Bool
  | functionDefinition d => d.name = name
  | _ => false

inductive Does (limit : Nat) (strict : Bool) (env : Environment) :
    Statement → Environment → Option String → Prop where
  | shows {e : Expr} {value : Number} {line : String}
      (found : evaluate limit env e = .ok value) (rendered : value.render = .ok line) :
      Does limit strict env (expression e) env (some line)
  | binds {e : Expr} {value : Number} (name : Name) (place : Option Span)
      (found : evaluate limit env e = .ok value) :
      Does limit strict env (valueDeclaration name e place) (env.bindVariable name value) none
  | declares (d : FunctionDeclaration) :
      Does limit strict env (functionDeclaration d) (env.declare d) none
  | defines {d stored : FunctionDefinition}
      (found : storedDefinition limit strict env d = .ok stored) :
      Does limit strict env (functionDefinition d) (env.define stored) none

variable {limit : Nat} {strict : Bool} {env next : Environment} {line : Option String}
  {statement : Statement}

theorem runDoes (ok : statement.run limit strict env = .ok (next, line)) :
    statement.Does limit strict env next line := by
  cases statement with
  | expression e =>
    obtain ⟨value, found, ok⟩ := bindIsOk.mp ok
    obtain ⟨shown, rendered, last⟩ := bindIsOk.mp ok
    cases last
    exact .shows found rendered
  | functionDeclaration d => cases ok; exact .declares d
  | valueDeclaration name e place =>
    obtain ⟨value, found, last⟩ := bindIsOk.mp ok
    cases last
    exact .binds name place found
  | setDeclaration name members place => cases ok
  | functionDefinition d =>
    obtain ⟨stored, found, last⟩ := bindIsOk.mp ok
    cases last
    exact .defines found

theorem runKeepsDefinition {name : Name} (ok : statement.run limit strict env = .ok (next, line))
    (untouched : statement.defines name = false) :
    next.definitions.find? name = env.definitions.find? name := by
  cases runDoes ok with
  | @defines d stored found =>
    have different : name ≠ stored.name := by
      rw [storedName found]
      simpa [defines, eq_comm] using untouched
    simp [Environment.define, Table.findInsert, different]
  | _ => rfl

end Statement

theorem Session.runKeeps {P : Environment → Prop} {limit : Nat} {s : Session}
    {program : List Statement} (start : P s.env)
    (step : ∀ statement ∈ program, ∀ env next line, P env →
      statement.run limit s.strict env = .ok (next, line) → P next) :
    P (s.run program limit).session.env := by
  induction program generalizing s with
  | nil => exact start
  | cons statement rest ih =>
    cases first : statement.run limit s.strict s.env with
    | error fault => rwa [runFails first]
    | ok result =>
      obtain ⟨env, line⟩ := result
      rw [runOk first]
      refine ih (step statement List.mem_cons_self _ _ _ start first) ?_
      exact fun later member => step later (List.mem_cons_of_mem statement member)

theorem Session.runKeepsDefinition {name : Name} (s : Session) (program : List Statement)
    (limit : Nat) (untouched : ∀ statement ∈ program, statement.defines name = false) :
    (s.run program limit).session.env.definitions.find? name = s.env.definitions.find? name :=
  runKeeps (P := fun env => env.definitions.find? name = s.env.definitions.find? name) rfl
    fun statement member _ _ _ kept done =>
      (statement.runKeepsDefinition done (untouched statement member)).trans kept

def Expr.isLiteral : Expr → Bool
  | literal .. => true
  | _ => false

theorem argumentLiteral {e : Expr} (given : e.isLiteral = true) (a b : Environment)
    (limit : Nat) :
    Agree False False Argument.Alike (a.argument (evaluate limit a) e)
      (b.argument (evaluate limit b) e) := by
  cases e with
  | literal value place =>
    cases limit with
    | zero => exact .error _
    | succ limit => exact .ok (.number value)
  | _ => cases given

theorem literalCallsAgree {a b : Environment} {f g : Name} {d : FunctionDefinition}
    (inA : a.definitions.find? f = some d) (inB : b.definitions.find? g = some d)
    {args : List Expr} (literals : args.all Expr.isLiteral) (limit : Nat) (p q : Option Span)
    (shown : f = g ∨ limit = 0 ∨ args.length = d.params.length) :
    evaluate limit a (.call f args p) = evaluate limit b (.call g args q) := by
  cases limit with
  | zero => rfl
  | succ limit =>
    have shown : f = g ∨ ∃ d, b.definitions.find? g = some d ∧ args.length = d.params.length := by
      rcases shown with same | none | fitting
      · exact .inl same
      · cases none
      · exact .inr ⟨d, inB, fitting⟩
    have arguments : List.Forall₂ (fun x y => Agree False False Argument.Alike
        (a.argument (evaluate limit a) x) (b.argument (evaluate limit b) y)) args args :=
      List.forall₂_same.mpr fun e member =>
        argumentLiteral (List.all_eq_true.mp literals e member) a b limit
    have calls := callAgree (inA.trans inB.symm) p q shown arguments
      fun alike e => evaluateAlike alike limit e
    exact calls.same False.elim False.elim

theorem literalCallCount {env : Environment} {f : Name} {d : FunctionDefinition}
    (found : env.definitions.find? f = some d) {args : List Expr}
    (unfitting : args.length ≠ d.params.length) {limit : Nat} (positive : limit ≠ 0)
    (place : Option Span) :
    evaluate limit env (.call f args place) =
      .error (.mismatch (.argumentCount f d.params.length args.length)) := by
  obtain ⟨limit, rfl⟩ := Nat.exists_eq_succ_of_ne_zero positive
  simp [evaluateCall, Environment.lookupFunction, found, unfitting]

/-- A call that gives its function as many literals as it takes is decided by the definition; only
where the count is wrong does the name that was called show. The definition is what it was as
long as no statement defines that name again. -/
theorem callDecidedByDefinition :
    (∀ (a b : Environment) (f g : Name) (d : FunctionDefinition),
      a.definitions.find? f = some d → b.definitions.find? g = some d →
      ∀ (args : List Expr), args.all Expr.isLiteral → ∀ (limit : Nat) (p q : Option Span),
        (limit = 0 ∨ args.length = d.params.length →
          evaluate limit a (.call f args p) = evaluate limit b (.call g args q)) ∧
        (limit ≠ 0 → args.length ≠ d.params.length →
          evaluate limit a (.call f args p) =
            .error (.mismatch (.argumentCount f d.params.length args.length)) ∧
          evaluate limit b (.call g args q) =
            .error (.mismatch (.argumentCount g d.params.length args.length)))) ∧
    (∀ (s : Session) (f : Name) (d : FunctionDefinition), s.env.definitions.find? f = some d →
      ∀ (program : List Statement) (bound : Nat),
        (∀ statement ∈ program, statement.defines f = false) →
      ∀ (args : List Expr), args.all Expr.isLiteral → ∀ (limit : Nat) (p : Option Span),
        evaluate limit (s.run program bound).session.env (.call f args p) =
          evaluate limit s.env (.call f args p)) := by
  constructor
  · intro a b f g d inA inB args literals limit p q
    refine ⟨fun fitting => ?_, fun positive unfitting => ⟨?_, ?_⟩⟩
    · exact literalCallsAgree inA inB literals limit p q (.inr fitting)
    · exact literalCallCount inA unfitting positive p
    · exact literalCallCount inB unfitting positive q
  · intro s f d found program bound untouched args literals limit p
    have after := (s.runKeepsDefinition program bound untouched).trans found
    exact literalCallsAgree after found literals limit p p (.inl rfl)

def Expr.integer (n : Int) : Expr := literal (.integer n) none

def Expr.letter (l : GreekLetter) : Expr := lookup (.greek l) none

def factorial : FunctionDefinition where
  name := .greek .phi
  params := [.greek .nu]
  body := .conditional (.binary (.relation .lessEq) (.letter .nu) (.integer 1) none) (.integer 1)
    (.binary (.operator .multiplication) (.letter .nu)
      (.call (.greek .phi)
        [.binary (.operator .subtraction) (.letter .nu) (.integer 1) none] none) none) none
  captures := []
  place := none

def factorialRenamed : Environment where
  values := [(.greek .nu, .integer 9)]
  declarations := [(.greek .psi, ⟨.greek .psi, .reals, .reals, none⟩)]
  definitions := [(.greek .psi, factorial), (.greek .phi, { factorial with body := .integer 0 })]

def factorialNamed : Environment := ⟨[], [], [(.greek .phi, factorial)]⟩

def aside : List Statement :=
  [.valueDeclaration (.greek .nu) (.integer 4) none,
   .functionDefinition { factorial with name := .greek .psi, body := .letter .nu },
   .expression (.letter .xi)]

theorem factorialDecidedByDefinition :
    factorialNamed.definitions.find? (.greek .phi) = some factorial ∧
    factorialRenamed.definitions.find? (.greek .psi) = some factorial ∧
    [Expr.integer 4].all Expr.isLiteral = true ∧
    [Expr.integer 4].length = factorial.params.length ∧
    (∀ statement ∈ aside, statement.defines (.greek .phi) = false) ∧
    evaluate 20 factorialNamed (.call (.greek .phi) [.integer 4] none) =
      evaluate 20 factorialRenamed (.call (.greek .psi) [.integer 4] none) ∧
    evaluate 20 (Session.run ⟨factorialNamed, 0, false⟩ aside).session.env
        (.call (.greek .phi) [.integer 4] none) =
      evaluate 20 factorialNamed (.call (.greek .phi) [.integer 4] none) := by
  have untouched : ∀ statement ∈ aside, statement.defines (.greek .phi) = false := by
    simp [aside, Statement.defines]
  refine ⟨rfl, rfl, rfl, rfl, untouched, ?_, ?_⟩
  · exact (callDecidedByDefinition.1 factorialNamed factorialRenamed _ _ factorial rfl rfl
      [.integer 4] rfl 20 none none).1 (.inr rfl)
  · exact callDecidedByDefinition.2 ⟨factorialNamed, 0, false⟩ _ factorial rfl aside
      depthLimit untouched [.integer 4] rfl 20 none

end LiterateMath
