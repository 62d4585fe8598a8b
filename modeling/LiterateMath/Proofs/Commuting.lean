import LiterateMath.Proofs.Locality
import LiterateMath.Proofs.Strictness

/-! Statements that have nothing to do with each other. A statement is run in two steps: what it
is to change is found from what it mentions, and then one entry of one table is changed. Changes
under different names can be made in either order. -/
namespace LiterateMath

def Environment.Same (a b : Environment) : Prop := ∀ name, Environment.SameAt name a b

inductive Change where
  | nothing
  | value (name : Name) (value : Number)
  | declaration (d : FunctionDeclaration)
  | definition (d : FunctionDefinition)

def Change.name? : Change → Option Name
  | nothing => none
  | value name _ => some name
  | declaration d => some d.name
  | definition d => some d.name

def Environment.change (env : Environment) : Change → Environment
  | .nothing => env
  | .value name value => env.bindVariable name value
  | .declaration d => env.declare d
  | .definition d => env.define d

namespace Statement

def binds? : Statement → Option Name
  | valueDeclaration name _ _ => some name
  | functionDeclaration d => some d.name
  | functionDefinition d => some d.name
  | expression _ | setDeclaration .. => none

def mentioned : Statement → List Name
  | expression e => e.mentioned
  | valueDeclaration name value _ => name :: value.mentioned
  | functionDeclaration d => [d.name]
  | setDeclaration name members _ => name :: Expr.mentionedIn members
  | functionDefinition d => d.name :: d.params ++ d.body.mentioned

def change (limit : Nat) (strict : Bool) (env : Environment) :
    Statement → Outcome (Change × Option String)
  | expression e => do
      let value ← evaluate limit env e
      return (.nothing, some (← value.render))
  | valueDeclaration name value _ => do
      return (.value name (← evaluate limit env value), none)
  | functionDeclaration d => .ok (.declaration d, none)
  | setDeclaration .. => .error (.unsupported .sets)
  | functionDefinition d => do
      return (.definition (← storedDefinition limit strict env d), none)

theorem bindsMentioned {statement : Statement} {name : Name}
    (binds : statement.binds? = some name) : name ∈ statement.mentioned := by
  cases statement with
  | expression e => cases binds
  | setDeclaration other members place => cases binds
  | _ => cases binds; exact List.mem_cons_self

theorem runChanges (limit : Nat) (strict : Bool) (env : Environment) (statement : Statement) :
    statement.run limit strict env = (do
      let (change, line) ← statement.change limit strict env
      return (env.change change, line)) := by
  cases statement with
  | expression e =>
      simp only [run, change]
      cases evaluate limit env e with
      | error fault => rfl
      | ok value => simp only [bindOk]; cases value.render <;> rfl
  | valueDeclaration name value place =>
      simp only [run, change]
      cases evaluate limit env value <;> rfl
  | functionDefinition d =>
      simp only [run, change]
      cases storedDefinition limit strict env d <;> rfl
  | _ => rfl

end Statement

section Locality

variable {limit : Nat} {strict : Bool} {a b : Environment}

theorem storedLocal {d : FunctionDefinition}
    (same : ∀ name ∈ (Statement.functionDefinition d).mentioned, Environment.SameAt name a b) :
    storedDefinition limit strict a d = storedDefinition limit strict b d := by
  have declared : a.declarations.contains d.name = b.declarations.contains d.name := by
    simp only [Table.contains, (same d.name (by simp [Statement.mentioned])).declarations]
  have body := condenseLocal (d.name :: d.params) limit d.body fun name member =>
    same name (List.mem_append_right _ member)
  simp only [storedDefinition, FunctionDefinition.condensed, FunctionDefinition.scope, declared,
    body]

theorem changeLocal {statement : Statement}
    (same : ∀ name ∈ statement.mentioned, Environment.SameAt name a b) :
    statement.change limit strict a = statement.change limit strict b := by
  cases statement with
  | expression e =>
      simp only [Statement.change,
        evaluateLocal limit e fun name member => (same name member).toAlikeAt]
  | valueDeclaration name value place =>
      simp only [Statement.change, evaluateLocal limit value fun name member =>
        (same name (List.mem_cons_of_mem _ member)).toAlikeAt]
  | functionDefinition d => simp only [Statement.change, storedLocal same]
  | _ => rfl

end Locality

section Changes

variable {limit : Nat} {strict : Bool} {env a b : Environment}

theorem changeBinds {statement : Statement} {change : Change} {line : Option String}
    (ok : statement.change limit strict env = .ok (change, line)) :
    change.name? = statement.binds? := by
  cases statement with
  | expression e =>
      obtain ⟨value, -, ok⟩ := bindIsOk.mp ok
      obtain ⟨shown, -, last⟩ := bindIsOk.mp ok
      cases last
      rfl
  | valueDeclaration name value place =>
      obtain ⟨found, -, last⟩ := bindIsOk.mp ok
      cases last
      rfl
  | functionDeclaration d => cases ok; rfl
  | setDeclaration name members place => cases ok
  | functionDefinition d =>
      obtain ⟨stored, found, last⟩ := bindIsOk.mp ok
      cases last
      exact congrArg some (storedName found)

theorem bindingSilent {statement : Statement} {change : Change} {line : Option String}
    {name : Name} (binds : statement.binds? = some name)
    (ok : statement.change limit strict env = .ok (change, line)) : line = none := by
  cases statement with
  | expression e => cases binds
  | functionDeclaration d => cases ok; rfl
  | setDeclaration other members place => cases ok
  | _ =>
      obtain ⟨found, -, last⟩ := bindIsOk.mp ok
      cases last
      rfl

theorem changeElsewhere {change : Change} {name : Name} (other : change.name? ≠ some name) :
    Environment.SameAt name (env.change change) env := by
  have different {key : Name} (named : change.name? = some key) : name ≠ key :=
    fun same => other (same ▸ named)
  cases change with
  | nothing => exact .refl name env
  | value key value =>
      refine ⟨⟨?_, rfl⟩, rfl⟩
      simp [Environment.change, Environment.bindVariable, Table.findInsert, different rfl]
  | declaration d =>
      refine ⟨⟨rfl, rfl⟩, ?_⟩
      simp [Environment.change, Environment.declare, Table.findInsert, different rfl]
  | definition d =>
      refine ⟨⟨rfl, ?_⟩, rfl⟩
      simp [Environment.change, Environment.define, Table.findInsert, different rfl]

theorem changeSame {name : Name} (same : Environment.SameAt name a b) (change : Change) :
    Environment.SameAt name (a.change change) (b.change change) := by
  cases change with
  | nothing => exact same
  | value key value =>
      refine ⟨⟨?_, same.definitions⟩, same.declarations⟩
      simp only [Environment.change, Environment.bindVariable, Table.findInsert, same.values]
  | declaration d =>
      refine ⟨⟨same.values, same.definitions⟩, ?_⟩
      simp only [Environment.change, Environment.declare, Table.findInsert, same.declarations]
  | definition d =>
      refine ⟨⟨same.values, ?_⟩, same.declarations⟩
      simp only [Environment.change, Environment.define, Table.findInsert, same.definitions]

theorem changesCommute (env : Environment) {change other : Change} {x y : Name}
    (first : change.name? = some x) (second : other.name? = some y) (different : x ≠ y) :
    ((env.change change).change other).Same ((env.change other).change change) := by
  intro name
  by_cases here : name = x
  · have elsewhere : other.name? ≠ some name := by
      rw [second, here]
      exact fun same => different (Option.some.inj same).symm
    exact (changeElsewhere elsewhere).trans (changeSame (changeElsewhere elsewhere).symm change)
  · have elsewhere : change.name? ≠ some name := by
      rw [first]
      exact fun same => here (Option.some.inj same).symm
    exact (changeSame (changeElsewhere elsewhere) other).trans (changeElsewhere elsewhere).symm

end Changes

section Runs

structure Run.Same (one other : Run) : Prop where
  tables : one.session.env.Same other.session.env
  index : one.session.index = other.session.index
  output : one.output = other.output
  failure : one.failure = other.failure
  left : one.left = other.left

theorem stepSame {limit : Nat} {strict : Bool} {a b next : Environment} {statement : Statement}
    {line : Option String} (same : a.Same b)
    (done : statement.run limit strict a = .ok (next, line)) :
    ∃ next', statement.run limit strict b = .ok (next', line) ∧ next.Same next' := by
  rw [Statement.runChanges, changeLocal fun name _ => same name] at done
  obtain ⟨⟨change, line⟩, found, last⟩ := bindIsOk.mp done
  cases last
  refine ⟨b.change change, ?_, fun name => changeSame (same name) change⟩
  rw [Statement.runChanges, found]
  rfl

theorem stepFailsSame {limit : Nat} {strict : Bool} {a b : Environment} {statement : Statement}
    {fault : Fault} (same : a.Same b) (failed : statement.run limit strict a = .error fault) :
    statement.run limit strict b = .error fault := by
  rw [Statement.runChanges, changeLocal fun name _ => same name] at failed
  rw [Statement.runChanges]
  rcases bindFails.mp failed with found | ⟨_, -, impossible⟩
  · rw [found]
    rfl
  · cases impossible

theorem runSame {a b : Environment} (same : a.Same b) (index : Nat) (strict : Bool)
    (program : List Statement) (limit : Nat) :
    (Session.run ⟨a, index, strict⟩ program limit).Same
      (Session.run ⟨b, index, strict⟩ program limit) := by
  induction program generalizing a b index with
  | nil => exact ⟨same, rfl, rfl, rfl, rfl⟩
  | cons statement rest ih =>
      cases done : statement.run limit strict a with
      | error fault =>
          rw [runFails (s := ⟨a, index, strict⟩) done,
            runFails (s := ⟨b, index, strict⟩) (stepFailsSame same done)]
          exact ⟨same, rfl, rfl, rfl, rfl⟩
      | ok result =>
          obtain ⟨next, line⟩ := result
          obtain ⟨next', done', same'⟩ := stepSame same done
          rw [runOk (s := ⟨a, index, strict⟩) done, runOk (s := ⟨b, index, strict⟩) done']
          have later := ih same' (index + 1)
          exact ⟨later.tables, later.index, congrArg (line.toList ++ ·) later.output,
            later.failure, later.left⟩

theorem runChange {limit : Nat} {s : Session} {statement : Statement} {name : Name} {change : Change}
    {line : Option String} (binds : statement.binds? = some name)
    (found : statement.change limit s.strict s.env = .ok (change, line)) (rest : List Statement) :
    s.run (statement :: rest) limit
      = Session.run ⟨s.env.change change, s.index + 1, s.strict⟩ rest limit := by
  have done : statement.run limit s.strict s.env = .ok (s.env.change change, none) := by
    rw [Statement.runChanges, found, bindingSilent binds found]
    rfl
  rw [runOk done]
  rfl

theorem runChanged {limit : Nat} {s : Session} {statement : Statement} {rest : List Statement}
    (finishes : (s.run (statement :: rest) limit).failure = none) :
    ∃ change line, statement.change limit s.strict s.env = .ok (change, line) := by
  cases found : statement.change limit s.strict s.env with
  | error fault =>
      have failed : statement.run limit s.strict s.env = .error fault := by
        rw [Statement.runChanges, found]
        rfl
      rw [runFails failed] at finishes
      cases finishes
  | ok result => exact ⟨result.1, result.2, rfl⟩

end Runs

/-- Two statements that give a meaning to a name each, neither of which mentions the name of the
other, can change places: if they run in one order they run in the other, every table is the same
afterwards, and whatever comes after them runs the same. -/
theorem independentStatementsCommute (limit : Nat) (s : Session) (a b : Statement) {x y : Name}
    (bindsX : a.binds? = some x) (bindsY : b.binds? = some y) (apart : y ∉ a.mentioned)
    (apart' : x ∉ b.mentioned) (finishes : (s.run [a, b] limit).failure = none) :
    (s.run [b, a] limit).failure = none ∧
      (s.run [a, b] limit).session.env.Same (s.run [b, a] limit).session.env ∧
      ∀ after, (s.run (a :: b :: after) limit).Same (s.run (b :: a :: after) limit) := by
  have different : x ≠ y := fun same => apart (same ▸ Statement.bindsMentioned bindsX)
  obtain ⟨change, line, first⟩ := runChanged finishes
  have named := (changeBinds first).trans bindsX
  have unseen : ∀ name ∈ b.mentioned, Environment.SameAt name (s.env.change change) s.env :=
    fun name member => changeElsewhere fun same =>
      apart' (Option.some.inj (named.symm.trans same) ▸ member)
  rw [runChange bindsX first] at finishes
  obtain ⟨other, line', second⟩ := runChanged finishes
  have named' := (changeBinds second).trans bindsY
  have unseen' : ∀ name ∈ a.mentioned, Environment.SameAt name (s.env.change other) s.env :=
    fun name member => changeElsewhere fun same =>
      apart (Option.some.inj (named'.symm.trans same) ▸ member)
  have secondAlone : b.change limit s.strict s.env = .ok (other, line') :=
    (changeLocal unseen).symm.trans second
  have firstAfter : a.change limit s.strict (s.env.change other) = .ok (change, line) :=
    (changeLocal unseen').trans first
  have swapped (after : List Statement) :
      (s.run (a :: b :: after) limit).Same (s.run (b :: a :: after) limit) := by
    have one := runChange (s := ⟨s.env.change change, s.index + 1, s.strict⟩) bindsY second after
    have two := runChange (s := ⟨s.env.change other, s.index + 1, s.strict⟩) bindsX firstAfter after
    rw [runChange bindsX first, one, runChange bindsY secondAlone, two]
    exact runSame (changesCommute s.env named named' different) _ _ after limit
  refine ⟨?_, (swapped []).tables, swapped⟩
  rw [← (swapped []).failure, runChange bindsX first]
  exact finishes

def factorialAndXi : Session :=
  ⟨⟨[(.greek .xi, .integer 3)], [], [(.greek .phi, factorial)]⟩, 0, false⟩

def psiOfPhi : Statement := .functionDefinition {
  name := .greek .psi
  params := [.greek .nu]
  body := .binary (.operator .multiplication) (.call (.greek .phi) [.letter .xi] none)
    (.call (.greek .phi) [.letter .nu] none) none
  captures := []
  place := none }

def muOfPhi : Statement :=
  .valueDeclaration (.greek .mu) (.call (.greek .phi) [.letter .xi] none) none

theorem psiAndMuCommute :
    psiOfPhi.binds? = some (.greek .psi) ∧ muOfPhi.binds? = some (.greek .mu) ∧
      .greek .mu ∉ psiOfPhi.mentioned ∧ .greek .psi ∉ muOfPhi.mentioned ∧
      (factorialAndXi.run [psiOfPhi, muOfPhi]).failure = none ∧
      (factorialAndXi.run [muOfPhi, psiOfPhi]).failure = none ∧
      (factorialAndXi.run [psiOfPhi, muOfPhi]).session.env.Same
        (factorialAndXi.run [muOfPhi, psiOfPhi]).session.env := by
  have apart : Name.greek .mu ∉ psiOfPhi.mentioned := by decide
  have apart' : Name.greek .psi ∉ muOfPhi.mentioned := by decide
  have finishes : (factorialAndXi.run [psiOfPhi, muOfPhi]).failure = none := by cbv
  have commute := independentStatementsCommute depthLimit factorialAndXi psiOfPhi muOfPhi rfl rfl
    apart apart' finishes
  exact ⟨rfl, rfl, apart, apart', finishes, commute.1, commute.2.1⟩

end LiterateMath
