import LiterateMath.Proofs.Stopping

/-! Strict sessions. A strict session does what a loose one does up to the first definition of a
function that nothing before it declares, and stops there. -/
namespace LiterateMath

def Statement.declares (name : Name) : Statement → Bool
  | functionDeclaration d => d.name = name
  | _ => false

def Undeclared (table : Table FunctionDeclaration) (before : List Statement) (name : Name) :
    Prop :=
  table.contains name = false ∧ ∀ statement ∈ before, statement.declares name = false

def AllDeclared (table : Table FunctionDeclaration) (program : List Statement) : Prop :=
  ∀ before d after, program = before ++ .functionDefinition d :: after →
    ¬ Undeclared table before d.name

structure FirstUndeclared (table : Table FunctionDeclaration) (program before : List Statement)
    (d : FunctionDefinition) (after : List Statement) : Prop where
  parts : program = before ++ .functionDefinition d :: after
  undeclared : Undeclared table before d.name
  first : AllDeclared table before

section Positions

variable {table : Table FunctionDeclaration} {program : List Statement}

theorem allDeclaredOr (table : Table FunctionDeclaration) (program : List Statement) :
    AllDeclared table program ∨ ∃ before d after, FirstUndeclared table program before d after := by
  induction program using List.reverseRecOn with
  | nil => exact .inl fun before d after parts => by simp at parts
  | append_singleton front last ih =>
      obtain all | ⟨before, d, after, rfl, undeclared, first⟩ := ih
      · by_cases found : ∃ d, last = .functionDefinition d ∧ Undeclared table front d.name
        · obtain ⟨d, rfl, undeclared⟩ := found
          exact .inr ⟨front, d, [], rfl, undeclared, all⟩
        · refine .inl fun before d after parts undeclared => ?_
          obtain rfl | ⟨init, final, rfl⟩ := List.eq_nil_or_concat after
          · obtain ⟨rfl, rfl⟩ := List.append_singleton_inj.mp parts
            exact found ⟨d, rfl, undeclared⟩
          · rw [List.concat_eq_append, ← List.cons_append, ← List.append_assoc] at parts
            exact all before d init (List.append_singleton_inj.mp parts).1 undeclared
      · exact .inr ⟨before, d, after ++ [last], by simp, undeclared, first⟩

end Positions

section Steps

variable {limit : Nat} {strict : Bool} {env next : Environment} {statement : Statement}
  {line : Option String}

theorem statementDeclares (done : statement.run limit strict env = .ok (next, line)) (name : Name) :
    next.declarations.contains name
      = (env.declarations.contains name || statement.declares name) := by
  cases Statement.runDoes done with
  | declares d =>
      by_cases same : name = d.name
      · simp [Environment.declare, Table.contains, Table.findInsert, Statement.declares, same]
      · simp [Environment.declare, Table.contains, Table.findInsert, Statement.declares, same,
          Ne.symm same]
  | _ => simp [Environment.bindVariable, Environment.define, Statement.declares]

theorem undeclaredCons (done : statement.run limit strict env = .ok (next, line))
    (before : List Statement) (name : Name) :
    Undeclared env.declarations (statement :: before) name
      ↔ Undeclared next.declarations before name := by
  simp [Undeclared, statementDeclares done, and_assoc]

theorem allDeclaredCons {rest : List Statement}
    (done : statement.run limit strict env = .ok (next, line))
    (all : AllDeclared env.declarations (statement :: rest)) : AllDeclared next.declarations rest :=
  fun before d after parts undeclared =>
    all (statement :: before) d after (by rw [parts, List.cons_append])
      ((undeclaredCons done before d.name).mpr undeclared)

theorem declaredRunsAlike (limit : Nat) (env : Environment) {rest : List Statement}
    (all : AllDeclared env.declarations (statement :: rest)) :
    statement.run limit true env = statement.run limit false env := by
  cases statement with
  | functionDefinition d =>
      have declared : env.declarations.contains d.name = true := by
        by_contra missing
        exact all [] d rest rfl ⟨by simpa using missing, by simp⟩
      simp [Statement.run, storedDefinition, declared]
  | _ => rfl

theorem undeclaredStops (limit : Nat) {d : FunctionDefinition}
    (missing : env.declarations.contains d.name = false) :
    (Statement.functionDefinition d).run limit true env = .error (.undeclaredFunction d.name) := by
  -- The table is looked at before the body, so no fault of the body comes first.
  simp [Statement.run, storedDefinition, missing]

end Steps

section Runs

def Session.inMode (strict : Bool) (s : Session) : Session := { s with strict }

def Run.inMode (strict : Bool) (run : Run) : Run :=
  { run with session := run.session.inMode strict }

variable {limit : Nat}

theorem allDeclaredRun (limit : Nat) (s : Session) {program : List Statement}
    (all : AllDeclared s.env.declarations program) :
    (s.inMode true).run program limit = ((s.inMode false).run program limit).inMode true := by
  induction program generalizing s with
  | nil => rfl
  | cons statement rest ih =>
      have alike := declaredRunsAlike limit s.env all
      cases loose : statement.run limit false s.env with
      | error fault =>
          have strict := alike.trans loose
          rw [runFails (s := s.inMode true) strict, runFails (s := s.inMode false) loose]
          rfl
      | ok done =>
          obtain ⟨next, line⟩ := done
          have later := ih ⟨next, s.index + 1, s.strict⟩ (allDeclaredCons loose all)
          have strict := alike.trans loose
          rw [runOk (s := s.inMode true) strict, runOk (s := s.inMode false) loose]
          exact congrArg (Run.following line.toList) later

theorem runDeclares {s : Session} {program : List Statement}
    (finishes : (s.run program limit).failure = none) (name : Name) :
    Undeclared s.env.declarations program name
      ↔ (s.run program limit).session.env.declarations.contains name = false := by
  induction program generalizing s with
  | nil => simp [Undeclared, Session.run]
  | cons statement rest ih =>
      cases done : statement.run limit s.strict s.env with
      | error fault =>
          rw [runFails done] at finishes
          cases finishes
      | ok result =>
          obtain ⟨next, line⟩ := result
          rw [runOk done] at finishes ⊢
          exact (undeclaredCons done rest name).trans (ih finishes)

theorem runFailsEarlier {s : Session} {program : List Statement}
    (fails : (s.run program limit).failure ≠ none) (more : List Statement) :
    s.run (program ++ more) limit
      = { s.run program limit with left := (s.run program limit).left ++ more } := by
  induction program generalizing s with
  | nil => exact absurd rfl fails
  | cons statement rest ih =>
      cases done : statement.run limit s.strict s.env with
      | error fault => rw [List.cons_append, runFails done, runFails done]
      | ok result =>
          obtain ⟨next, line⟩ := result
          rw [runOk done] at fails ⊢
          rw [List.cons_append, runOk done, ih fails]
          rfl

theorem runFinished {s : Session} {program : List Statement}
    (finishes : (s.run program limit).failure = none) :
    (s.run program limit).session
      = ⟨(s.run program limit).session.env, s.index + program.length, s.strict⟩ := by
  obtain ⟨last, lines, ran⟩ | ⟨before, failing, after, last, lines, fault, rfl, ran, failed⟩ :=
    runCases limit s program
  · rw [ranRuns ran]
  · rw [runStops ran failed] at finishes
    cases finishes

variable {s : Session} {program before after : List Statement} {d : FunctionDefinition}

theorem strictStops (found : FirstUndeclared s.env.declarations program before d after)
    (finishes : ((s.inMode false).run before limit).failure = none) :
    (s.inMode true).run program limit
      = ⟨⟨((s.inMode false).run before limit).session.env, s.index + before.length + 1, true⟩,
          ((s.inMode false).run before limit).output,
          some ⟨.undeclaredFunction d.name, some (s.index + before.length + 1), d.place⟩,
          after⟩ := by
  have same := allDeclaredRun limit s found.first
  have finishesToo : ((s.inMode true).run before limit).failure = none := by rwa [same]
  have missing := (runDeclares (s := s.inMode false) finishes d.name).mp found.undeclared
  have stops := undeclaredStops limit missing
  rw [found.parts, runAppend finishesToo, same]
  have reached := runFinished finishes
  generalize (s.inMode false).run before limit = run at *
  rw [Run.inMode, reached, runFails stops]
  simp [Session.inMode, Run.following, Statement.place]

theorem strictFails (found : FirstUndeclared s.env.declarations program before d after)
    (fails : ((s.inMode false).run before limit).failure ≠ none) :
    (s.inMode true).run program limit = ((s.inMode false).run program limit).inMode true := by
  have same := allDeclaredRun limit s found.first
  have failsToo : ((s.inMode true).run before limit).failure ≠ none := by rwa [same]
  rw [found.parts, runFailsEarlier fails, runFailsEarlier failsToo, same]
  rfl

end Runs

/-- If the loose run gets to the first definition of a function that is not declared by then, the
strict run shows what the loose one has shown by then and stops there, with the same tables. In
every other case the two runs are the same. -/
theorem strictOnlyCutsShort (s : Session) (program : List Statement) (limit : Nat) :
    let loose := s.inMode false
    let strict := s.inMode true
    (∀ before d after, FirstUndeclared s.env.declarations program before d after →
      (loose.run before limit).failure = none →
        loose.run program limit
            = ((loose.run before limit).session.run (.functionDefinition d :: after)
                limit).following (loose.run before limit).output
          ∧ strict.run program limit
            = ⟨⟨(loose.run before limit).session.env, s.index + before.length + 1, true⟩,
                (loose.run before limit).output,
                some ⟨.undeclaredFunction d.name, some (s.index + before.length + 1), d.place⟩,
                after⟩)
      ∧ ((∀ before d after, FirstUndeclared s.env.declarations program before d after →
          (loose.run before limit).failure ≠ none) →
        strict.run program limit = (loose.run program limit).inMode true) := by
  intro loose strict
  refine ⟨fun before d after found finishes => ⟨?_, strictStops found finishes⟩, fun fails => ?_⟩
  · rw [found.parts, runAppend finishes]
  · obtain all | ⟨before, d, after, found⟩ := allDeclaredOr s.env.declarations program
    · exact allDeclaredRun limit s all
    · exact strictFails found (fails before d after found)

def toReals (name : Name) : Statement := .functionDeclaration ⟨name, .reals, .reals, none⟩

def declaredTooLate : List Statement :=
  [toReals (.greek .phi), .functionDefinition factorial,
   .valueDeclaration (.greek .mu) (.call (.greek .phi) [.integer 4] none) none,
   .functionDefinition { factorial with name := .greek .psi, place := some ⟨3, 9⟩ },
   toReals (.greek .psi)]

theorem psiUndeclared :
    FirstUndeclared [] declaredTooLate (declaredTooLate.take 3)
      { factorial with name := .greek .psi, place := some ⟨3, 9⟩ } [toReals (.greek .psi)] where
  parts := rfl
  undeclared := ⟨rfl, by decide⟩
  first := by
    rintro before d after parts ⟨-, unmentioned⟩
    obtain _ | ⟨first, _ | ⟨second, _ | ⟨third, more⟩⟩⟩ := before
    · simp [declaredTooLate, toReals] at parts
    · cases parts
      exact absurd (unmentioned _ List.mem_cons_self) (by decide)
    · simp [declaredTooLate] at parts
    · simp [declaredTooLate] at parts

theorem stopsAtPsi :
    ((Session.fresh false).run (declaredTooLate.take 3)).failure = none ∧
      ((Session.fresh true).run declaredTooLate).session.env.values
        = [(.greek .mu, .integer 24)] ∧
      ((Session.fresh true).run declaredTooLate).failure
        = some ⟨.undeclaredFunction (.greek .psi), some 4, some ⟨3, 9⟩⟩ ∧
      ((Session.fresh true).run (.expression (.letter .xi) :: declaredTooLate)).failure
        = some ⟨.missingVariable (.greek .xi), some 1, none⟩ := by
  have finishes : ((Session.fresh false).run (declaredTooLate.take 3)).failure = none := by cbv
  have stops : (Session.fresh true).run declaredTooLate = _ :=
    ((strictOnlyCutsShort (.fresh true) declaredTooLate depthLimit).1 _ _ _ psiUndeclared
      finishes).2
  have same : (Session.fresh true).run (.expression (.letter .xi) :: declaredTooLate)
      = ((Session.fresh false).run (.expression (.letter .xi) :: declaredTooLate)).inMode true := by
    refine (strictOnlyCutsShort (.fresh true) _ depthLimit).2 fun before d after found => ?_
    cases before with
    | nil => cases found.parts
    | cons first rest =>
        cases (List.cons.inj found.parts).1
        have failed : (Statement.expression (.letter .xi)).run depthLimit false .empty
            = .error (.missingVariable (.greek .xi)) := rfl
        change ((Session.fresh false).run (_ :: rest) depthLimit).failure ≠ none
        rw [runFails (s := .fresh false) failed]
        exact Option.some_ne_none _
  rw [stops, same]
  exact ⟨finishes, by cbv, rfl, by cbv⟩

end LiterateMath
