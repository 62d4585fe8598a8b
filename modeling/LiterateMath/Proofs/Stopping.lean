import LiterateMath.Proofs.Composition
import LiterateMath.Proofs.Session

/-! Where a program stops. Either all of its statements run, or one of them is the first to fail:
then everything before it has been done, it has done nothing itself, and what follows it is still
to be run. -/
namespace LiterateMath

inductive Ran (limit : Nat) (strict : Bool) :
    Environment → List Statement → Environment → List String → Prop where
  | nil (env : Environment) : Ran limit strict env [] env []
  | shown {env last : Environment} {e : Expr} {value : Number} {line : String}
      {rest : List Statement} {lines : List String}
      (found : evaluate limit env e = .ok value) (rendered : value.render = .ok line)
      (later : Ran limit strict env rest last lines) :
      Ran limit strict env (.expression e :: rest) last (line :: lines)
  | silent {env next last : Environment} {statement : Statement} {rest : List Statement}
      {lines : List String} (done : statement.run limit strict env = .ok (next, none))
      (later : Ran limit strict next rest last lines) :
      Ran limit strict env (statement :: rest) last lines

def Statement.isExpression : Statement → Bool
  | expression _ => true
  | _ => false

section Runs

variable {limit : Nat} {strict : Bool} {env last : Environment} {program : List Statement}
  {lines : List String}

theorem ranFirst {next : Environment} {statement : Statement} {line : Option String}
    (done : statement.run limit strict env = .ok (next, line))
    (later : Ran limit strict next program last lines) :
    Ran limit strict env (statement :: program) last (line.toList ++ lines) := by
  cases Statement.runDoes done with
  | shows found rendered => exact .shown found rendered later
  | _ => exact .silent done later

theorem ranLines (ran : Ran limit strict env program last lines) :
    lines.length = (program.filter Statement.isExpression).length := by
  induction ran with
  | nil env => rfl
  | shown found rendered later ih => simp [List.filter_cons, Statement.isExpression, ih]
  | @silent env next last statement rest lines done later ih =>
      cases Statement.runDoes done <;> simp [Statement.isExpression, ih]

theorem ranRuns {s : Session} (ran : Ran limit s.strict s.env program last lines) :
    s.run program limit
      = ⟨⟨last, s.index + program.length, s.strict⟩, lines, none, []⟩ := by
  generalize started : s.env = env at ran
  generalize same : s.strict = strict at ran
  induction ran generalizing s with
  | nil env =>
      subst started same
      rfl
  | @shown env last e value line rest lines found rendered later ih =>
      subst started same
      have done : (Statement.expression e).run limit s.strict s.env = .ok (s.env, some line) := by
        simp [Statement.run, found, rendered]
      rw [runOk done, ih (s := ⟨s.env, s.index + 1, s.strict⟩) rfl rfl]
      simp [Run.following, Nat.add_assoc, Nat.add_comm 1]
  | @silent env next last statement rest lines done later ih =>
      subst started same
      rw [runOk done, ih (s := ⟨next, s.index + 1, s.strict⟩) rfl rfl]
      simp [Run.following, Nat.add_assoc, Nat.add_comm 1]

theorem runCases (limit : Nat) (s : Session) (program : List Statement) :
    (∃ last lines, Ran limit s.strict s.env program last lines) ∨
      ∃ before failing after last lines fault, program = before ++ failing :: after ∧
        Ran limit s.strict s.env before last lines ∧
        failing.run limit s.strict last = .error fault := by
  induction program generalizing s with
  | nil => exact .inl ⟨s.env, [], .nil s.env⟩
  | cons statement rest ih =>
      cases first : statement.run limit s.strict s.env with
      | error fault => exact .inr ⟨[], statement, rest, s.env, [], fault, rfl, .nil s.env, first⟩
      | ok done =>
          obtain ⟨next, line⟩ := done
          rcases ih { s with env := next } with ⟨last, lines, ran⟩ | stopped
          · exact .inl ⟨last, _, ranFirst first ran⟩
          · obtain ⟨before, failing, after, last, lines, fault, rfl, ran, failed⟩ := stopped
            exact .inr ⟨statement :: before, failing, after, last, _, fault, rfl,
              ranFirst first ran, failed⟩

theorem runStops {s : Session} {failing : Statement} {fault : Fault}
    (ran : Ran limit s.strict s.env program last lines)
    (failed : failing.run limit s.strict last = .error fault) (after : List Statement) :
    s.run (program ++ failing :: after) limit
      = ⟨⟨last, s.index + program.length + 1, s.strict⟩, lines,
          some ⟨fault, some (s.index + program.length + 1), failing.place⟩, after⟩ := by
  have finishes : (s.run program limit).failure = none := by rw [ranRuns ran]
  rw [runAppend finishes, ranRuns ran, runFails failed]
  simp [Run.following]

end Runs

section Counting

def Run.countedOn (n : Nat) (run : Run) : Run :=
  { run with
    session := { run.session with index := run.session.index + n }
    failure := run.failure.map fun f => { f with statement := f.statement.map (· + n) } }

theorem runCountedOn (limit n : Nat) (s : Session) (program : List Statement) :
    Session.run { s with index := s.index + n } program limit
      = (s.run program limit).countedOn n := by
  induction program generalizing s with
  | nil => rfl
  | cons statement rest ih =>
      cases done : statement.run limit s.strict s.env with
      | error fault =>
          rw [runFails (s := ⟨s.env, s.index + n, s.strict⟩) done, runFails done]
          simp [Run.countedOn, Nat.add_right_comm]
      | ok result =>
          obtain ⟨env, line⟩ := result
          have later := ih { s with env, index := s.index + 1 }
          rw [Nat.add_right_comm] at later
          rw [runOk (s := ⟨s.env, s.index + n, s.strict⟩) done, runOk done, later]
          rfl

theorem runGoesOn {limit : Nat} {s : Session} {before : List Statement} {failing : Statement}
    {last : Environment} {lines : List String} {fault : Fault}
    (ran : Ran limit s.strict s.env before last lines)
    (failed : failing.run limit s.strict last = .error fault) (after : List Statement) :
    let stopped := s.run (before ++ failing :: after) limit
    (stopped.session.run stopped.left limit).following stopped.output
      = (s.run (before ++ after) limit).countedOn 1 := by
  have finishes : (s.run before limit).failure = none := by rw [ranRuns ran]
  have onward := runCountedOn limit 1 ⟨last, s.index + before.length, s.strict⟩ after
  rw [runStops ran failed, runAppend finishes, ranRuns ran]
  dsimp only at onward ⊢
  rw [onward]
  rfl

end Counting

/-- A statement that fails has not touched what the memory held, whatever it has written for
itself. A program runs to its end, or up to the first statement that fails; that one is named in
the failure, and the rest is left to be run; run later, it comes to what it comes to without the
one that failed. Programs that do not fail can be joined. -/
theorem failedStatementLeavesNoTrace (limit : Nat) :
    (∀ (strict : Bool) (m left : Memory) (statement : Statement) (fault : Fault),
      (statement.perform limit strict).run m = .error fault left → m.Kept left) ∧
    ∀ (s : Session) (program : List Statement),
      ((∃ last lines, Ran limit s.strict s.env program last lines ∧
          s.run program limit
            = ⟨⟨last, s.index + program.length, s.strict⟩, lines, none, []⟩) ∨
        ∃ before failing after last lines fault left, program = before ++ failing :: after ∧
          Ran limit s.strict s.env before last lines ∧
          (failing.perform limit s.strict).run (.start last) = .error fault left ∧
          left.session = last ∧ left.shown = [] ∧
          s.run program limit = ⟨⟨last, s.index + before.length + 1, s.strict⟩, lines,
            some ⟨fault, some (s.index + before.length + 1), failing.place⟩, after⟩ ∧
          ((s.run program limit).session.run after limit).following lines
            = (s.run (before ++ after) limit).countedOn 1) ∧
      ∀ more : List Statement, (s.run program limit).failure = none →
        s.run (program ++ more) limit = ((s.run program limit).session.run more limit).following
          (s.run program limit).output := by
  refine ⟨fun _ _ _ _ _ => performFails, fun s program => ⟨?_, fun more finishes => ?_⟩⟩
  · rcases runCases limit s program with ⟨last, lines, ran⟩ | stopped
    · exact .inl ⟨last, lines, ran, ranRuns ran⟩
    · obtain ⟨before, failing, after, last, lines, fault, rfl, ran, failed⟩ := stopped
      obtain ⟨left, performed, kept⟩ := performError (s := { s with env := last }) failed
      have stops := runStops ran failed after
      have onward := runGoesOn ran failed after
      rw [stops] at onward
      refine .inr ⟨before, failing, after, last, lines, fault, left, rfl, ran, performed,
        (kept.held .session trivial).2, kept.shown, stops, ?_⟩
      rw [stops]
      exact onward
  · exact runAppend finishes more

def setNu : List Statement := [.valueDeclaration (.greek .nu) (.literal (.integer 7) none) none]

def tooEarly : List Statement :=
  [.expression (.lookup (.greek .xi) none),
   .valueDeclaration (.greek .xi) (.literal (.integer 2) none) none,
   .valueDeclaration (.greek .mu) (.lookup (.greek .xi) none) none]

def halfCaptured : FunctionDefinition where
  name := .greek .psi
  params := [.greek .mu]
  body := .binary (.operator .addition) (.call (.greek .phi) [.letter .mu] none) (.letter .xi) none
  captures := []
  place := none

theorem shownTooEarly :
    let stub : Memory := ⟨factorialNamed, #[], [(.greek .phi, none, factorial)], []⟩
    ((Statement.functionDefinition halfCaptured).perform 20 false).run (.start factorialNamed)
        = .error (.missingVariable (.greek .xi)) stub ∧
      (Memory.start factorialNamed).Kept stub ∧
      ((Session.fresh false).run setNu).failure = none ∧
      (Session.fresh false).run (setNu ++ tooEarly)
        = ⟨⟨⟨[(.greek .nu, .integer 7)], [], []⟩, 2, false⟩, [],
            some ⟨.missingVariable (.greek .xi), some 2, none⟩, tooEarly.tail⟩ ∧
      (((Session.fresh false).run (setNu ++ tooEarly)).session.run tooEarly.tail).session.env.values
        = [(.greek .mu, .integer 2), (.greek .xi, .integer 2), (.greek .nu, .integer 7)] := by
  intro stub
  have failed : ((Statement.functionDefinition halfCaptured).perform 20 false).run
      (.start factorialNamed) = .error (.missingVariable (.greek .xi)) stub := rfl
  have finishes : ((Session.fresh false).run setNu).failure = none := by cbv
  have joined := ((failedStatementLeavesNoTrace depthLimit).2 (.fresh false) setNu).2 tooEarly
  exact ⟨failed, (failedStatementLeavesNoTrace 20).1 _ _ _ _ _ failed, finishes,
    (joined finishes).trans (by cbv), by cbv⟩

end LiterateMath
