import LiterateMath.Proofs.Literals
import LiterateMath.Proofs.Stopping
import LiterateMath.Report.Basic

/-! What becomes of a document that is run. It is not read, because it is malformed or because a
literal in it is too long; or it is read, and then its statements run to the end or up to one that
fails, and that is told in an issue unless it cannot be put in words. -/
namespace LiterateMath

inductive Course where
  | malformed
  | literalTooLong
  | finished
  | stopped
  | unspeakable

structure Stop where
  before : List Statement
  failing : Statement
  after : List Statement
  env : Environment
  lines : List String
  fault : Fault
  place : Span

namespace Document

structure StopsAt (d : Document) (limit : Nat) (strict : Bool) (p : Stop) : Prop where
  parsed : d.parse = .ok (p.before ++ p.failing :: p.after)
  ran : Ran limit strict .empty p.before p.env p.lines
  failed : p.failing.run limit strict p.env = .error p.fault
  placed : p.failing.place = some p.place
  ending : (d.run strict limit).ending = .wasRun ⟨⟨p.env, p.before.length + 1, strict⟩, p.lines,
    some ⟨p.fault, some (p.before.length + 1), some p.place⟩, p.after⟩

def HasLongLiteral (d : Document) : Prop :=
  ∃ code before slice after statements digits, codeTokens d.text = .ok code ∧
    intoSlices code = before ++ slice :: after ∧ before.mapM parseStatement = .ok statements ∧
    parseStatement slice = .error .literalTooLong ∧
    Word.number digits ∈ tokenWords slice ∧ longestLiteral < digits.length

def reported (d : Document) (limit : Nat) (strict : Bool) (maxIssues : Nat) :
    Report × Option Interruption :=
  (Report.fresh maxIssues).receive (d.run strict limit)

structure Leaves (d : Document) (limit : Nat) (strict : Bool) (maxIssues : Nat)
    (lines : List String) (session : Option Session) (issues : List Issue)
    (interruption : Option Interruption) : Prop where
  lines : (d.run strict limit).output = lines
  session : (d.run strict limit).session? = session
  reported : d.reported limit strict maxIssues = (⟨issues, maxIssues⟩, interruption)

def confusion (d : Document) (fault : ParseFault) (place : Option Span) : Issue :=
  ⟨"I got confused reading this: " ++ fault.message, d.excerpts place fault.kind, []⟩

def complaint (d : Document) (fault : Fault) (message : String) (statement : Nat) (place : Span) :
    Issue :=
  ⟨fault.kind ++ ": " ++ (message ++ " on statement " ++ Text.natural statement),
    [⟨d, place, "in this statement"⟩], []⟩

def Takes (d : Document) (limit : Nat) (strict : Bool) (maxIssues : Nat) : Course → Prop
  | .malformed => ∃ fault place, d.parse = .error (.malformed fault place) ∧
      d.Leaves limit strict maxIssues [] none [d.confusion fault place] none
  | .literalTooLong => d.HasLongLiteral ∧
      d.Leaves limit strict maxIssues [] none [] (some .literalTooLong)
  | .finished => ∃ statements env lines, d.parse = .ok statements ∧
      Ran limit strict .empty statements env lines ∧
      lines.length = (statements.filter Statement.isExpression).length ∧
      d.Leaves limit strict maxIssues lines (some ⟨env, statements.length, strict⟩) [] none
  | .stopped => ∃ p message, d.StopsAt limit strict p ∧ p.fault.message? = some message ∧
      p.lines.length = (p.before.filter Statement.isExpression).length ∧
      d.Leaves limit strict maxIssues p.lines (some ⟨p.env, p.before.length + 1, strict⟩)
        [d.complaint p.fault message (p.before.length + 1) p.place] none
  | .unspeakable => ∃ p name, d.StopsAt limit strict p ∧ name.isSubscripted = true ∧
      (p.fault = .missingVariable name ∨ p.fault = .missingFunction name ∨
        p.fault = .undeclaredFunction name) ∧
      p.lines.length = (p.before.filter Statement.isExpression).length ∧
      d.Leaves limit strict maxIssues p.lines none [] (some .unspeakableName)

end Document

section Reading

theorem placePut (s : Statement) (place : Option Span) : (s.putAt place).place = place := by
  cases s with
  | expression e => cases e <;> rfl
  | _ => rfl

theorem parsedPlace {slice : List Token} {s : Statement} (parsed : parseStatement slice = .ok s) :
    s.place = spanOf slice := by
  unfold parseStatement at parsed
  split at parsed
  all_goals
    obtain ⟨read, _, last⟩ := bindIsOk.mp parsed
    cases last
    exact placePut _ _

variable {d : Document} {statements : List Statement}

theorem documentPlaces (parsed : d.parse = .ok statements) :
    ∀ s ∈ statements, ∃ place, s.place = some place := by
  intro s member
  obtain ⟨code, reads, each⟩ := bindIsOk.mp parsed
  obtain ⟨slice, inCode, read⟩ := mapMFrom each s member
  rw [parsedPlace read]
  have filled := (List.mem_filter.mp inCode).2
  cases slice with
  | nil => cases filled
  | cons t rest => exact ⟨_, rfl⟩

theorem documentFilled (parsed : d.parse = .ok statements) (some : statements ≠ []) :
    d.text.isEmpty = false := by
  refine Bool.eq_false_iff.mpr fun empty => some ?_
  have nothing : (do (intoSlices (← codeTokens "")).mapM parseStatement) = .ok [] := by cbv
  rw [Document.parse, String.isEmpty_iff.mp empty, nothing] at parsed
  cases parsed
  rfl

theorem documentLongLiteral (failed : d.parse = .error .literalTooLong) : d.HasLongLiteral := by
  rcases bindFails.mp failed with early | ⟨code, reads, late⟩
  · exact absurd rfl (codeTokensFits d.text _ early)
  · obtain ⟨before, slice, after, statements, cut, earlier, long⟩ := mapMFails late
    obtain ⟨digits, member, tooLong⟩ := longLiteralInSlice long
    exact ⟨code, before, slice, after, statements, digits, reads, cut, earlier, long, member,
      tooLong⟩

end Reading

section Reporting

theorem messageNone {fault : Fault} (unspoken : fault.message? = none) :
    ∃ name : Name, name.isSubscripted = true ∧ (fault = .missingVariable name ∨
      fault = .missingFunction name ∨ fault = .undeclaredFunction name) := by
  have subscripted {before after : String} {name : Name}
      (nothing : Fault.about before name after = none) : name.isSubscripted = true := by
    unfold Fault.about at nothing
    split at nothing
    · assumption
    · cases nothing
  cases fault with
  | missingVariable name => exact ⟨name, subscripted unspoken, .inl rfl⟩
  | missingFunction name => exact ⟨name, subscripted unspoken, .inr (.inl rfl)⟩
  | undeclaredFunction name => exact ⟨name, subscripted unspoken, .inr (.inr rfl)⟩
  | _ => cases unspoken

theorem receivedIssue {a : Account} {issue : Issue} {maxIssues : Nat} (several : 1 < maxIssues)
    (told : a.issue? = some issue) :
    (Report.fresh maxIssues).receive a = (⟨[issue], maxIssues⟩, none) := by
  have few : ¬ 1 = maxIssues := by omega
  simp [Report.receive, told, Report.add, Report.fresh, few]

theorem receivedNothing {a : Account} (maxIssues : Nat) (untold : a.issue? = none) :
    (Report.fresh maxIssues).receive a = (⟨[], maxIssues⟩, a.interruption?) := by
  simp [Report.receive, untold, Report.fresh]

variable {d : Document} {limit : Nat} {strict : Bool} {maxIssues : Nat}

theorem leavesUnread {failure : ParseFailure} (failed : d.parse = .error failure) :
    d.run strict limit = ⟨d, d.readingLog, .unread failure⟩ := by
  simp [Document.run, failed]

theorem takesMalformed {fault : ParseFault} {place : Option Span} (several : 1 < maxIssues)
    (failed : d.parse = .error (.malformed fault place)) :
    d.Takes limit strict maxIssues .malformed := by
  refine ⟨fault, place, failed, ?_⟩
  constructor
  all_goals simp only [Document.reported, leavesUnread failed]
  · rfl
  · rfl
  · exact receivedIssue several rfl

theorem takesLongLiteral (failed : d.parse = .error .literalTooLong) :
    d.Takes limit strict maxIssues .literalTooLong := by
  refine ⟨documentLongLiteral failed, ?_⟩
  constructor
  all_goals simp only [Document.reported, leavesUnread failed]
  · rfl
  · rfl
  · exact receivedNothing maxIssues rfl

theorem takesFinished {statements : List Statement} {env : Environment} {lines : List String}
    (parsed : d.parse = .ok statements) (ran : Ran limit strict .empty statements env lines) :
    d.Takes limit strict maxIssues .finished := by
  have run := ranRuns (s := Session.fresh strict) ran
  rw [Session.fresh, Nat.zero_add] at run
  refine ⟨statements, env, lines, parsed, ran, ranLines ran, ?_⟩
  have whole : d.run strict limit = ⟨d, d.readingLog ++ [Document.runningLine statements],
      .wasRun ⟨⟨env, statements.length, strict⟩, lines, none, []⟩⟩ := by
    simp [Document.run, parsed, Session.fresh, run]
  constructor
  all_goals simp only [Document.reported, whole]
  · rfl
  · rfl
  · exact receivedNothing maxIssues rfl

section Stopping

variable {p : Stop}

theorem stopsAt {before after : List Statement} {failing : Statement} {env : Environment}
    {lines : List String} {fault : Fault} (parsed : d.parse = .ok (before ++ failing :: after))
    (ran : Ran limit strict .empty before env lines)
    (failed : failing.run limit strict env = .error fault) :
    ∃ place, d.StopsAt limit strict ⟨before, failing, after, env, lines, fault, place⟩ := by
  obtain ⟨place, placed⟩ := documentPlaces parsed failing (by simp)
  have run := runStops (s := Session.fresh strict) ran failed after
  rw [Session.fresh, Nat.zero_add, placed] at run
  exact ⟨place, parsed, ran, failed, placed, by simp [Document.run, parsed, Session.fresh, run]⟩

theorem stopTrouble (stops : d.StopsAt limit strict p) : (d.run strict limit).trouble?
    = some (.running ⟨p.fault, some (p.before.length + 1), some p.place⟩) := by
  simp [Account.trouble?, stops.ending]

theorem stopIssue (stops : d.StopsAt limit strict p) : (d.run strict limit).issue?
    = p.fault.message?.map fun m => d.complaint p.fault m (p.before.length + 1) p.place := by
  have same : (d.run strict limit).document = d := by
    unfold Document.run
    split <;> rfl
  have filled := documentFilled stops.parsed (by simp)
  simp [Account.issue?, stopTrouble stops, same, Trouble.issue?, Failure.message?,
    Document.excerpts, filled, Document.complaint, Function.comp_def]

theorem stopInterruption (stops : d.StopsAt limit strict p) : (d.run strict limit).interruption?
    = if p.fault.message?.isNone then some .unspeakableName else none := by
  simp [Account.interruption?, stops.ending, stopTrouble stops, stopIssue stops]

theorem stopSession (stops : d.StopsAt limit strict p) : (d.run strict limit).session?
    = if p.fault.message?.isNone then none else some ⟨p.env, p.before.length + 1, strict⟩ := by
  cases unspoken : p.fault.message?.isNone <;>
    simp [Account.session?, stops.ending, stopInterruption stops, unspoken]

theorem takesStopped {message : String} (several : 1 < maxIssues) (stops : d.StopsAt limit strict p)
    (spoken : p.fault.message? = some message) : d.Takes limit strict maxIssues .stopped := by
  refine ⟨p, message, stops, spoken, ranLines stops.ran, ?_, ?_, ?_⟩
  · simp [Account.output, stops.ending]
  · simp [stopSession stops, spoken]
  · exact receivedIssue several (by simp [stopIssue stops, spoken])

theorem takesUnspeakable (stops : d.StopsAt limit strict p) (unspoken : p.fault.message? = none) :
    d.Takes limit strict maxIssues .unspeakable := by
  obtain ⟨name, subscripted, about⟩ := messageNone unspoken
  refine ⟨p, name, stops, subscripted, about, ranLines stops.ran, ?_, ?_, ?_⟩
  · simp [Account.output, stops.ending]
  · simp [stopSession stops, unspoken]
  · have untold : (d.run strict limit).issue? = none := by simp [stopIssue stops, unspoken]
    rw [Document.reported, receivedNothing maxIssues untold, stopInterruption stops, unspoken]
    rfl

end Stopping

theorem takesSome (limit : Nat) (strict : Bool) (several : 1 < maxIssues)
    (shallow : d.parse ≠ .error .tooDeep) : ∃ course, d.Takes limit strict maxIssues course := by
  cases parsed : d.parse with
  | error failure =>
      cases failure with
      | malformed fault place => exact ⟨.malformed, takesMalformed several parsed⟩
      | literalTooLong => exact ⟨.literalTooLong, takesLongLiteral parsed⟩
      | tooDeep => exact absurd parsed shallow
  | ok statements =>
      rcases runCases limit (Session.fresh strict) statements with ⟨env, lines, ran⟩ | stopped
      · exact ⟨.finished, takesFinished parsed ran⟩
      · obtain ⟨before, failing, after, env, lines, fault, rfl, ran, failed⟩ := stopped
        obtain ⟨place, stops⟩ := stopsAt parsed ran failed
        cases spoken : fault.message? with
        | some message => exact ⟨.stopped, takesStopped several stops spoken⟩
        | none => exact ⟨.unspeakable, takesUnspeakable stops spoken⟩

end Reporting

section Telling

def Course.traces : Course → Option Interruption × Nat × Bool
  | malformed => (none, 1, false)
  | literalTooLong => (some .literalTooLong, 0, false)
  | finished => (none, 0, true)
  | stopped => (none, 1, true)
  | unspeakable => (some .unspeakableName, 0, false)

theorem tracesDiffer {a b : Course} (same : a.traces = b.traces) : a = b := by
  cases a <;> cases b <;> first | rfl | cases same

variable {d : Document} {limit : Nat} {strict : Bool} {maxIssues : Nat}

theorem leavesTraces {lines : List String} {session : Option Session} {issues : List Issue}
    {interruption : Option Interruption}
    (leaves : d.Leaves limit strict maxIssues lines session issues interruption) :
    ((d.reported limit strict maxIssues).2, (d.reported limit strict maxIssues).1.issues.length,
      (d.run strict limit).session?.isSome) = (interruption, issues.length, session.isSome) := by
  rw [leaves.reported, leaves.session]

theorem takesTraces {course : Course} (takes : d.Takes limit strict maxIssues course) :
    ((d.reported limit strict maxIssues).2, (d.reported limit strict maxIssues).1.issues.length,
      (d.run strict limit).session?.isSome) = course.traces := by
  cases course with
  | malformed =>
      obtain ⟨_, _, _, leaves⟩ := takes
      exact leavesTraces leaves
  | literalTooLong => exact leavesTraces takes.2
  | finished =>
      obtain ⟨_, _, _, _, _, _, leaves⟩ := takes
      exact leavesTraces leaves
  | stopped =>
      obtain ⟨_, _, _, _, _, leaves⟩ := takes
      exact leavesTraces leaves
  | unspeakable =>
      obtain ⟨_, _, _, _, _, _, leaves⟩ := takes
      exact leavesTraces leaves

/-- A document that does not lie too deep takes exactly one course, if there is room for another
issue after the first. -/
theorem documentTakesOneCourse (d : Document) (limit : Nat) (strict : Bool) (maxIssues : Nat)
    (several : 1 < maxIssues) (shallow : d.parse ≠ .error .tooDeep) :
    ∃! course, d.Takes limit strict maxIssues course := by
  obtain ⟨course, takes⟩ := takesSome limit strict several shallow
  refine ⟨course, takes, fun other takes' => tracesDiffer ?_⟩
  rw [← takesTraces takes, ← takesTraces takes']

def dividesByZero : Document := ⟨"\\$(x=2,1/0\\$)", none⟩

theorem dividesByZeroStops :
    1 < 3 ∧ dividesByZero.parse ≠ .error .tooDeep ∧
      (∃! course, dividesByZero.Takes 20 false 3 course) ∧
      dividesByZero.Takes 20 false 3 .stopped := by
  let quotient := Expr.binary (.operator .division) (.literal (.integer 1) (some ⟨7, 8⟩))
    (.literal (.integer 0) (some ⟨9, 10⟩)) (some ⟨7, 10⟩)
  let set := Statement.valueDeclaration (.text "x") (.literal (.integer 2) (some ⟨5, 6⟩))
    (some ⟨3, 6⟩)
  have parsed : dividesByZero.parse = .ok ([set] ++ .expression quotient :: []) := by cbv
  have shallow : dividesByZero.parse ≠ .error .tooDeep := by rw [parsed]; simp
  have set : Statement.run 20 false .empty set
      = .ok (⟨[(.text "x", .integer 2)], [], []⟩, none) := by rfl
  have fails : (Statement.expression quotient).run 20 false ⟨[(.text "x", .integer 2)], [], []⟩
      = .error .divisionByZero := by rfl
  obtain ⟨place, stops⟩ := stopsAt parsed (.silent set (.nil _)) fails
  exact ⟨by decide, shallow, documentTakesOneCourse dividesByZero 20 false 3 (by decide) shallow,
    takesStopped (by decide) stops rfl⟩

end Telling
end LiterateMath
