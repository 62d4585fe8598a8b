import LiterateMath.Proofs.Condensing
import LiterateMath.Proofs.Composition
import LiterateMath.Proofs.Session

/-! Other limits on how deep statements go. Whatever does not go too deep under a limit comes to
the same under every higher one: a value, a definition, what a statement does, or a fault. So all
that a higher limit can do is to let a program go on where it would have stopped. -/
namespace LiterateMath

namespace Agree

variable {α β γ : Type} {left right : Prop}

theorem bindSame {related : β → γ → Prop} {r s : Outcome α} {f : α → Outcome β}
    {g : α → Outcome γ} (first : Agree left right Eq r s)
    (next : ∀ a, Agree left right related (f a) (g a)) :
    Agree left right related (r >>= f) (s >>= g) :=
  first.bind fun a _ same => same ▸ next a

theorem raised {low high : Nat} {r s : Outcome α} (agree : Agree (low < high) (high < low) Eq r s)
    (more : low ≤ high) : r = .error .tooDeep ∨ s = r := by
  cases agree with
  | ok same => exact .inr (congrArg _ same.symm)
  | error fault => exact .inr rfl
  | deepLeft _ s => exact .inl rfl
  | deepRight lower r => exact absurd more (Nat.not_le.mpr lower)

end Agree

section Expressions

theorem valueAgree (env : Environment) (m n : Nat) (e : Expr) :
    Agree (m < n) (n < m) Eq (evaluate m env e) (evaluate n env e) :=
  evaluateAgree (fun _ => ⟨rfl, rfl⟩) m n e

theorem condenseArgumentsAgree {left right : Prop} {f g : Expr → Outcome (Expr × Captures)}
    (each : ∀ e, Agree left right Eq (f e) (g e)) (args : List Expr) :
    Agree left right Eq (condenseArguments f args) (condenseArguments g args) := by
  induction args with
  | nil => exact .ok rfl
  | cons e rest ih => exact (each e).bindSame fun _ => ih.bindSame fun _ => .ok rfl

theorem condenseAgree (s : Scope) (m n : Nat) (e : Expr) :
    Agree (m < n) (n < m) Eq (condense s m e) (condense s n e) := by
  induction m generalizing n e with
  | zero =>
      cases n with
      | zero => exact .error _
      | succ n => exact .deepLeft (Nat.succ_pos n) _
  | succ m ih =>
      cases n with
      | zero => exact .deepRight (Nat.succ_pos m) _
      | succ n =>
          have below (e : Expr) : Agree (m + 1 < n + 1) (n + 1 < m + 1) Eq (condense s m e)
              (condense s n e) := (ih n e).excuse Nat.succ_lt_succ Nat.succ_lt_succ
          cases e with
          | literal value place => exact .ok rfl
          | lookup name place => exact .refl (fun _ => rfl) _
          | unary op arg place => exact (below arg).bindSame fun _ => .ok rfl
          | binary op lhs rhs place =>
              exact (below lhs).bindSame fun _ => (below rhs).bindSame fun _ => .ok rfl
          | conditional condition ifTrue ifFalse place =>
              exact (below condition).bindSame fun _ => (below ifTrue).bindSame fun _ =>
                (below ifFalse).bindSame fun _ => .ok rfl
          | call function args place =>
              refine (condenseArgumentsAgree below args).bindSame fun ⟨bodies, captures⟩ => ?_
              dsimp only
              split
              · exact .ok rfl
              · split
                -- A settled call is made where it stands, with what is left of either limit.
                · have made := valueAgree s.env m n (.call function bodies place)
                  exact (made.excuse Nat.succ_lt_succ Nat.succ_lt_succ).bindSame fun _ => .ok rfl
                · exact .refl (fun _ => rfl) _

theorem condensedAgree (env : Environment) (d : FunctionDefinition) (m n : Nat) :
    Agree (m < n) (n < m) Eq (d.condensed m env) (d.condensed n env) :=
  (condenseAgree (d.scope env) m n d.body).bindSame fun _ => .ok rfl

end Expressions

section Statements

theorem statementAgree (strict : Bool) (env : Environment) (statement : Statement) (m n : Nat) :
    Agree (m < n) (n < m) Eq (statement.run m strict env) (statement.run n strict env) := by
  cases statement with
  | expression e => exact (valueAgree env m n e).bindSame fun _ => .refl (fun _ => rfl) _
  | valueDeclaration name e place => exact (valueAgree env m n e).bindSame fun _ => .ok rfl
  | functionDeclaration d => exact .ok rfl
  | setDeclaration name members place => exact .error _
  | functionDefinition d =>
      have stored : Agree (m < n) (n < m) Eq (storedDefinition m strict env d)
          (storedDefinition n strict env d) := by
        unfold storedDefinition
        split
        · exact .error _
        · exact condensedAgree env d m n
      exact stored.bindSame fun _ => .ok rfl

end Statements

section Programs

/-- Under the lower limit a program stops where a statement goes too deep. Up to there it runs as
under the higher one, which goes on from that statement. -/
structure CutShort (low high : Nat) (s : Session) (program before : List Statement)
    (failing : Statement) (after : List Statement) : Prop where
  parts : program = before ++ failing :: after
  same : s.run before low = s.run before high
  finishes : (s.run before low).failure = none
  stops : s.run program low
    = ⟨⟨(s.run before low).session.env, s.index + before.length + 1, s.strict⟩,
        (s.run before low).output,
        some ⟨.tooDeep, some (s.index + before.length + 1), failing.place⟩, after⟩
  goesOn : s.run program high
    = ((s.run before low).session.run (failing :: after) high).following
        (s.run before low).output

variable {low high : Nat} {s : Session} {statement failing : Statement} {env : Environment}
  {line : Option String} {rest before after : List Statement}

theorem CutShort.first (deep : statement.run low s.strict s.env = .error .tooDeep)
    (rest : List Statement) : CutShort low high s (statement :: rest) [] statement rest where
  parts := rfl
  same := rfl
  finishes := rfl
  stops := by
    rw [runFails deep]
    rfl
  goesOn := rfl

theorem CutShort.later (done : statement.run low s.strict s.env = .ok (env, line))
    (alike : statement.run high s.strict s.env = .ok (env, line))
    (cut : CutShort low high { s with env, index := s.index + 1 } rest before failing after) :
    CutShort low high s (statement :: rest) (statement :: before) failing after where
  parts := by rw [cut.parts, List.cons_append]
  same := by rw [runOk done, runOk alike, cut.same]
  finishes := by
    rw [runOk done]
    exact cut.finishes
  stops := by
    rw [runOk done, runOk done, cut.stops]
    simp [Run.following, Nat.add_right_comm, Nat.add_assoc]
  goesOn := by
    rw [runOk done, runOk alike, cut.goesOn]
    simp only [Run.following, List.append_assoc]

theorem programRaised (more : low ≤ high) (s : Session) (program : List Statement) :
    s.run program high = s.run program low ∨
      ∃ before failing after, CutShort low high s program before failing after := by
  induction program generalizing s with
  | nil => exact .inl rfl
  | cons statement rest ih =>
      obtain deep | alike := (statementAgree s.strict s.env statement low high).raised more
      · exact .inr ⟨[], statement, rest, .first deep rest⟩
      · cases done : statement.run low s.strict s.env with
        | error fault =>
            refine .inl ?_
            rw [runFails done, runFails (alike.trans done)]
        | ok result =>
            obtain ⟨env, line⟩ := result
            rw [done] at alike
            obtain same | ⟨before, failing, after, cut⟩ := ih { s with env, index := s.index + 1 }
            · exact .inl (by rw [runOk done, runOk alike, same])
            · exact .inr ⟨statement :: before, failing, after, cut.later done alike⟩

end Programs

/-- What a value, a definition or a statement comes to under a limit is that it goes too deep, or
what it comes to under any higher limit. A program runs in the same way under both, or is cut short
under the lower one. -/
theorem limitOnlyCutsOff {low high : Nat} (more : low ≤ high) :
    (∀ (env : Environment) (e : Expr),
      evaluate low env e = .error .tooDeep ∨ evaluate high env e = evaluate low env e) ∧
    (∀ (env : Environment) (d : FunctionDefinition),
      d.condensed low env = .error .tooDeep ∨ d.condensed high env = d.condensed low env) ∧
    (∀ (strict : Bool) (env : Environment) (statement : Statement),
      statement.run low strict env = .error .tooDeep ∨
        statement.run high strict env = statement.run low strict env) ∧
    ∀ (s : Session) (program : List Statement),
      s.run program high = s.run program low ∨
        ∃ before failing after, CutShort low high s program before failing after := by
  refine ⟨fun env e => ?_, fun env d => ?_, fun strict env statement => ?_, fun s program => ?_⟩
  · exact (valueAgree env low high e).raised more
  · exact (condensedAgree env d low high).raised more
  · exact (statementAgree strict env statement low high).raised more
  · exact programRaised more s program

def factorialOf (n : Int) : Expr := .call (.greek .phi) [.integer n] none

def sixMore : FunctionDefinition where
  name := .greek .psi
  params := [.greek .nu]
  body := .binary (.operator .addition) (factorialOf 3) (.letter .nu) none
  captures := []
  place := none

def nearThenFar : List Statement :=
  [.functionDefinition factorial, .expression (factorialOf 4), .expression (factorialOf 9)]

theorem farFactorialCutShort :
    20 ≤ depthLimit ∧
      evaluate 20 factorialNamed (factorialOf 4) = .ok (.integer 24) ∧
      evaluate depthLimit factorialNamed (factorialOf 4) = .ok (.integer 24) ∧
      evaluate 20 factorialNamed (factorialOf 9) = .error .tooDeep ∧
      sixMore.condensed 20 factorialNamed
        = .ok { sixMore with
          body := .binary (.operator .addition) (.integer 6) (.letter .nu) none } ∧
      sixMore.condensed depthLimit factorialNamed = sixMore.condensed 20 factorialNamed ∧
      sixMore.condensed 10 factorialNamed = .error .tooDeep ∧
      ∃ before failing after,
        CutShort 20 depthLimit (.fresh false) nearThenFar before failing after := by
  have more : 20 ≤ depthLimit := by decide
  obtain ⟨values, definitions, -, programs⟩ := limitOnlyCutsOff more
  have near : evaluate 20 factorialNamed (factorialOf 4) = .ok (.integer 24) := rfl
  have stored : sixMore.condensed 20 factorialNamed
      = .ok { sixMore with
        body := .binary (.operator .addition) (.integer 6) (.letter .nu) none } := rfl
  refine ⟨more, near, ?_, rfl, stored, ?_, rfl, ?_⟩
  · exact ((values factorialNamed (factorialOf 4)).resolve_left (by simp [near])).trans near
  · exact (definitions factorialNamed sixMore).resolve_left (by simp [stored])
  · refine (programs (.fresh false) nearThenFar).resolve_left fun same => ?_
    have finishes : ((Session.fresh false).run nearThenFar).failure.isNone = true := by
      decide +kernel
    have stops : ((Session.fresh false).run nearThenFar 20).failure.isNone = false := by
      decide +kernel
    rw [same, stops] at finishes
    cases finishes

end LiterateMath
