import LiterateMath.Proofs.Evaluation
import LiterateMath.Condense

/-! What condensing can do to an expression, one case for each way it goes, as an induction over
the expression and what it condenses to. -/
namespace LiterateMath

def capturesOf : List (Expr × Captures) → Captures
  | [] => []
  | part :: rest => part.2.union (capturesOf rest)

theorem condenseArgumentsParts {f : Expr → Outcome (Expr × Captures)} {args bodies : List Expr}
    {captures : Captures} (ok : condenseArguments f args = .ok (bodies, captures)) :
    ∃ parts, List.Forall₂ (fun e part => f e = .ok part) args parts ∧
      bodies = parts.map Prod.fst ∧ captures = capturesOf parts := by
  induction args generalizing bodies captures with
  | nil =>
    cases ok
    exact ⟨[], .nil, rfl, rfl⟩
  | cons e rest ih =>
    obtain ⟨part, first, ok⟩ := bindIsOk.mp ok
    obtain ⟨⟨bodies, more⟩, tail, last⟩ := bindIsOk.mp ok
    obtain ⟨parts, each, rfl, rfl⟩ := ih tail
    cases last
    exact ⟨part :: parts, .cons first each, rfl, rfl⟩

namespace Scope

variable {s : Scope} {motive : Nat → Expr → Expr → Captures → Prop}

theorem captureOk {s : Scope} {name : Name} {captures : Captures}
    (ok : s.capture name = .ok captures) :
    ∃ t, s.env.snapshot name = .ok t ∧ captures = [(name, t)] := by
  obtain ⟨t, snapped, last⟩ := bindIsOk.mp ok
  cases last
  exact ⟨t, snapped, rfl⟩

theorem lookupVariableOk {env : Environment} {name : Name} {value : Number}
    (ok : env.lookupVariable name = .ok value) : env.values.find? name = some value := by
  unfold Environment.lookupVariable at ok
  cases found : env.values.find? name with
  | none => simp [found] at ok
  | some v => simpa [found] using ok

theorem condenseInduction
    (literal : ∀ limit value place,
      motive (limit + 1) (.literal value place) (.literal value place) [])
    (localName : ∀ limit name place, s.isLocal name = true →
      motive (limit + 1) (.lookup name place) (.lookup name place) [])
    (functionName : ∀ limit name place t, s.isLocal name = false →
      s.env.namesFunction name = true → s.env.snapshot name = .ok t →
      motive (limit + 1) (.lookup name place) (.lookup name place) [(name, t)])
    (numberName : ∀ limit name place value, s.isLocal name = false →
      s.env.namesFunction name = false → s.env.values.find? name = some value →
      motive (limit + 1) (.lookup name place) (.literal value place) [])
    (unary : ∀ limit op arg place body captures, motive limit arg body captures →
      motive (limit + 1) (.unary op arg place) (.unary op body place) captures)
    (binary : ∀ limit op lhs rhs place left right first second, motive limit lhs left first →
      motive limit rhs right second →
      motive (limit + 1) (.binary op lhs rhs place) (.binary op left right place)
        (first.union second))
    (conditional : ∀ limit condition ifTrue ifFalse place c t f first second third,
      motive limit condition c first → motive limit ifTrue t second →
      motive limit ifFalse f third →
      motive (limit + 1) (.conditional condition ifTrue ifFalse place) (.conditional c t f place)
        ((first.union second).union third))
    (localCall : ∀ limit function args place parts, s.isLocal function = true →
      List.Forall₂ (fun e part => motive limit e part.1 part.2) args parts →
      motive (limit + 1) (.call function args place)
        (.call function (parts.map Prod.fst) place) (capturesOf parts))
    (settledCall : ∀ limit function args place parts value, s.isLocal function = false →
      List.Forall₂ (fun e part => motive limit e part.1 part.2) args parts →
      (parts.map Prod.fst).all s.settled = true →
      evaluate limit s.env (.call function (parts.map Prod.fst) place) = .ok value →
      motive (limit + 1) (.call function args place) (.literal value place) (capturesOf parts))
    (pendingCall : ∀ limit function args place parts t, s.isLocal function = false →
      List.Forall₂ (fun e part => motive limit e part.1 part.2) args parts →
      (parts.map Prod.fst).all s.settled = false → s.env.snapshot function = .ok t →
      motive (limit + 1) (.call function args place)
        (.call function (parts.map Prod.fst) place) ((capturesOf parts).union [(function, t)]))
    {limit : Nat} {e body : Expr} {captures : Captures}
    (ok : condense s limit e = .ok (body, captures)) : motive limit e body captures := by
  induction limit generalizing e body captures with
  | zero => cases ok
  | succ limit ih =>
    cases e with
    | literal value place => cases ok; exact literal limit value place
    | lookup name place =>
      rw [condense, condenseMaking] at ok
      split at ok
      · rename_i inner
        cases ok
        exact localName limit name place inner
      · rename_i outer
        have outer : s.isLocal name = false := Bool.eq_false_iff.mpr outer
        split at ok
        · rename_i names
          obtain ⟨_, captured, last⟩ := bindIsOk.mp ok
          obtain ⟨t, snapped, rfl⟩ := captureOk captured
          cases last
          exact functionName limit name place t outer names snapped
        · rename_i unnamed
          obtain ⟨value, found, last⟩ := bindIsOk.mp ok
          cases last
          exact numberName limit name place value outer (Bool.eq_false_iff.mpr unnamed)
            (lookupVariableOk found)
    | unary op arg place =>
      obtain ⟨⟨body, captures⟩, inside, last⟩ := bindIsOk.mp ok
      cases last
      exact unary limit op arg place body captures (ih inside)
    | binary op lhs rhs place =>
      obtain ⟨⟨left, first⟩, inLeft, ok⟩ := bindIsOk.mp ok
      obtain ⟨⟨right, second⟩, inRight, last⟩ := bindIsOk.mp ok
      cases last
      exact binary limit op lhs rhs place left right first second (ih inLeft) (ih inRight)
    | conditional condition ifTrue ifFalse place =>
      obtain ⟨⟨c, first⟩, inCondition, ok⟩ := bindIsOk.mp ok
      obtain ⟨⟨t, second⟩, inTrue, ok⟩ := bindIsOk.mp ok
      obtain ⟨⟨f, third⟩, inFalse, last⟩ := bindIsOk.mp ok
      cases last
      exact conditional limit condition ifTrue ifFalse place c t f first second third
        (ih inCondition) (ih inTrue) (ih inFalse)
    | call function args place =>
      obtain ⟨⟨bodies, within⟩, inArgs, ok⟩ := bindIsOk.mp ok
      obtain ⟨parts, each, rfl, rfl⟩ := condenseArgumentsParts inArgs
      have each := each.imp fun e part ok => ih ok
      dsimp only at ok
      split at ok
      · rename_i inner
        cases ok
        exact localCall limit function args place parts inner each
      · rename_i outer
        have outer : s.isLocal function = false := Bool.eq_false_iff.mpr outer
        split at ok
        · rename_i settled
          obtain ⟨value, made, last⟩ := bindIsOk.mp ok
          cases last
          exact settledCall limit function args place parts value outer each settled made
        · rename_i unsettled
          obtain ⟨_, captured, last⟩ := bindIsOk.mp ok
          obtain ⟨t, snapped, rfl⟩ := captureOk captured
          cases last
          exact pendingCall limit function args place parts t outer each
            (Bool.eq_false_iff.mpr unsettled) snapped

theorem containsUnion (first second : Captures) (name : Name) :
    (first.union second).contains name = (first.contains name || second.contains name) := by
  simp only [Table.contains, Table.findUnion]
  cases first.find? name <;> rfl

section Captures

variable {e body : Expr} {captures : Captures} {args : List Expr}
  {parts : List (Expr × Captures)}

def Captured (s : Scope) (captures : Captures) : Prop :=
  ∀ entry ∈ captures, s.isLocal entry.1 = false ∧ s.env.snapshot entry.1 = .ok entry.2

theorem Captured.union {first second : Captures} (a : s.Captured first) (b : s.Captured second) :
    s.Captured (first.union second) := by
  intro entry member
  rcases List.mem_append.mp member with inFirst | inSecond
  · exact a entry inFirst
  · exact b entry (List.mem_of_mem_filter inSecond)

theorem Captured.single {name : Name} {t : Snapshot} (outside : s.isLocal name = false)
    (snapped : s.env.snapshot name = .ok t) : s.Captured [(name, t)] := by
  intro entry member
  cases List.mem_singleton.mp member
  exact ⟨outside, snapped⟩

theorem Captured.ofParts (each : List.Forall₂ (fun _ part => s.Captured part.2) args parts) :
    s.Captured (capturesOf parts) := by
  induction each with
  | nil => exact fun entry member => nomatch member
  | cons first rest ih => exact first.union ih

theorem condenseCaptured {limit : Nat} (ok : condense s limit e = .ok (body, captures)) :
    s.Captured captures := by
  have nothing : s.Captured [] := fun entry member => nomatch member
  refine condenseInduction (motive := fun _ _ _ captures => s.Captured captures) ?literal
    ?localName ?functionName ?numberName ?unary ?binary ?conditional ?localCall ?settledCall
    ?pendingCall ok
  case literal => exact fun _ _ _ => nothing
  case localName => exact fun _ _ _ _ => nothing
  case functionName => exact fun _ name place t outside _ snapped => .single outside snapped
  case numberName => exact fun _ _ _ _ _ _ _ => nothing
  case unary => exact fun _ _ _ _ _ _ inside => inside
  case binary => exact fun _ _ _ _ _ _ _ _ _ first second => first.union second
  case conditional =>
    exact fun _ _ _ _ _ _ _ _ _ _ _ first second third => (first.union second).union third
  case localCall => exact fun _ _ _ _ _ _ each => .ofParts each
  case settledCall => exact fun _ _ _ _ _ _ _ each _ _ => .ofParts each
  case pendingCall =>
    exact fun _ _ _ _ _ t outside each _ snapped =>
      (Captured.ofParts each).union (.single outside snapped)

end Captures

end Scope
end LiterateMath
