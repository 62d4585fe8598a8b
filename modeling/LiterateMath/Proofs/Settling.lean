import LiterateMath.Proofs.Closure

/-! Condensing what has been condensed. No name in it stands for a number any more and every call
in it has to wait, so condensing it again leaves it as it is, makes no call and captures nothing
that was not captured before. -/
namespace LiterateMath

namespace Scope

variable {s : Scope} {limit : Nat} {e body : Expr} {captures : Captures} {args : List Expr}
  {parts : List (Expr × Captures)}

/-- Condensing comes to the same expression again, whatever the calls would come to that it might
make on the way. -/
def Finished (s : Scope) (limit : Nat) (body : Expr) : Prop :=
  ∃ captures, ∀ make, condenseMaking make s limit body = .ok (body, captures)

theorem partsFinished (each : List.Forall₂ (fun _ part => s.Finished limit part.1) args parts) :
    ∃ captures, ∀ make, condenseArguments (condenseMaking make s limit) (parts.map Prod.fst)
      = .ok (parts.map Prod.fst, captures) := by
  induction each with
  | nil => exact ⟨[], fun _ => rfl⟩
  | cons first _ ih =>
      obtain ⟨captures, here⟩ := first
      obtain ⟨more, later⟩ := ih
      refine ⟨captures.union more, fun make => ?_⟩
      simp only [List.map_cons, condenseArguments, here make, later make, bindOk, pureOk]

theorem condenseFinished (ok : condense s limit e = .ok (body, captures)) :
    s.Finished limit body := by
  have literal (limit : Nat) (value : Number) (place : Option Span) :
      s.Finished (limit + 1) (.literal value place) := ⟨[], fun _ => rfl⟩
  refine condenseInduction (motive := fun limit _ body _ => s.Finished limit body) ?literal
    ?localName ?functionName ?numberName ?unary ?binary ?conditional ?localCall ?settledCall
    ?pendingCall ok
  case literal => exact literal
  case localName =>
    intro limit name place inside
    exact ⟨[], fun _ => by simp only [condenseMaking, if_pos inside]⟩
  case functionName =>
    intro limit name place t outside names snapped
    refine ⟨[(name, t)], fun _ => ?_⟩
    simp [condenseMaking, outside, names, capture, snapped]
  case numberName => exact fun limit _ place value _ _ _ => literal limit value place
  case unary =>
    rintro limit op arg place body - ⟨captures, inside⟩
    exact ⟨captures, fun make => by simp [condenseMaking, inside make]⟩
  case binary =>
    rintro limit op lhs rhs place left right - - ⟨first, inLeft⟩ ⟨second, inRight⟩
    exact ⟨first.union second, fun make => by simp [condenseMaking, inLeft make, inRight make]⟩
  case conditional =>
    rintro limit condition ifTrue ifFalse place c t f - - - ⟨first, inCondition⟩
      ⟨second, inTrue⟩ ⟨third, inFalse⟩
    refine ⟨(first.union second).union third, fun make => ?_⟩
    simp [condenseMaking, inCondition make, inTrue make, inFalse make]
  case localCall =>
    intro limit function args place parts inside each
    obtain ⟨captures, again⟩ := partsFinished each
    exact ⟨captures, fun make => by simp [condenseMaking, again make, inside]⟩
  case settledCall => exact fun limit _ _ place _ value _ _ _ _ => literal limit value place
  case pendingCall =>
    intro limit function args place parts t outside each waits snapped
    obtain ⟨captures, again⟩ := partsFinished each
    refine ⟨captures.union [(function, t)], fun make => ?_⟩
    simp only [condenseMaking, again make, bindOk, outside, waits, Bool.false_eq_true, if_false]
    simp [capture, snapped]

theorem partsMentioned (each : List.Forall₂
      (fun e part => ∀ name, part.2.contains name = true → name ∈ e.mentioned) args parts)
    (name : Name) (captured : (capturesOf parts).contains name = true) :
    name ∈ Expr.mentionedIn args := by
  induction each with
  | nil => cases captured
  | cons first _ ih =>
      rw [capturesOf, containsUnion, Bool.or_eq_true] at captured
      exact List.mem_append.mpr (captured.imp (first name) ih)

theorem condenseCapturesMentioned (ok : condense s limit e = .ok (body, captures)) :
    ∀ name, captures.contains name = true → name ∈ e.mentioned := by
  have named {function name : Name} {t : Snapshot}
      (captured : Table.contains [(function, t)] name = true) : name = function := by
    simpa [Table.contains, Table.findCons, Table.find?] using captured
  have nothing (e : Expr) (name : Name) (captured : Table.contains ([] : Captures) name = true) :
      name ∈ e.mentioned := by cases captured
  refine condenseInduction
    (motive := fun _ e _ captures => ∀ name, captures.contains name = true → name ∈ e.mentioned)
    ?literal ?localName ?functionName ?numberName ?unary ?binary ?conditional ?localCall
    ?settledCall ?pendingCall ok
  case literal => exact fun _ _ _ => nothing _
  case localName => exact fun _ _ _ _ => nothing _
  case functionName => exact fun _ _ _ _ _ _ _ _ captured => List.mem_singleton.mpr (named captured)
  case numberName => exact fun _ _ _ _ _ _ _ => nothing _
  case unary => exact fun _ _ _ _ _ _ inside => inside
  case binary =>
    intro _ _ _ _ _ _ _ first second inLeft inRight name captured
    rw [containsUnion, Bool.or_eq_true] at captured
    exact List.mem_append.mpr (captured.imp (inLeft name) (inRight name))
  case conditional =>
    intro _ _ _ _ _ _ _ _ first second third inCondition inTrue inFalse name captured
    rw [containsUnion, containsUnion, Bool.or_eq_true, Bool.or_eq_true] at captured
    refine List.mem_append.mpr (captured.imp (fun before => ?_) (inFalse name))
    exact List.mem_append.mpr (before.imp (inCondition name) (inTrue name))
  case localCall =>
    exact fun _ _ _ _ _ _ each name captured => .tail _ (partsMentioned each name captured)
  case settledCall =>
    exact fun _ _ _ _ _ _ _ each _ _ name captured => .tail _ (partsMentioned each name captured)
  case pendingCall =>
    intro _ function _ _ parts t _ each _ _ name captured
    rw [containsUnion, Bool.or_eq_true] at captured
    rcases captured with inside | here
    · exact .tail _ (partsMentioned each name inside)
    · exact List.mem_cons.mpr (.inl (named here))

theorem Captured.same {first second : Captures} (a : s.Captured first) (b : s.Captured second)
    (within : ∀ name, first.contains name = true → s.isLocal name = false →
      second.contains name = true) {name : Name} {t : Snapshot}
    (found : first.find? name = some t) : second.find? name = some t := by
  obtain ⟨outside, snapped⟩ := a _ (Table.findMember found)
  -- Both snapshots are of the environment of the scope, so they are one.
  obtain ⟨t', found'⟩ := Option.isSome_iff_exists.mp
    (within name (Option.isSome_iff_exists.mpr ⟨t, found⟩) outside)
  have snapped' := (b _ (Table.findMember found')).2
  exact found'.trans (congrArg some (Except.ok.inj (snapped'.symm.trans snapped)))

end Scope

/-- Condensing a condensed body in the same environment succeeds and leaves it as it is. However
calls might be made, none is made, and whatever is captured was captured before as the same. -/
theorem condensingTwice {limit : Nat} {env : Environment} {d stored : FunctionDefinition}
    (condensed : d.condensed limit env = .ok stored) :
    ∃ captures : Captures,
      { d with body := stored.body }.condensed limit env = .ok { stored with captures } ∧
      (∀ make, condenseMaking make (d.scope env) limit stored.body
        = .ok (stored.body, captures)) ∧
      ∀ name t, captures.find? name = some t → Table.find? stored.captures name = some t := by
  obtain ⟨⟨body, first⟩, inside, last⟩ := bindIsOk.mp condensed
  cases last
  obtain ⟨captures, again⟩ := Scope.condenseFinished inside
  have second : condense (d.scope env) limit body = .ok (body, captures) := again _
  refine ⟨captures, ?_, again, fun name t found => ?_⟩
  · exact bindIsOk.mpr ⟨(body, captures), second, rfl⟩
  · refine (Scope.condenseCaptured second).same (Scope.condenseCaptured inside) ?_ found
    intro name captured outside
    have mentioned := Scope.condenseCapturesMentioned second name captured
    refine (Scope.condenseCovers inside name mentioned).resolve_left ?_
    rw [outside]
    exact Bool.false_ne_true

def handedOn : FunctionDefinition where
  name := .greek .alpha
  params := [.greek .gamma, .greek .nu]
  body := .call (.greek .gamma) [.letter .nu] none
  captures := []
  place := none

def mixedSum : FunctionDefinition where
  name := .greek .phi
  params := [.greek .nu]
  body := .binary (.operator .addition)
    (.call (.greek .alpha) [.letter .sigma, .letter .xi] none)
    (.call (.greek .alpha) [.letter .omega, .letter .nu] none) none
  captures := []
  place := none

def mixedScope : Environment where
  values := [(.greek .xi, .integer 5)]
  declarations := []
  definitions := [(.greek .alpha, handedOn), (.greek .sigma, square), (.greek .omega, factorial)]

def storedMixedSum : FunctionDefinition :=
  { mixedSum with
    body := .binary (.operator .addition) (.integer 25)
      (.call (.greek .alpha) [.letter .omega, .letter .nu] none) none
    captures := [(.greek .sigma, none, square), (.greek .omega, none, factorial),
      (.greek .alpha, none, handedOn)] }

theorem mixedSumTwice :
    mixedSum.condensed 10 mixedScope = .ok storedMixedSum ∧
      ∃ captures : Captures,
        { mixedSum with body := storedMixedSum.body }.condensed 10 mixedScope
          = .ok { storedMixedSum with captures } ∧
        captures = [(.greek .omega, none, factorial), (.greek .alpha, none, handedOn)] ∧
        condenseMaking (fun _ _ => .error .tooDeep) (mixedSum.scope mixedScope) 10
          storedMixedSum.body = .ok (storedMixedSum.body, captures) ∧
        ∀ name t, captures.find? name = some t →
          Table.find? storedMixedSum.captures name = some t := by
  have condensed : mixedSum.condensed 10 mixedScope = .ok storedMixedSum := rfl
  obtain ⟨captures, again, made, same⟩ := condensingTwice condensed
  have found : { mixedSum with body := storedMixedSum.body }.condensed 10 mixedScope
      = .ok { storedMixedSum with
        captures := [(.greek .omega, none, factorial), (.greek .alpha, none, handedOn)] } := rfl
  refine ⟨condensed, captures, again, ?_, made _, same⟩
  exact congrArg FunctionDefinition.captures (Except.ok.inj (again.symm.trans found))

end LiterateMath
