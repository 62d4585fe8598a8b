import LiterateMath.Proofs.Outcome
import LiterateMath.Parse.Postfix

/-! What the stack of waiting operations does in one release: it gives up a run of operations
from the top and keeps the rest as it was. -/
namespace LiterateMath

def waits (o : Operation × Span) : Waiting := .operation o.1 o.2

def puts (o : Operation × Span) : Postfix := .operation o.1 o.2

namespace Yard

variable {test : Operation → Bool} {emitted : List Postfix} {waiting : List Waiting}

def Holds (test : Operation → Bool) (waiting : List Waiting) : Prop :=
  ∀ o rest, waiting = waits o :: rest → test o.1 = false

theorem holdsEmpty : Holds test [] := by
  intro o rest h
  cases h

theorem holdsBracket (b : Bracket) (place : Span) : Holds test (.bracket b place :: waiting) := by
  intro o rest h
  cases h

theorem holdsOperation {op : Operation} {place : Span} (h : test op = false) :
    Holds test (.operation op place :: waiting) := by
  intro o rest same
  cases same
  exact h

theorem releaseHeld (h : Holds test waiting) :
    release test emitted waiting = (emitted, waiting) := by
  unfold release
  split
  · rename_i op place rest
    have held : test op = false := h (op, place) rest rfl
    simp [held]
  · rfl

theorem releasePassing {ops : List (Operation × Span)} (h : ∀ o ∈ ops, test o.1 = true) :
    release test emitted (ops.map waits ++ waiting)
      = release test ((ops.map puts).reverse ++ emitted) waiting := by
  induction ops generalizing emitted with
  | nil => rfl
  | cons o ops ih =>
    have passes := h o (by simp)
    have later : ∀ o ∈ ops, test o.1 = true := fun o member => h o (by simp [member])
    simpa [waits, puts, release, passes] using @ih (puts o :: emitted) later

theorem releaseRun {ops : List (Operation × Span)} (passes : ∀ o ∈ ops, test o.1 = true)
    (held : Holds test waiting) :
    release test emitted (ops.map waits ++ waiting)
      = ((ops.map puts).reverse ++ emitted, waiting) := by
  rw [releasePassing passes, releaseHeld held]

theorem releaseSplit (test : Operation → Bool) (waiting : List Waiting) :
    ∃ (ops : List (Operation × Span)) (rest : List Waiting),
      waiting = ops.map waits ++ rest ∧ (∀ o ∈ ops, test o.1 = true) ∧ Holds test rest := by
  induction waiting with
  | nil => exact ⟨[], [], rfl, by simp, holdsEmpty⟩
  | cons top below ih =>
      cases top with
      | bracket b place => exact ⟨[], _, rfl, by simp, holdsBracket b place⟩
      | operation op place =>
          cases passes : test op with
          | false => exact ⟨[], _, rfl, by simp, holdsOperation passes⟩
          | true =>
              obtain ⟨ops, rest, rfl, later, held⟩ := ih
              refine ⟨(op, place) :: ops, rest, rfl, ?_, held⟩
              intro o member
              rcases List.mem_cons.mp member with rfl | below
              · exact passes
              · exact later o below

theorem heldAll {waiting : List Waiting} (h : Holds (fun _ => true) waiting) :
    waiting = [] ∨ ∃ b place rest, waiting = .bracket b place :: rest := by
  cases waiting with
  | nil => exact .inl rfl
  | cons top rest =>
      cases top with
      | bracket b place => exact .inr ⟨b, place, rest, rfl⟩
      | operation op place => cases h (op, place) rest rfl

def run (y : Yard) (ps : List Piece) : Parsed (List Postfix) := do
  (← ps.foldlM step y).finish

theorem runNil (y : Yard) : y.run [] = y.finish := by simp [run]

theorem runAppend {y y' : Yard} {ps : List Piece} (h : ps.foldlM step y = .ok y')
    (qs : List Piece) : y.run (ps ++ qs) = y'.run qs := by
  unfold run
  rw [List.foldlM_append, h]
  rfl

theorem runCons {y y' : Yard} {p : Piece} (h : y.step p = .ok y') (qs : List Piece) :
    y.run (p :: qs) = y'.run qs := by
  unfold run
  rw [List.foldlM_cons, h]
  rfl

theorem runParts {y : Yard} {ps qs : List Piece} {items : List Postfix}
    (h : y.run (ps ++ qs) = .ok items) :
    ∃ y', ps.foldlM step y = .ok y' ∧ y'.run qs = .ok items := by
  unfold run at h ⊢
  rw [List.foldlM_append] at h
  obtain ⟨last, ran, finished⟩ := bindIsOk.mp h
  obtain ⟨y', first, second⟩ := bindIsOk.mp ran
  exact ⟨y', first, bindIsOk.mpr ⟨last, second, finished⟩⟩

theorem runConsParts {y : Yard} {p : Piece} {qs : List Piece} {items : List Postfix}
    (h : y.run (p :: qs) = .ok items) : ∃ y', y.step p = .ok y' ∧ y'.run qs = .ok items := by
  obtain ⟨last, ran, finished⟩ := bindIsOk.mp h
  rw [List.foldlM_cons] at ran
  obtain ⟨y', first, second⟩ := bindIsOk.mp ran
  exact ⟨y', first, bindIsOk.mpr ⟨last, second, finished⟩⟩

theorem finishSplit {y : Yard} {items : List Postfix} (h : y.finish = .ok items) :
    ∃ ops : List (Operation × Span),
      y.waiting = ops.map waits ∧ items = y.emitted.reverse ++ ops.map puts := by
  obtain ⟨ops, rest, same, passes, held⟩ := releaseSplit (fun _ => true) y.waiting
  unfold finish at h
  simp only at h
  rw [same, releaseRun passes held] at h
  rcases heldAll held with rfl | ⟨b, place, rest, rfl⟩
  · cases h
    exact ⟨ops, by simpa using same, by simp⟩
  · cases h

theorem finishOps {ops : List (Operation × Span)} (expecting : Bool) :
    finish ⟨emitted, ops.map waits, expecting⟩ = .ok (emitted.reverse ++ ops.map puts) := by
  have released : release (fun _ => true) emitted (ops.map waits ++ [])
      = ((ops.map puts).reverse ++ emitted, []) := releaseRun (fun _ _ => rfl) holdsEmpty
  rw [List.append_nil] at released
  simp [finish, released]

theorem closeSplit {y y' : Yard} {b : Bracket} {place : Span} (h : y.close b place = .ok y') :
    ∃ (ops : List (Operation × Span)) (opener : Span) (rest : List Waiting),
      y.waiting = ops.map waits ++ .bracket b opener :: rest ∧
        y' = ⟨(ops.map puts).reverse ++ y.emitted, rest, false⟩ := by
  obtain ⟨ops, rest, same, passes, held⟩ := releaseSplit (fun _ => true) y.waiting
  unfold close at h
  simp only at h
  rw [same, releaseRun passes held] at h
  rcases heldAll held with rfl | ⟨c, opener, rest, rfl⟩
  · cases h
  · simp only at h
    split at h
    · rename_i kind
      subst kind
      cases h
      exact ⟨ops, opener, rest, same, rfl⟩
    · cases h

theorem closeRun {ops : List (Operation × Span)} (expecting : Bool) (b : Bracket)
    (opener closer : Span) :
    close ⟨emitted, ops.map waits ++ .bracket b opener :: waiting, expecting⟩ b closer
      = .ok ⟨(ops.map puts).reverse ++ emitted, waiting, false⟩ := by
  unfold close
  rw [releaseRun (fun _ _ => rfl) (holdsBracket b opener)]
  simp

theorem operateSplit (y : Yard) (c : Connective) (place : Span) :
    ∃ (ops : List (Operation × Span)) (rest : List Waiting),
      y.waiting = ops.map waits ++ rest ∧
      (∀ o ∈ ops, goesBefore (.binary c) o.1 = true) ∧ Holds (goesBefore (.binary c)) rest ∧
      y.operate (.binary c) place
        = ⟨(ops.map puts).reverse ++ y.emitted, waits (.binary c, place) :: rest, true⟩ := by
  obtain ⟨ops, rest, same, passes, held⟩ := releaseSplit (goesBefore (.binary c)) y.waiting
  refine ⟨ops, rest, same, passes, held, ?_⟩
  simp only [operate, same, releaseRun passes held]
  rfl

theorem operateRun {ops : List (Operation × Span)} {c : Connective} (expecting : Bool)
    (place : Span) (passes : ∀ o ∈ ops, goesBefore (.binary c) o.1 = true)
    (held : Holds (goesBefore (.binary c)) waiting) :
    operate ⟨emitted, ops.map waits ++ waiting, expecting⟩ (.binary c) place
      = ⟨(ops.map puts).reverse ++ emitted, waits (.binary c, place) :: waiting, true⟩ := by
  simp only [operate, releaseRun passes held]
  rfl

theorem holdsBelow {rest tail : List Waiting} (held : Holds test rest) (low : Holds test tail) :
    Holds test (rest ++ tail) := by
  cases rest with
  | nil => exact low
  | cons top below =>
      intro o more same
      exact held o below (by rw [(List.cons.inj same).1])

theorem stepOver {y y' : Yard} {p : Piece} (h : y.step p = .ok y') :
    ∃ new, y'.emitted = new ++ y.emitted ∧
      ∀ emitted tail, (∀ test, Holds test tail) →
        step ⟨emitted, y.waiting ++ tail, y.expecting⟩ p
          = .ok ⟨new ++ emitted, y'.waiting ++ tail, y'.expecting⟩ := by
  unfold step at h ⊢
  cases role : p.role y.expecting with
  | operand o =>
      simp only [role] at h ⊢
      cases h
      exact ⟨[.operand o p.span], rfl, fun _ _ _ => rfl⟩
  | opening b =>
      simp only [role] at h ⊢
      cases h
      exact ⟨[], rfl, fun _ _ _ => rfl⟩
  | closing b =>
      simp only [role] at h ⊢
      obtain ⟨ops, opener, rest, same, rfl⟩ := closeSplit h
      refine ⟨(ops.map puts).reverse, rfl, fun emitted tail _ => ?_⟩
      rw [same, List.append_assoc]
      exact closeRun _ b opener p.span
  | operation op =>
      simp only [role] at h ⊢
      cases h
      cases op with
      | unary u => exact ⟨[], rfl, fun _ _ _ => rfl⟩
      | binary c =>
          obtain ⟨ops, rest, same, passes, held, result⟩ := operateSplit y c p.span
          refine ⟨(ops.map puts).reverse, by rw [result], fun emitted tail low => ?_⟩
          rw [result, same, List.append_assoc]
          exact congrArg _ (operateRun _ p.span passes (holdsBelow held (low _)))
  | stray fault =>
      simp only [role] at h
      cases h

theorem stepsOver {y y' : Yard} {ps : List Piece} (h : ps.foldlM step y = .ok y') :
    ∃ new, y'.emitted = new ++ y.emitted ∧
      ∀ emitted tail, (∀ test, Holds test tail) →
        ps.foldlM step ⟨emitted, y.waiting ++ tail, y.expecting⟩
          = .ok ⟨new ++ emitted, y'.waiting ++ tail, y'.expecting⟩ := by
  induction ps generalizing y with
  | nil =>
      cases h
      exact ⟨[], rfl, fun _ _ _ => rfl⟩
  | cons p ps ih =>
      rw [List.foldlM_cons] at h
      obtain ⟨middle, first, later⟩ := bindIsOk.mp h
      obtain ⟨new, puts, steps⟩ := stepOver first
      obtain ⟨more, last, runs⟩ := ih later
      refine ⟨more ++ new, by rw [last, puts, List.append_assoc], fun emitted tail low => ?_⟩
      rw [List.foldlM_cons, steps emitted tail low, bindOk, runs _ tail low, List.append_assoc]

theorem runOver {y : Yard} {ps : List Piece} {items : List Postfix} (h : y.run ps = .ok items) :
    ∃ new, items = y.emitted.reverse ++ new ∧
      ∀ emitted, run ⟨emitted, y.waiting, y.expecting⟩ ps = .ok (emitted.reverse ++ new) := by
  obtain ⟨last, ran, finished⟩ := bindIsOk.mp h
  obtain ⟨new, puts, runs⟩ := stepsOver ran
  obtain ⟨ops, same, rfl⟩ := finishSplit finished
  refine ⟨new.reverse ++ ops.map LiterateMath.puts, by rw [puts]; simp, fun emitted => ?_⟩
  have ran' := runs emitted [] fun _ => holdsEmpty
  rw [List.append_nil, List.append_nil] at ran'
  unfold run
  rw [ran', bindOk, same, finishOps]
  simp

theorem groupRuns {ps : List Piece} {items : List Postfix} (h : toPostfix ps = .ok items)
    (b : Bracket) (opener closer : Span) (y : Yard) :
    (Piece.token (.plain (.opening b) opener) :: ps
        ++ [Piece.token (.plain (.closing b) closer)]).foldlM step y
      = .ok ⟨items.reverse ++ y.emitted, y.waiting, false⟩ := by
  obtain ⟨last, ran, finished⟩ := bindIsOk.mp h
  obtain ⟨new, puts, runs⟩ := stepsOver ran
  obtain ⟨ops, same, rfl⟩ := finishSplit finished
  have opens : y.step (.token (.plain (.opening b) opener))
      = .ok ⟨y.emitted, .bracket b opener :: y.waiting, true⟩ := rfl
  have closes (y : Yard) : y.step (.token (.plain (.closing b) closer)) = y.close b closer := rfl
  have inner := runs y.emitted (.bracket b opener :: y.waiting) fun _ => holdsBracket b opener
  simp only [empty, List.nil_append] at inner
  rw [List.cons_append, List.foldlM_cons, opens, bindOk, List.foldlM_append, inner, bindOk,
    List.foldlM_cons, closes, same, closeRun]
  simp [puts, empty]

end Yard
end LiterateMath
