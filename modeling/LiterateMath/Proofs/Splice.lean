import LiterateMath.Proofs.Tree
import LiterateMath.Proofs.Yard

/-! A quotient or a power that is put among other pieces without brackets of its own. It stays
one operand if the operation that waits before it is not released by its own, and if nothing
else is put out after it before its own operation is. -/
namespace LiterateMath

/-- Whether nothing but `op` is put out before it is released itself, once it waits on top of
the stack. The depth counts the brackets opened since; a comma or a keyword ends the value. -/
def undisturbed (op : Operation) : (depth : Nat) → (expecting : Bool) → List Piece → Bool
  | _, _, [] => true
  | depth, expecting, p :: rest =>
      match p.role expecting with
      | .operand _ => false
      | .opening _ => undisturbed op (depth + 1) true rest
      | .closing _ => depth = 0 || undisturbed op (depth - 1) false rest
      | .operation (.unary _) => false
      | .operation (.binary c) =>
          depth = 0 && Yard.goesBefore (.binary c) op
            || .binary c = op && undisturbed op depth true rest
      | .stray _ => true

def Only (op : Operation) (items : List Postfix) : Prop := ∀ item ∈ items, item.mark = .inr op

def OnlyWaits (op : Operation) (waiting : List Waiting) : Prop :=
  ∀ o, waits o ∈ waiting → o.1 = op

def openBrackets : List Waiting → Nat
  | [] => 0
  | .bracket _ _ :: rest => openBrackets rest + 1
  | .operation _ _ :: rest => openBrackets rest

theorem waitsSame {o o' : Operation × Span} (h : waits o = waits o') : o = o' := by
  cases o
  cases o'
  cases h
  rfl

theorem onlyAppend {op : Operation} {as bs : List Postfix} :
    Only op (as ++ bs) ↔ Only op as ∧ Only op bs := by
  simp only [Only, List.mem_append]
  exact ⟨fun h => ⟨fun i m => h i (.inl m), fun i m => h i (.inr m)⟩,
    fun h i m => m.elim (h.1 i) (h.2 i)⟩

theorem onlyReverse {op : Operation} {as : List Postfix} : Only op as.reverse ↔ Only op as := by
  simp [Only]

theorem onlyPuts {op : Operation} {ops : List (Operation × Span)} :
    Only op (ops.map puts) ↔ ∀ o ∈ ops, o.1 = op := by
  constructor
  · intro h o member
    exact Sum.inr.inj (h _ (List.mem_map_of_mem member))
  · intro h item member
    obtain ⟨o, inside, rfl⟩ := List.mem_map.mp member
    exact congrArg _ (h o inside)

theorem onlyWaitsMap {op : Operation} {ops : List (Operation × Span)} :
    OnlyWaits op (ops.map waits) ↔ ∀ o ∈ ops, o.1 = op := by
  unfold OnlyWaits
  constructor
  · intro h o member
    exact h o (List.mem_map_of_mem member)
  · intro h o member
    obtain ⟨o', inside, same⟩ := List.mem_map.mp member
    rw [← waitsSame same]
    exact h o' inside

theorem onlyWaitsAppend {op : Operation} {as bs : List Waiting} :
    OnlyWaits op (as ++ bs) ↔ OnlyWaits op as ∧ OnlyWaits op bs := by
  simp only [OnlyWaits, List.mem_append]
  exact ⟨fun h => ⟨fun o m => h o (.inl m), fun o m => h o (.inr m)⟩,
    fun h o m => m.elim (h.1 o) (h.2 o)⟩

theorem onlyWaitsOperation {op new : Operation} {place : Span} {rest : List Waiting} :
    OnlyWaits op (.operation new place :: rest) ↔ new = op ∧ OnlyWaits op rest := by
  have single : OnlyWaits op ([(new, place)].map waits) ↔ new = op := by
    rw [onlyWaitsMap]
    simp
  rw [← single, ← onlyWaitsAppend]
  rfl

theorem onlyWaitsBracket {op : Operation} {b : Bracket} {place : Span} {rest : List Waiting} :
    OnlyWaits op (.bracket b place :: rest) ↔ OnlyWaits op rest := by
  simp [OnlyWaits, waits]

theorem openBracketsOps (ops : List (Operation × Span)) (rest : List Waiting) :
    openBrackets (ops.map waits ++ rest) = openBrackets rest := by
  induction ops with
  | nil => rfl
  | cons o ops ih => simpa [waits, openBrackets] using ih

theorem releaseAround {above below rest : List Waiting} {s : Operation × Span}
    {ops : List (Operation × Span)} (h : above ++ waits s :: below = ops.map waits ++ rest) :
    (∃ kept, above = ops.map waits ++ kept ∧ rest = kept ++ waits s :: below) ∨
    (∃ first later, ops = first ++ s :: later ∧ above = first.map waits ∧
      below = later.map waits ++ rest) := by
  induction above generalizing ops with
  | nil =>
      cases ops with
      | nil => exact .inl ⟨[], rfl, h.symm⟩
      | cons o ops =>
          obtain ⟨same, later⟩ := List.cons.inj h
          rw [waitsSame same]
          exact .inr ⟨[], ops, rfl, rfl, later⟩
  | cons top above ih =>
      cases ops with
      | nil => exact .inl ⟨top :: above, rfl, h.symm⟩
      | cons o ops =>
          obtain ⟨same, later⟩ := List.cons.inj h
          rcases ih later with ⟨kept, rfl, below⟩ | ⟨first, last, rfl, rfl, below⟩
          · exact .inl ⟨kept, by rw [same]; rfl, below⟩
          · exact .inr ⟨o :: first, last, rfl, by rw [same]; rfl, below⟩

def LooseBelow (sign : Connective) (below : List Waiting) : Prop :=
  ∀ c, Yard.goesBefore (.binary c) (.binary sign) = false →
    Yard.Holds (Yard.goesBefore (.binary c)) below

/-- A connective waits below `above`, and `seen` was put out since. It may as well have been put
out at once: all else is the same, and all comes out in the same order just if nothing but the
connective itself is put out before it. -/
def MovedAhead (sign : Connective) (place : Span) (below : List Waiting)
    (seen emitted : List Postfix) (above : List Waiting) (expecting : Bool) (ps : List Piece)
    (items : List Postfix) : Prop :=
  ∃ last more, items = emitted.reverse ++ (last ++ puts (.binary sign, place) :: more) ∧
    Yard.run ⟨seen ++ puts (.binary sign, place) :: emitted, above ++ below, expecting⟩ ps
      = .ok (emitted.reverse ++ puts (.binary sign, place) :: (last ++ more)) ∧
    (Only (.binary sign) last ↔ Only (.binary sign) seen ∧ OnlyWaits (.binary sign) above ∧
      undisturbed (.binary sign) (openBrackets above) expecting ps = true)

section Moved

variable {sign : Connective} {place : Span} {below : List Waiting}
  {seen emitted items : List Postfix} {above : List Waiting} {expecting : Bool}
  {p : Piece} {ps : List Piece}

theorem MovedAhead.step {seen' : List Postfix} {above' : List Waiting} {expecting' : Bool}
    (h : MovedAhead sign place below seen' emitted above' expecting' ps items)
    (other : Yard.step ⟨seen ++ puts (.binary sign, place) :: emitted, above ++ below,
      expecting⟩ p
      = .ok ⟨seen' ++ puts (.binary sign, place) :: emitted, above' ++ below, expecting'⟩)
    (same : (Only (.binary sign) seen' ∧ OnlyWaits (.binary sign) above' ∧
        undisturbed (.binary sign) (openBrackets above') expecting' ps = true) ↔
      (Only (.binary sign) seen ∧ OnlyWaits (.binary sign) above ∧
        undisturbed (.binary sign) (openBrackets above) expecting (p :: ps) = true)) :
    MovedAhead sign place below seen emitted above expecting (p :: ps) items := by
  obtain ⟨last, more, rfl, moved, only⟩ := h
  exact ⟨last, more, rfl, (Yard.runCons other ps).trans moved, only.trans same⟩

theorem movedReleased {first later : List (Operation × Span)} {stack : List Waiting}
    {expecting' : Bool}
    (ran : Yard.run ⟨((first ++ (.binary sign, place) :: later).map puts).reverse
      ++ (seen ++ emitted), stack, expecting'⟩ ps = .ok items)
    (other : Yard.step ⟨seen ++ puts (.binary sign, place) :: emitted,
        first.map waits ++ below, expecting⟩ p
      = .ok ⟨((first ++ later).map puts).reverse ++ (seen ++ puts (.binary sign, place) :: emitted),
          stack, expecting'⟩)
    (ends : undisturbed (.binary sign) 0 expecting (p :: ps) = true) :
    MovedAhead sign place below seen emitted (first.map waits) expecting (p :: ps) items := by
  obtain ⟨new, rfl, runs⟩ := Yard.runOver ran
  refine ⟨seen.reverse ++ first.map puts, later.map puts ++ new, by simp, ?_, ?_⟩
  · rw [Yard.runCons other, runs]
    simp
  · have flat := openBracketsOps first []
    rw [List.append_nil] at flat
    rw [onlyAppend, onlyReverse, onlyPuts, onlyWaitsMap, flat, openBrackets, ends]
    simp

theorem movedEnd
    (h : Yard.run ⟨seen ++ emitted, above ++ waits (.binary sign, place) :: below, expecting⟩ []
      = .ok items) : MovedAhead sign place below seen emitted above expecting [] items := by
  obtain ⟨ops, stack, rfl⟩ := Yard.finishSplit h
  rw [← List.append_nil (ops.map waits)] at stack
  rcases releaseAround stack with ⟨kept, -, none⟩ | ⟨first, later, rfl, rfl, rfl⟩
  · simp at none
  · refine ⟨seen.reverse ++ first.map puts, later.map puts, by simp, ?_, ?_⟩
    · have finished : Yard.finish ⟨seen ++ puts (.binary sign, place) :: emitted,
          (first ++ later).map waits, expecting⟩ = _ := Yard.finishOps expecting
      simpa [Yard.run] using finished
    · rw [onlyAppend, onlyReverse, onlyPuts, onlyWaitsMap]
      simp [undisturbed]

theorem movedClosing {b : Bracket} {y : Yard} (role : p.role expecting = .closing b)
    (closed : Yard.close ⟨seen ++ emitted, above ++ waits (.binary sign, place) :: below,
      expecting⟩ b p.span = .ok y) (ran : y.run ps = .ok items)
    (ih : ∀ {seen above expecting},
      Yard.run ⟨seen ++ emitted, above ++ waits (.binary sign, place) :: below, expecting⟩ ps
        = .ok items → MovedAhead sign place below seen emitted above expecting ps items) :
    MovedAhead sign place below seen emitted above expecting (p :: ps) items := by
  obtain ⟨ops, opener, rest, stack, rfl⟩ := Yard.closeSplit closed
  rcases releaseAround stack with ⟨kept, rfl, rest'⟩ | ⟨first, later, rfl, rfl, rfl⟩
  · cases kept with
    | nil => cases rest'
    | cons top kept =>
        cases rest'
        rw [← List.append_assoc] at ran
        refine (ih ran).step ?_ ?_
        · simp only [Yard.step, role, List.append_assoc, List.cons_append]
          exact Yard.closeRun expecting b opener p.span
        · rw [onlyAppend, onlyReverse, onlyPuts, onlyWaitsAppend, onlyWaitsMap,
            onlyWaitsBracket, openBracketsOps]
          simp [undisturbed, role, openBrackets, and_assoc, and_left_comm]
  · refine movedReleased ran ?_ (by simp [undisturbed, role])
    simp only [Yard.step, role]
    rw [← List.append_assoc, ← List.map_append]
    exact Yard.closeRun expecting b opener p.span

theorem stopsAbove {c : Connective} {kept : List Waiting}
    (held : Yard.Holds (Yard.goesBefore (.binary c)) (kept ++ waits (.binary sign, place) :: below))
    (only : OnlyWaits (.binary sign) kept) :
    openBrackets kept ≠ 0 ∨ Yard.goesBefore (.binary c) (.binary sign) = false := by
  cases kept with
  | nil => exact .inr (held _ _ rfl)
  | cons top rest =>
      cases top with
      | bracket b at_ => exact .inl (by simp [openBrackets])
      | operation op at_ =>
          have stays : Yard.goesBefore (.binary c) op = false := held (op, at_) _ rfl
          obtain ⟨rfl, -⟩ := onlyWaitsOperation.mp only
          exact .inr stays

theorem heldBelow {test : Operation → Bool} {s : Operation × Span} {kept : List Waiting}
    (held : Yard.Holds test (kept ++ waits s :: below))
    (low : test s.1 = false → Yard.Holds test below) : Yard.Holds test (kept ++ below) := by
  cases kept with
  | nil => exact low (held _ _ rfl)
  | cons top rest =>
      intro o more same
      exact held o _ (by rw [(List.cons.inj same).1]; rfl)

theorem undisturbedBinary {c : Connective} {kept : List Waiting}
    (role : p.role expecting = .operation (.binary c))
    (held : Yard.Holds (Yard.goesBefore (.binary c)) (kept ++ waits (.binary sign, place) :: below))
    (only : OnlyWaits (.binary sign) kept) :
    undisturbed (.binary sign) (openBrackets kept) expecting (p :: ps) = true ↔
      c = sign ∧ undisturbed (.binary sign) (openBrackets kept) true ps = true := by
  simp only [undisturbed, role, Bool.or_eq_true, Bool.and_eq_true, decide_eq_true_eq,
    Operation.binary.injEq]
  constructor
  · rintro (⟨flat, looser⟩ | rest)
    · rcases stopsAbove held only with deep | tighter
      · exact absurd flat deep
      · rw [tighter] at looser
        cases looser
    · exact rest
  · exact .inr

theorem movedBinary (low : LooseBelow sign below) {c : Connective}
    (role : p.role expecting = .operation (.binary c))
    (ran : Yard.run (Yard.operate ⟨seen ++ emitted, above ++ waits (.binary sign, place) :: below,
      expecting⟩ (.binary c) p.span) ps = .ok items)
    (ih : ∀ {seen above expecting},
      Yard.run ⟨seen ++ emitted, above ++ waits (.binary sign, place) :: below, expecting⟩ ps
        = .ok items → MovedAhead sign place below seen emitted above expecting ps items) :
    MovedAhead sign place below seen emitted above expecting (p :: ps) items := by
  obtain ⟨ops, rest, stack, passes, held, result⟩ :=
    Yard.operateSplit ⟨seen ++ emitted, above ++ waits (.binary sign, place) :: below, expecting⟩
      c p.span
  rw [result] at ran
  rcases releaseAround stack with ⟨kept, rfl, rfl⟩ | ⟨first, later, rfl, rfl, rfl⟩
  · rw [← List.append_assoc] at ran
    have reached :=
      @ih ((ops.map puts).reverse ++ seen) (waits (.binary c, p.span) :: kept) true ran
    refine reached.step ?_ ?_
    · simp only [Yard.step, role, List.append_assoc]
      exact congrArg _ (Yard.operateRun expecting p.span passes (heldBelow held (low c)))
    · rw [onlyAppend, onlyReverse, onlyPuts, waits, onlyWaitsOperation, onlyWaitsAppend,
        onlyWaitsMap, openBracketsOps, openBrackets, Operation.binary.injEq]
      constructor
      · rintro ⟨⟨released, before⟩, ⟨same, stays⟩, rest⟩
        exact ⟨before, ⟨released, stays⟩, (undisturbedBinary role held stays).mpr ⟨same, rest⟩⟩
      · rintro ⟨before, ⟨released, stays⟩, rest⟩
        obtain ⟨same, rest⟩ := (undisturbedBinary role held stays).mp rest
        exact ⟨⟨released, before⟩, ⟨same, stays⟩, rest⟩
  · have both : ∀ o ∈ first ++ later, Yard.goesBefore (.binary c) o.1 = true := by
      intro o member
      apply passes
      rcases List.mem_append.mp member with before | after
      · exact List.mem_append_left _ before
      · exact List.mem_append_right _ (List.mem_cons_of_mem _ after)
    have looser : Yard.goesBefore (.binary c) (.binary sign) = true :=
      passes (.binary sign, place) (by simp)
    refine movedReleased ran ?_ (by simp [undisturbed, role, looser])
    simp only [Yard.step, role]
    rw [← List.append_assoc, ← List.map_append]
    exact congrArg _ (Yard.operateRun expecting p.span both held)

theorem movedAhead (low : LooseBelow sign below)
    (h : Yard.run ⟨seen ++ emitted, above ++ waits (.binary sign, place) :: below, expecting⟩ ps
      = .ok items) : MovedAhead sign place below seen emitted above expecting ps items := by
  induction ps generalizing seen above expecting with
  | nil => exact movedEnd h
  | cons p ps ih =>
      obtain ⟨y, stepped, ran⟩ := Yard.runConsParts h
      unfold Yard.step at stepped
      cases role : p.role expecting with
      | operand o =>
          simp only [role] at stepped
          cases stepped
          refine (@ih (.operand o p.span :: seen) above false ran).step ?_ ?_
          · simp only [Yard.step, role, List.cons_append]
          · simp [Only, Postfix.mark, undisturbed, role]
      | opening b =>
          simp only [role] at stepped
          cases stepped
          refine (@ih seen (.bracket b p.span :: above) true ran).step ?_ ?_
          · simp only [Yard.step, role, List.cons_append]
          · simp [onlyWaitsBracket, undisturbed, role, openBrackets]
      | closing b =>
          simp only [role] at stepped
          exact movedClosing role stepped ran ih
      | operation op =>
          simp only [role] at stepped
          cases stepped
          cases op with
          | unary u =>
              refine (@ih seen (.operation (.unary u) p.span :: above) true ran).step ?_ ?_
              · simp only [Yard.step, role, Yard.operate, List.cons_append]
              · simp [onlyWaitsOperation, undisturbed, role]
          | binary c => exact movedBinary low role ran ih
      | stray fault =>
          simp only [role] at stepped
          cases stepped

end Moved
structure Pending where
  operations : List (Option Operation)
  expecting : Bool

namespace Pending

def start : Pending := ⟨[none], true⟩

def step (pending : Pending) (p : Piece) : Pending :=
  match p.role pending.expecting with
  | .operand _ => ⟨pending.operations, false⟩
  | .opening _ => ⟨none :: pending.operations, true⟩
  | .closing _ => ⟨pending.operations.tail, false⟩
  | .operation op => ⟨some op :: pending.operations.tail, true⟩
  | .stray _ => ⟨none :: pending.operations.tail, true⟩

def after (ps : List Piece) : Pending := ps.foldl step start

def last? (pending : Pending) : Option Operation := pending.operations.headD none

end Pending

def lastOperations : List Waiting → List (Option Operation)
  | [] => [none]
  | .bracket _ _ :: rest => none :: lastOperations rest
  | .operation op _ :: rest => some op :: (lastOperations rest).tail

theorem lastOperationsTail (ops : List (Operation × Span)) (rest : List Waiting) :
    (lastOperations (ops.map waits ++ rest)).tail = (lastOperations rest).tail := by
  induction ops with
  | nil => rfl
  | cons o ops ih => simpa [waits, lastOperations] using ih

theorem pendingStep {y y' : Yard} {p : Piece} (h : y.step p = .ok y') :
    Pending.step ⟨lastOperations y.waiting, y.expecting⟩ p
      = ⟨lastOperations y'.waiting, y'.expecting⟩ := by
  unfold Yard.step at h
  unfold Pending.step
  cases role : p.role y.expecting with
  | operand o =>
      simp only [role] at h ⊢
      cases h
      rfl
  | opening b =>
      simp only [role] at h ⊢
      cases h
      rfl
  | closing b =>
      simp only [role] at h ⊢
      obtain ⟨ops, opener, rest, stack, rfl⟩ := Yard.closeSplit h
      rw [stack, lastOperationsTail]
      rfl
  | operation op =>
      simp only [role] at h ⊢
      cases h
      cases op with
      | unary u => rfl
      | binary c =>
          obtain ⟨ops, rest, stack, -, -, result⟩ := Yard.operateSplit y c p.span
          rw [result, stack, lastOperationsTail]
          rfl
  | stray fault =>
      simp only [role] at h
      cases h

theorem pendingSteps {y y' : Yard} {ps : List Piece} (h : ps.foldlM Yard.step y = .ok y') :
    ps.foldl Pending.step ⟨lastOperations y.waiting, y.expecting⟩
      = ⟨lastOperations y'.waiting, y'.expecting⟩ := by
  induction ps generalizing y with
  | nil =>
      cases h
      rfl
  | cons p ps ih =>
      rw [List.foldlM_cons] at h
      obtain ⟨middle, first, later⟩ := bindIsOk.mp h
      rw [List.foldl_cons, pendingStep first, ih later]

theorem holdsLast {test : Operation → Bool} {waiting : List Waiting} {expecting : Bool} :
    Yard.Holds test waiting
      ↔ ∀ op, Pending.last? ⟨lastOperations waiting, expecting⟩ = some op → test op = false := by
  cases waiting with
  | nil => simp [Yard.holdsEmpty, Pending.last?, lastOperations]
  | cons top rest =>
      cases top with
      | bracket b place => simp [Yard.holdsBracket, Pending.last?, lastOperations]
      | operation op place =>
          constructor
          · intro held other same
            cases same
            exact held (op, place) rest rfl
          · intro stays
            exact Yard.holdsOperation (stays op rfl)

def standsAlone (sign : Connective) (before after : List Piece) : Bool :=
  (Pending.after before).last?.all (fun op => !Yard.goesBefore (.binary sign) op)
    && undisturbed (.binary sign) 0 false after

theorem looseBelow {sign : Connective} {below : List Waiting}
    (held : Yard.Holds (Yard.goesBefore (.binary sign)) below) : LooseBelow sign below := by
  intro c stops o rest same
  have stays := held o rest same
  simp only [Yard.goesBefore, Bool.or_eq_false_iff, Bool.and_eq_false_iff, Bool.not_eq_eq_eq_not,
    Bool.not_false, decide_eq_false_iff_not] at stops stays ⊢
  refine ⟨by omega, ?_⟩
  by_cases same : (Operation.binary c).precedence = o.1.precedence
  · rcases stops.2 with other | right
    · omega
    · exact .inr right
  · exact .inl same

theorem onlyKept {op : Operation} {items : List Postfix} (h : Only op items) :
    items.map Postfix.kept = List.replicate items.length (.inr op) := by
  rw [List.eq_replicate_iff]
  refine ⟨by simp, fun b member => ?_⟩
  obtain ⟨item, inside, rfl⟩ := List.mem_map.mp member
  have marked := h item inside
  cases item with
  | operand o place => cases marked
  | operation op' place => exact congrArg Sum.inr (Sum.inr.inj marked)

theorem onlyTurned {β : Type} {a : β} {as : List β} (h : as ++ [a] = a :: as) :
    ∀ b ∈ as, b = a := by
  induction as with
  | nil => simp
  | cons b as ih =>
      obtain ⟨rfl, rest⟩ := List.cons.inj h
      intro c member
      rcases List.mem_cons.mp member with rfl | later
      · rfl
      · exact ih rest c later

def bracketed (place : Span) (ps : List Piece) : List Piece :=
  .token (.plain (.opening .paren) place) :: ps ++ [.token (.plain (.closing .paren) place)]

def spliced (place : Span) (sign : Sign) (first second : List Piece) : List Piece :=
  bracketed place first ++ .token (.plain (.sign sign) place) :: bracketed place second

section Spliced

variable (place : Span) (sign : Sign) {first second : List Piece} {as bs : List Postfix}

theorem splicedRuns (ha : toPostfix first = .ok as) (hb : toPostfix second = .ok bs) (y : Yard) :
    ∃ (ops : List (Operation × Span)) (rest : List Waiting), y.waiting = ops.map waits ++ rest ∧
      (∀ o ∈ ops, Yard.goesBefore (.binary (.operator sign.operator)) o.1 = true) ∧
      Yard.Holds (Yard.goesBefore (.binary (.operator sign.operator))) rest ∧
      (spliced place sign first second).foldlM Yard.step y
        = .ok ⟨bs.reverse ++ ((ops.map puts).reverse ++ (as.reverse ++ y.emitted)),
            waits (.binary (.operator sign.operator), place) :: rest, false⟩ := by
  obtain ⟨ops, rest, stack, passes, held, result⟩ := Yard.operateSplit
    ⟨as.reverse ++ y.emitted, y.waiting, false⟩ (.operator sign.operator) place
  refine ⟨ops, rest, stack, passes, held, ?_⟩
  have between : Yard.step ⟨as.reverse ++ y.emitted, y.waiting, false⟩
      (.token (.plain (.sign sign) place))
      = .ok (Yard.operate ⟨as.reverse ++ y.emitted, y.waiting, false⟩
          (.binary (.operator sign.operator)) place) := by
    simp [Yard.step, Piece.role, Word.role, Piece.span, Token.span]
  unfold spliced bracketed
  rw [List.foldlM_append, Yard.groupRuns ha, bindOk, List.foldlM_cons, between, bindOk, result,
    Yard.groupRuns hb]

theorem splicedPostfix (ha : toPostfix first = .ok as) (hb : toPostfix second = .ok bs) :
    toPostfix (spliced place sign first second)
      = .ok (as ++ bs ++ [puts (.binary (.operator sign.operator), place)]) := by
  obtain ⟨ops, rest, stack, -, -, ran⟩ := splicedRuns place sign ha hb Yard.empty
  obtain ⟨none, empty⟩ := List.append_eq_nil_iff.mp stack.symm
  obtain rfl : ops = [] := List.map_eq_nil_iff.mp none
  subst empty
  unfold toPostfix
  rw [ran, bindOk]
  have finished : Yard.finish ⟨bs.reverse ++ (as.reverse ++ []),
      [(Operation.binary (.operator sign.operator), place)].map waits, false⟩ = _ :=
    Yard.finishOps false
  simpa [Yard.empty] using finished

theorem wrappedRuns (ha : toPostfix first = .ok as) (hb : toPostfix second = .ok bs) {y : Yard}
    {before : List Piece} (ran : before.foldlM Yard.step .empty = .ok y) (after : List Piece) :
    toPostfix (before ++ bracketed place (spliced place sign first second) ++ after)
      = Yard.run ⟨(as ++ bs ++ [puts (.binary (.operator sign.operator), place)]).reverse
          ++ y.emitted, y.waiting, false⟩ after := by
  have group := Yard.groupRuns (splicedPostfix place sign ha hb) .paren place place y
  rw [List.append_assoc]
  exact (Yard.runAppend ran _).trans (Yard.runAppend group after)

theorem standsAloneYard {c : Connective} {y : Yard} {before : List Piece}
    (ran : before.foldlM Yard.step .empty = .ok y) (after : List Piece) :
    standsAlone c before after = true ↔
      Yard.Holds (Yard.goesBefore (.binary c)) y.waiting ∧
        undisturbed (.binary c) 0 false after = true := by
  have last : Pending.after before = ⟨lastOperations y.waiting, y.expecting⟩ := pendingSteps ran
  rw [@holdsLast _ _ y.expecting, standsAlone, last, Bool.and_eq_true, Option.all_eq_true]
  simp

theorem splicedLoose {c : Connective} {waiting : List Waiting} {emitted : List Postfix}
    (held : Yard.Holds (Yard.goesBefore (.binary c)) waiting) {after : List Piece}
    {items : List Postfix}
    (h : Yard.run ⟨emitted, waits (.binary c, place) :: waiting, false⟩ after = .ok items) :
    ∃ items', Yard.run ⟨puts (.binary c, place) :: emitted, waiting, false⟩ after = .ok items' ∧
      (undisturbed (.binary c) 0 false after = true →
        items'.map Postfix.kept = items.map Postfix.kept) ∧
      (items'.map Postfix.mark = items.map Postfix.mark →
        undisturbed (.binary c) 0 false after = true) := by
  obtain ⟨last, more, rfl, moved, only⟩ := @movedAhead c place waiting [] emitted items [] false
    after (looseBelow held) h
  have quiet : Only (.binary c) last ↔ undisturbed (.binary c) 0 false after = true := by
    simpa [Only, OnlyWaits, openBrackets] using only
  refine ⟨_, moved, fun ends => ?_, fun same => ?_⟩
  · have alike := onlyKept (quiet.mpr ends)
    have turned : .inr (.binary c) :: last.map Postfix.kept
        = last.map Postfix.kept ++ [Sum.inr (.binary c)] := by
      rw [alike, ← List.replicate_succ, List.replicate_succ']
    have put : (puts (.binary c, place)).kept = Sum.inr (.binary c) := rfl
    simp only [List.map_append, List.map_cons, put]
    rw [← List.cons_append, turned]
    simp
  · refine quiet.mp fun item member => ?_
    have put : (puts (.binary c, place)).mark = Sum.inr (.binary c) := rfl
    simp only [List.map_append, List.map_cons, put] at same
    have tail := List.append_cancel_left same
    rw [← List.cons_append, List.append_cons] at tail
    have turned := List.append_cancel_right tail
    exact onlyTurned turned.symm _ (List.mem_map_of_mem member)

theorem splicedAlone {o : Operand} {at_ : Span} {others : List Postfix}
    (ha : toPostfix first = .ok as) (hb : toPostfix second = .ok (.operand o at_ :: others))
    {before after : List Piece} {items : List Postfix}
    (h : toPostfix (before ++ spliced place sign first second ++ after) = .ok items) :
    (standsAlone (.operator sign.operator) before after = true →
      ∃ items', toPostfix (before ++ bracketed place (spliced place sign first second) ++ after)
        = .ok items' ∧ items'.map Postfix.kept = items.map Postfix.kept) ∧
    (∀ items', toPostfix (before ++ bracketed place (spliced place sign first second) ++ after)
        = .ok items' → items'.map Postfix.mark = items.map Postfix.mark →
      standsAlone (.operator sign.operator) before after = true) := by
  obtain ⟨y, ran, rest⟩ := Yard.runParts (List.append_assoc before _ after ▸ h)
  obtain ⟨ops, stack, waiting, passes, held, splices⟩ := splicedRuns place sign ha hb y
  rw [Yard.runAppend splices] at rest
  rw [wrappedRuns place sign ha hb ran, standsAloneYard ran]
  cases ops with
  | nil =>
      obtain rfl : y.waiting = stack := waiting
      have rest : Yard.run ⟨(.operand o at_ :: others).reverse ++ (as.reverse ++ y.emitted),
          waits (.binary (.operator sign.operator), place) :: y.waiting, false⟩ after
          = .ok items := rest
      have emitted : (as ++ .operand o at_ :: others
          ++ [puts (.binary (.operator sign.operator), place)]).reverse ++ y.emitted
            = puts (.binary (.operator sign.operator), place)
              :: ((.operand o at_ :: others).reverse ++ (as.reverse ++ y.emitted)) := by simp
      obtain ⟨items', moved, alike, ends⟩ := splicedLoose place held rest
      rw [emitted, moved]
      refine ⟨fun alone => ⟨items', rfl, alike alone.2⟩, fun other found same => ?_⟩
      cases found
      exact ⟨held, ends same⟩
  | cons released ops =>
      obtain ⟨new, rfl, -⟩ := Yard.runOver rest
      have gives : ¬ Yard.Holds (Yard.goesBefore (.binary (.operator sign.operator)))
          y.waiting := fun stays => by
        have kept := stays released _ waiting
        rw [passes released (by simp)] at kept
        cases kept
      refine ⟨fun alone => absurd alone.1 gives, fun items' found same => ?_⟩
      obtain ⟨new', rfl, -⟩ := Yard.runOver found
      simp [puts, Postfix.mark] at same

end Spliced
end LiterateMath
