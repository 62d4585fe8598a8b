import LiterateMath.Proofs.Building.Passes

/-! Operator precedence with tables and stacks. Every operation has its band, what waits under the
operators is always an opening bracket, and so no table misses its key and no stack is empty. -/
namespace LiterateMath.Building

section Images

def operandPiece (place : Span) : Operand → Piece
  | .number digits => .token (.plain (.number digits) place)
  | .real value => .token (.plain (.real value) place)
  | .name n => .name n place
  | .call function args => .call function args place

def operatorAt (op : Operation) (place : Span) : Operator :=
  ⟨op, op.precedence, op.associatesRight, place⟩

def putOut : Postfix → Item
  | .operand o place => .piece (operandPiece place o)
  | .operation op place => .operator (operatorAt op place)

def putAside : Waiting → Item
  | .bracket b place => .piece (.token (.plain (.opening b) place))
  | .operation op place => .operator (operatorAt op place)

def stacksOf (y : Yard) : Stacks :=
  ⟨y.emitted.map putOut, y.waiting.map putAside, y.expecting⟩

end Images

section Tables

theorem bandKnown (op : Operation) : look bands op = .ok op.precedence := by
  cases op with
  | unary u => cases u <;> rfl
  | binary c =>
      cases c with
      | operator o => cases o <;> rfl
      | relation r => cases r <;> rfl

theorem arithmeticKnown (s : Sign) : look arithmetic s = .ok s.operator := by
  cases s <;> rfl

end Tables

section Steps

theorem putOutAll (test : Operator → Bool) (test' : Operation → Bool)
    (same : ∀ op place, test (operatorAt op place) = test' op) (emitted : List Postfix)
    (waiting : List Waiting) : unwind test (emitted.map putOut) (waiting.map putAside)
      = ((Yard.release test' emitted waiting).1.map putOut,
          (Yard.release test' emitted waiting).2.map putAside) := by
  induction waiting generalizing emitted with
  | nil => rfl
  | cons top rest ih =>
      cases top with
      | bracket b place => rfl
      | operation op place =>
          have here := same op place
          rw [List.map_cons, putAside, unwind, Yard.release, here]
          split
          · exact ih (.operation op place :: emitted)
          · rfl

theorem closeBuilt (y : Yard) {p : Piece} {b : Bracket} (word : p.word? = some (.closing b)) :
    close (stacksOf y) p = lift ((y.close b p.span).map stacksOf) := by
  have released := putOutAll (fun _ => true) (fun _ => true) (fun _ _ => rfl) y.emitted y.waiting
  obtain ⟨ops, rest, same, passes, held⟩ := Yard.releaseSplit (fun _ => true) y.waiting
  rw [close, Yard.close, stacksOf, released, same, Yard.releaseRun passes held]
  rcases Yard.heldAll held with rfl | ⟨opener, place, below, rfl⟩
  · rfl
  · have closer : closerOf (.token (.plain (.opening opener) place)) = .ok (.closing opener) :=
      closerOfOpener rfl
    simp only [closeTop, List.map_cons, putAside, pop, itemPiece, bindOk, closer, word]
    by_cases kind : opener = b
    · subst kind
      simp [stacksOf, Except.map]
    · have other : ¬ some (Word.closing b) = some (Word.closing opener) := by
        simpa using fun same => kind same.symm
      simp [kind, other, Except.map]
      rfl

theorem operateBuilt (y : Yard) (op : Operation) (place : Span) :
    operate (stacksOf y) (operatorAt op place) = stacksOf (y.operate op place) := by
  have before (old : Operation) (at_ : Span) : goesBefore (operatorAt op place) (operatorAt old at_)
      = Yard.goesBefore op old :=
    congrArg (fun equally => op.precedence < old.precedence || (equally && !op.associatesRight))
      (decide_eq_decide.mpr eq_comm)
  cases op with
  | unary u => rfl
  | binary c =>
      simp only [operate, operatorAt, stacksOf, Yard.operate] at *
      rw [putOutAll _ _ before]
      rfl

theorem operatorFound {expecting : Bool} {p : Piece} {op : Operation}
    (h : operationOf expecting p = .ok (some op)) :
    operatorOf expecting p = .ok (some (operatorAt op p.span)) := by
  rw [operatorOf, h, bindOk]
  dsimp only
  rw [bandKnown]
  rfl

theorem roleBuilt (expecting : Bool) (p : Piece) : match p.role expecting with
    | .operand o => isOperand p = true ∧ p = operandPiece p.span o
    | .opening b => isOperand p = false ∧ p = .token (.plain (.opening b) p.span)
    | .closing b => isOperand p = false ∧ p = .token (.plain (.closing b) p.span)
    | .operation op => isOperand p = false ∧ isOpener p = false ∧ isCloser p = false ∧
        operatorOf expecting p = .ok (some (operatorAt op p.span))
    | .stray fault => isOperand p = false ∧ isOpener p = false ∧ isCloser p = false ∧
        operatorOf expecting p = .ok none ∧
          ∀ α, (unexpected p : Built α) = fail fault (some p.span) := by
  match p with
  | .name n place => exact ⟨rfl, rfl⟩
  | .call f args place => exact ⟨rfl, rfl⟩
  | .token (.command ..) => exact ⟨rfl, rfl, rfl, rfl, fun _ => rfl⟩
  | .token (.plain w place) =>
      cases w with
      | sign s =>
          by_cases negates : s = .minus ∧ expecting
          · simp only [Piece.role, Word.role, if_pos negates]
            exact ⟨rfl, rfl, rfl, operatorFound (if_pos negates)⟩
          · simp only [Piece.role, Word.role, if_neg negates]
            have known : operationOf expecting (.token (.plain (.sign s) place))
                = .ok (some (.binary (.operator s.operator))) := by
              simp only [operationOf, tokenWord, Token.word?, if_neg negates, arithmeticKnown]
              rfl
            exact ⟨rfl, rfl, rfl, operatorFound known⟩
      | operator o => exact ⟨rfl, rfl, rfl, operatorFound rfl⟩
      | relation r => exact ⟨rfl, rfl, rfl, operatorFound rfl⟩
      | unary u => exact ⟨rfl, rfl, rfl, operatorFound rfl⟩
      | number digits => exact ⟨rfl, rfl⟩
      | real v => exact ⟨rfl, rfl⟩
      | opening b => exact ⟨rfl, rfl⟩
      | closing b => exact ⟨rfl, rfl⟩
      | _ => exact ⟨rfl, rfl, rfl, rfl, fun _ => rfl⟩

theorem stepBuilt (y : Yard) (p : Piece) :
    step (stacksOf y) p = lift ((y.step p).map stacksOf) := by
  have known := roleBuilt y.expecting p
  unfold Yard.step
  cases role : p.role y.expecting with
  | operand o =>
      simp only [role] at known ⊢
      obtain ⟨operand, same⟩ := known
      rw [step, if_pos operand]
      simp only [stacksOf, Except.map, liftOk, List.map_cons, putOut, ← same]
  | opening b =>
      simp only [role] at known ⊢
      obtain ⟨other, same⟩ := known
      have opens : isOpener p = true := isOpenerWord.mpr ⟨b, by rw [same]; rfl⟩
      rw [step, if_neg (by simp [other]), if_pos opens]
      simp only [stacksOf, Except.map, liftOk, List.map_cons, putAside, ← same]
  | closing b =>
      simp only [role] at known ⊢
      obtain ⟨other, same⟩ := known
      have word : p.word? = some (.closing b) := by rw [same]; rfl
      have opens : ¬ isOpener p = true := fun opens => by
        obtain ⟨c, word'⟩ := isOpenerWord.mp opens
        cases word.symm.trans word'
      rw [step, if_neg (by simp [other]), if_neg opens, if_pos (isCloserWord.mpr ⟨b, word⟩)]
      exact closeBuilt y word
  | operation op =>
      simp only [role] at known ⊢
      obtain ⟨other, opens, closes, found⟩ := known
      have expects : (stacksOf y).expecting = y.expecting := rfl
      rw [step, if_neg (by simp [other]), if_neg (by simp [opens]), if_neg (by simp [closes]),
        expects, found]
      exact congrArg Except.ok (operateBuilt y op p.span)
  | stray fault =>
      simp only [role] at known ⊢
      obtain ⟨other, opens, closes, none, fails⟩ := known
      have expects : (stacksOf y).expecting = y.expecting := rfl
      rw [step, if_neg (by simp [other]), if_neg (by simp [opens]), if_neg (by simp [closes]),
        expects, none]
      exact fails Stacks

theorem stepsBuilt (y : Yard) (ps : List Piece) :
    ps.foldlM step (stacksOf y) = lift ((ps.foldlM Yard.step y).map stacksOf) := by
  induction ps generalizing y with
  | nil => rfl
  | cons p rest ih =>
      rw [List.foldlM_cons, List.foldlM_cons, stepBuilt]
      cases y.step p with
      | error e => rfl
      | ok next => exact ih next

theorem finishBuilt (y : Yard) : finish (stacksOf y).output (stacksOf y).stack
    = lift (y.finish.map (List.map putOut)) := by
  obtain ⟨emitted, waiting, expecting⟩ := y
  induction waiting generalizing emitted with
  | nil => exact congrArg Except.ok List.map_reverse.symm
  | cons top rest ih =>
      cases top with
      | bracket b place => rfl
      | operation op place => exact ih (.operation op place :: emitted)

theorem postfixBuilt (ps : List Piece) :
    toPostfix ps = lift ((LiterateMath.toPostfix ps).map (List.map putOut)) := by
  have run := stepsBuilt .empty ps
  rw [toPostfix, LiterateMath.toPostfix,
    show (⟨[], [], true⟩ : Stacks) = stacksOf .empty from rfl, run]
  cases ps.foldlM Yard.step Yard.empty with
  | error e => rfl
  | ok last => exact finishBuilt last

end Steps

section Trees

theorem operandBuilt (o : Operand) (place : Span) :
    operandOf (operandPiece place o) = lift (o.toExpr place) := by
  cases o with
  | number digits =>
      rw [operandPiece, operandOf, Operand.toExpr]
      split <;> rfl
  | _ => rfl

theorem applyBuilt (values : List Expr) (found : Postfix) :
    applyItem values (putOut found) = lift (LiterateMath.applyItem values found) := by
  match found with
  | .operand o place =>
      rw [putOut, applyItem, operandBuilt, LiterateMath.applyItem, liftBind]
      rfl
  | .operation (.binary c) place =>
      match values with
      | [] => rfl
      | [_] => rfl
      | rhs :: lhs :: rest =>
          simp [putOut, applyItem, operatorAt, LiterateMath.applyItem, pop]
  | .operation (.unary u) place => cases values <;> rfl

theorem foldBuilt (items : List Postfix) (place : Option Span) :
    fold (items.map putOut) place = lift (LiterateMath.fold items place) := by
  have applied (values : List Expr) : (items.map putOut).foldlM applyItem values
      = lift (items.foldlM LiterateMath.applyItem values) := by
    induction items generalizing values with
    | nil => rfl
    | cons found rest ih =>
        rw [List.map_cons, List.foldlM_cons, List.foldlM_cons, applyBuilt, liftBind]
        simp only [ih]
  rw [fold, LiterateMath.fold, applied, liftBind]
  cases items.foldlM LiterateMath.applyItem [] with
  | error e => rfl
  | ok values =>
      match values with
      | [] => rfl
      | [e] => rfl
      | first :: second :: rest => simp

theorem assembleBuilt (ps : List Piece) : (do
    let e ← fold (← toPostfix ps) (spanOf ps)
    return e.settleAt (spanOf ps)) = lift (assemble ps) := by
  rw [assemble, postfixBuilt]
  cases LiterateMath.toPostfix ps with
  | error e => rfl
  | ok items =>
      simp only [Except.map, liftOk, bindOk, foldBuilt, liftBind]
      rfl

end Trees

end LiterateMath.Building
