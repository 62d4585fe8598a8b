import LiterateMath.Proofs.Tree
import LiterateMath.Proofs.Yard

/-! The grammar of operator precedence, stated without a stack: an expression of one level is
made of expressions of the tighter ones. The tree of every sentence is what its pieces are read
as. -/
namespace LiterateMath

namespace Piece

def connective? : Piece → Option Connective
  | token (.plain (.sign s) _) => some (.operator s.operator)
  | token (.plain (.operator o) _) => some (.operator o)
  | token (.plain (.relation r) _) => some (.relation r)
  | _ => none

def negator? : Piece → Option UnaryOperator
  | token (.plain (.sign .minus) _) => some .negation
  | token (.plain (.unary u) _) => some u
  | _ => none

def operand? : Piece → Option Operand
  | token (.plain (.number digits) _) => some (.number digits)
  | token (.plain (.real value) _) => some (.real value)
  | token _ => none
  | name n _ => some (.name n)
  | call function args _ => some (.call function args)

def tooLong (p : Piece) : Bool :=
  match p.operand? with
  | some (.number digits) => longestLiteral < digits.length
  | _ => false

end Piece

def connectivesAt : Nat → List Connective
  | 0 => Relation.all.map .relation
  | 1 => [.operator .union, .operator .intersection, .operator .disjunction,
          .operator .plusMinus, .operator .setDifference]
  | 2 => [.operator .addition, .operator .subtraction]
  | 3 => [.operator .multiplication, .operator .division, .operator .conjunction,
          .operator .exclusiveOr, .operator .externalProduct, .operator .internalProduct]
  | _ => []

/-- Pieces that derive from a level of the grammar, with the tree of the derivation. On level 4
are prefixes and powers, on level 5 single operands and bracketed expressions. -/
inductive Sentence : Nat → List Piece → Expr → Prop where
  | tighter {level : Nat} {ps : List Piece} {e : Expr} (bound : level < 5)
      (inner : Sentence (level + 1) ps e) : Sentence level ps e
  | binary {level : Nat} {left right : List Piece} {sign : Piece} {c : Connective}
      {lhs rhs : Expr} (before : Sentence level left lhs) (means : sign.connective? = some c)
      (belongs : c ∈ connectivesAt level) (after : Sentence (level + 1) right rhs) :
      Sentence level (left ++ sign :: right) (.binary c lhs rhs none)
  | unary {ps : List Piece} {sign : Piece} {u : UnaryOperator} {e : Expr}
      (means : sign.negator? = some u) (after : Sentence 4 ps e) :
      Sentence 4 (sign :: ps) (.unary u e none)
  | power {left right : List Piece} {sign : Piece} {lhs rhs : Expr}
      (before : Sentence 5 left lhs) (means : sign.connective? = some (.operator .exponent))
      (after : Sentence 4 right rhs) :
      Sentence 4 (left ++ sign :: right) (.binary (.operator .exponent) lhs rhs none)
  | operand {p : Piece} {o : Operand} (means : p.operand? = some o) :
      Sentence 5 [p] (o.leaf p.span)
  | bracketed {b : Bracket} {opener closer : Span} {ps : List Piece} {e : Expr}
      (inner : Sentence 0 ps e) :
      Sentence 5 (.token (.plain (.opening b) opener) :: ps
        ++ [.token (.plain (.closing b) closer)]) e

theorem Sentence.loosen {level tight : Nat} {ps : List Piece} {e : Expr}
    (h : Sentence tight ps e) (looser : level ≤ tight) (bound : tight ≤ 5) :
    Sentence level ps e := by
  obtain ⟨n, rfl⟩ := Nat.exists_eq_add_of_le looser
  induction n with
  | zero => exact h
  | succ n ih => exact ih (.tighter (by omega) h) (by omega) (by omega)

def FromLevel (level : Nat) (op : Operation) : Prop := level ≤ op.precedence ∧ level < 5

theorem connectiveLevel {level : Nat} {c : Connective} (h : c ∈ connectivesAt level) :
    (Operation.binary c).precedence = level ∧
      (Operation.binary c).associatesRight = false ∧ level < 4 := by
  unfold connectivesAt at h
  split at h
  · obtain ⟨r, -, rfl⟩ := List.mem_map.mp h
    exact ⟨rfl, rfl, by omega⟩
  all_goals simp only [List.mem_cons, List.not_mem_nil, or_false] at h
  · rcases h with rfl | rfl | rfl | rfl | rfl <;> exact ⟨rfl, rfl, by omega⟩
  · rcases h with rfl | rfl <;> exact ⟨rfl, rfl, by omega⟩
  · rcases h with rfl | rfl | rfl | rfl | rfl | rfl <;> exact ⟨rfl, rfl, by omega⟩

namespace Yard

variable {y : Yard} {p : Piece}

theorem stepOperand {o : Operand} (h : p.operand? = some o) :
    step y p = .ok ⟨.operand o p.span :: y.emitted, y.waiting, false⟩ := by
  unfold Piece.operand? at h
  split at h <;> cases h <;> rfl

theorem stepNegator {u : UnaryOperator} (h : p.negator? = some u) (expects : y.expecting = true) :
    step y p = .ok ⟨y.emitted, .operation (.unary u) p.span :: y.waiting, true⟩ := by
  unfold Piece.negator? at h
  split at h
  · cases h
    simp [step, Piece.role, Word.role, expects, operate]
  · cases h
    rfl
  · cases h

theorem stepConnective {c : Connective} (h : p.connective? = some c)
    (passed : y.expecting = false) : step y p = .ok (y.operate (.binary c) p.span) := by
  unfold Piece.connective? at h
  split at h
  · cases h
    simp [step, Piece.role, Word.role, passed]
  · cases h
    rfl
  · cases h
    rfl
  · cases h

theorem operateLevel {level : Nat} {c : Connective} (belongs : c ∈ connectivesAt level)
    {ops : List (Operation × Span)} (tight : ∀ o ∈ ops, FromLevel level o.1)
    {emitted : List Postfix} {waiting : List Waiting}
    (held : Holds (fun op => level ≤ op.precedence) waiting) (place : Span) :
    operate ⟨emitted, ops.map waits ++ waiting, false⟩ (.binary c) place
      = ⟨(ops.map puts).reverse ++ emitted, waits (.binary c, place) :: waiting, true⟩ := by
  obtain ⟨same, left, -⟩ := connectiveLevel belongs
  have before : ∀ op : Operation, goesBefore (.binary c) op = decide (level ≤ op.precedence) := by
    intro op
    simp only [goesBefore, same, left, Bool.not_false, Bool.and_true, ← Bool.decide_or]
    exact decide_eq_decide.mpr (by omega)
  have passes : ∀ o ∈ ops, goesBefore (.binary c) o.1 = true := by
    intro o member
    rw [before]
    exact decide_eq_true (tight o member).1
  have rest : Holds (goesBefore (.binary c)) waiting := by
    intro o rest same
    rw [before]
    exact held o rest same
  exact operateRun false place passes rest

theorem operatePower {emitted : List Postfix} {waiting : List Waiting} {expecting : Bool}
    (place : Span) :
    operate ⟨emitted, waiting, expecting⟩ (.binary (.operator .exponent)) place
      = ⟨emitted, waits (.binary (.operator .exponent), place) :: waiting, true⟩ := by
  have held : Holds (goesBefore (.binary (.operator .exponent))) waiting := by
    intro o rest _
    have loose : o.1.precedence ≤ 4 := by
      unfold Operation.precedence
      split <;> omega
    have highest : (Operation.binary (.operator .exponent)).precedence = 4 := rfl
    have right : (Operation.binary (.operator .exponent)).associatesRight = true := rfl
    simp only [goesBefore, highest, right, Bool.not_true, Bool.and_false, Bool.or_false]
    exact decide_eq_false (by omega)
  have none : ∀ o ∈ ([] : List (Operation × Span)),
      goesBefore (.binary (.operator .exponent)) o.1 = true := by simp
  exact operateRun expecting place none held

end Yard

def Builds (items : List Postfix) (ps : List Piece) (e : Expr) : Prop :=
  ∀ operands, items.foldlM applyItem operands
    = if ps.any Piece.tooLong then .error .literalTooLong else .ok (e :: operands)

theorem buildsOperand {p : Piece} {o : Operand} (h : p.operand? = some o) :
    Builds [.operand o p.span] [p] (o.leaf p.span) := by
  intro operands
  cases o with
  | number digits =>
      by_cases long : longestLiteral < digits.length
      · simp [applyItem, Operand.toExpr, Piece.tooLong, h, long]
      · simp [applyItem, Operand.toExpr, Operand.leaf, Piece.tooLong, h, long]
  | _ => simp [applyItem, Operand.toExpr, Operand.leaf, Piece.tooLong, h]

theorem notTooLong {p : Piece} (h : p.operand? = none) : p.tooLong = false := by
  simp [Piece.tooLong, h]

theorem negatorNotOperand {p : Piece} {u : UnaryOperator} (h : p.negator? = some u) :
    p.operand? = none := by
  unfold Piece.negator? at h
  split at h
  · rfl
  · rfl
  · cases h

theorem connectiveNotOperand {p : Piece} {c : Connective} (h : p.connective? = some c) :
    p.operand? = none := by
  unfold Piece.connective? at h
  split at h
  · rfl
  · rfl
  · rfl
  · cases h

theorem buildsUnary {items : List Postfix} {ps : List Piece} {sign : Piece} {u : UnaryOperator}
    {e : Expr} (place : Span) (means : sign.negator? = some u) (arg : Builds items ps e) :
    Builds (items ++ [puts (.unary u, place)]) (sign :: ps) (.unary u e none) := by
  intro operands
  have readable := notTooLong (negatorNotOperand means)
  rw [List.foldlM_append, arg]
  cases long : ps.any Piece.tooLong with
  | true => simp [readable, long]
  | false => simp [readable, long, puts, applyItem]

theorem buildsBinary {before after : List Postfix} {left right : List Piece} {sign : Piece}
    {c : Connective} {lhs rhs : Expr} (place : Span) (first : Builds before left lhs)
    (means : sign.connective? = some c) (second : Builds after right rhs) :
    Builds (before ++ (after ++ [puts (.binary c, place)])) (left ++ sign :: right)
      (.binary c lhs rhs none) := by
  intro operands
  have readable := notTooLong (connectiveNotOperand means)
  rw [List.foldlM_append, first]
  cases long : left.any Piece.tooLong with
  | true => simp [long]
  | false =>
      simp only [Bool.false_eq_true, if_false, bindOk]
      rw [List.foldlM_append, second]
      cases longer : right.any Piece.tooLong with
      | true => simp [readable, long, longer]
      | false => simp [readable, long, longer, puts, applyItem]

/-- What reading a sentence does to a yard: it leaves operations of its level waiting, which
build the tree once they are put out after the rest. -/
def Reads (level : Nat) (ps : List Piece) (e : Expr) (items : List Postfix)
    (ops : List (Operation × Span)) : Prop :=
  (∀ o ∈ ops, FromLevel level o.1) ∧
  (∀ emitted waiting, (level < 4 → Yard.Holds (fun op => level ≤ op.precedence) waiting) →
    ps.foldlM Yard.step ⟨emitted, waiting, true⟩
      = .ok ⟨items ++ emitted, ops.map waits ++ waiting, false⟩) ∧
  Builds (items.reverse ++ ops.map puts) ps e

theorem readsTighter {level : Nat} {ps : List Piece} {e : Expr} {items : List Postfix}
    {ops : List (Operation × Span)} (bound : level < 5) (h : Reads (level + 1) ps e items ops) :
    Reads level ps e items ops := by
  obtain ⟨tight, runs, builds⟩ := h
  refine ⟨fun o member => ⟨by have := (tight o member).1; omega, bound⟩, ?_, builds⟩
  intro emitted waiting held
  apply runs
  intro below o rest same
  have loose := of_decide_eq_false (held (by omega) o rest same)
  exact decide_eq_false (by omega)

theorem readsBinary {level : Nat} {left right : List Piece} {sign : Piece} {c : Connective}
    {lhs rhs : Expr} {first second : List Postfix} {ops later : List (Operation × Span)}
    (before : Reads level left lhs first ops) (means : sign.connective? = some c)
    (belongs : c ∈ connectivesAt level) (after : Reads (level + 1) right rhs second later) :
    Reads level (left ++ sign :: right) (.binary c lhs rhs none)
      (second ++ ((ops.map puts).reverse ++ first)) (later ++ [(.binary c, sign.span)]) := by
  obtain ⟨tight, runs, builds⟩ := before
  obtain ⟨tighter, goes, makes⟩ := after
  obtain ⟨same, -, below⟩ := connectiveLevel belongs
  refine ⟨?_, ?_, ?_⟩
  · intro o member
    rcases List.mem_append.mp member with earlier | last
    · exact ⟨by have := (tighter o earlier).1; omega, by omega⟩
    · cases List.mem_singleton.mp last
      exact ⟨Nat.le_of_eq same.symm, by omega⟩
  · intro emitted waiting held
    have loose : Yard.Holds (fun op => level + 1 ≤ op.precedence)
        (waits (.binary c, sign.span) :: waiting) :=
      Yard.holdsOperation (decide_eq_false (by rw [same]; omega))
    rw [List.foldlM_append, runs emitted waiting held, bindOk, List.foldlM_cons,
      Yard.stepConnective means rfl, bindOk,
      Yard.operateLevel belongs tight (held below), goes _ _ fun _ => loose]
    simp [waits]
  · have both := buildsBinary sign.span builds means makes
    simpa using both

theorem readsUnary {ps : List Piece} {sign : Piece} {u : UnaryOperator} {e : Expr}
    {items : List Postfix} {ops : List (Operation × Span)} (means : sign.negator? = some u)
    (after : Reads 4 ps e items ops) :
    Reads 4 (sign :: ps) (.unary u e none) items (ops ++ [(.unary u, sign.span)]) := by
  obtain ⟨tight, runs, builds⟩ := after
  refine ⟨?_, ?_, ?_⟩
  · intro o member
    rcases List.mem_append.mp member with earlier | last
    · exact tight o earlier
    · cases List.mem_singleton.mp last
      exact ⟨Nat.le_refl 4, by omega⟩
  · intro emitted waiting _
    rw [List.foldlM_cons, Yard.stepNegator means rfl, bindOk, runs _ _ (by omega)]
    simp [waits]
  · have whole := buildsUnary sign.span means builds
    simpa using whole

theorem readsPower {left right : List Piece} {sign : Piece} {lhs rhs : Expr}
    {first second : List Postfix} {ops later : List (Operation × Span)}
    (before : Reads 5 left lhs first ops)
    (means : sign.connective? = some (.operator .exponent))
    (after : Reads 4 right rhs second later) :
    Reads 4 (left ++ sign :: right) (.binary (.operator .exponent) lhs rhs none)
      (second ++ first) (later ++ [(.binary (.operator .exponent), sign.span)]) := by
  obtain ⟨tight, runs, builds⟩ := before
  obtain ⟨tighter, goes, makes⟩ := after
  have none : ops = [] := List.eq_nil_iff_forall_not_mem.mpr fun o member => by
    have := (tight o member).2
    omega
  subst none
  refine ⟨?_, ?_, ?_⟩
  · intro o member
    rcases List.mem_append.mp member with earlier | last
    · exact tighter o earlier
    · cases List.mem_singleton.mp last
      exact ⟨Nat.le_refl 4, by omega⟩
  · intro emitted waiting _
    rw [List.foldlM_append, runs emitted waiting (by omega), bindOk, List.foldlM_cons,
      Yard.stepConnective means rfl, bindOk, List.map_nil, List.nil_append, Yard.operatePower,
      goes _ _ (by omega)]
    simp [waits]
  · have both := buildsBinary sign.span builds means makes
    simpa using both

theorem readsBracketed {b : Bracket} {opener closer : Span} {ps : List Piece} {e : Expr}
    {items : List Postfix} {ops : List (Operation × Span)} (inner : Reads 0 ps e items ops) :
    Reads 5 (.token (.plain (.opening b) opener) :: ps
        ++ [.token (.plain (.closing b) closer)]) e ((ops.map puts).reverse ++ items) [] := by
  obtain ⟨-, runs, builds⟩ := inner
  refine ⟨by simp, ?_, ?_⟩
  · intro emitted waiting _
    have opens : Yard.step ⟨emitted, waiting, true⟩ (.token (.plain (.opening b) opener))
        = .ok ⟨emitted, .bracket b opener :: waiting, true⟩ := rfl
    have closes (y : Yard) :
        Yard.step y (.token (.plain (.closing b) closer)) = y.close b closer := rfl
    rw [List.cons_append, List.foldlM_cons, opens, bindOk, List.foldlM_append,
      runs _ _ fun _ => Yard.holdsBracket b opener, bindOk, List.foldlM_cons, closes,
      Yard.closeRun]
    simp
  · intro operands
    have readable : ∀ w place, Piece.tooLong (.token (.plain (.opening w) place)) = false ∧
        Piece.tooLong (.token (.plain (.closing w) place)) = false := fun _ _ => ⟨rfl, rfl⟩
    simpa [readable] using builds operands

theorem sentenceReads {level : Nat} {ps : List Piece} {e : Expr} (h : Sentence level ps e) :
    ∃ items ops, Reads level ps e items ops := by
  induction h with
  | tighter bound _ ih =>
      obtain ⟨items, ops, reads⟩ := ih
      exact ⟨items, ops, readsTighter bound reads⟩
  | binary _ means belongs _ first second =>
      obtain ⟨_, _, before⟩ := first
      obtain ⟨_, _, after⟩ := second
      exact ⟨_, _, readsBinary before means belongs after⟩
  | unary means _ ih =>
      obtain ⟨_, _, after⟩ := ih
      exact ⟨_, _, readsUnary means after⟩
  | power _ means _ first second =>
      obtain ⟨_, _, before⟩ := first
      obtain ⟨_, _, after⟩ := second
      exact ⟨_, _, readsPower before means after⟩
  | operand means =>
      refine ⟨[.operand _ _], [], by simp, ?_, buildsOperand means⟩
      intro emitted waiting _
      simp [Yard.stepOperand means]
  | bracketed _ ih =>
      obtain ⟨_, _, inner⟩ := ih
      exact ⟨_, _, readsBracketed inner⟩

/-- Every sentence is read as the tree of its derivation, unless it holds an integer with more
digits than are read. -/
theorem sentenceTree {ps : List Piece} {e : Expr} (h : Sentence 0 ps e) (place : Option Span) :
    (do fold (← toPostfix ps) place)
      = if ps.any Piece.tooLong then .error .literalTooLong else .ok e := by
  obtain ⟨items, ops, -, runs, builds⟩ := sentenceReads h
  have postfixed : toPostfix ps = .ok (items.reverse ++ ops.map puts) := by
    have run := runs [] [] fun _ => Yard.holdsEmpty
    have released : Yard.release (fun _ => true) items (ops.map waits ++ [])
        = ((ops.map puts).reverse ++ items, []) :=
      Yard.releaseRun (fun _ _ => rfl) Yard.holdsEmpty
    simp only [List.append_nil] at run released
    simp [toPostfix, Yard.empty, run, Yard.finish, released]
  rw [postfixed, bindOk, fold, builds]
  cases ps.any Piece.tooLong <;> rfl

theorem numeralNotRead {digits : String} (long : longestLiteral < digits.length)
    (place : Span) (whole : Option Span) :
    (do fold (← toPostfix [.token (.plain (.number digits) place)]) whole)
      = .error .literalTooLong := by
  have postfixed : toPostfix [.token (.plain (.number digits) place)]
      = .ok [.operand (.number digits) place] := rfl
  simp [postfixed, fold, applyItem, Operand.toExpr, long]

def longNumeral : String := String.ofList (List.replicate 4301 '1')

theorem longNumeralNotRead :
    Sentence 0 [.token (.plain (.number longNumeral) ⟨0, 4301⟩)]
      ((Operand.number longNumeral).leaf ⟨0, 4301⟩) ∧
    (do fold (← toPostfix [.token (.plain (.number longNumeral) ⟨0, 4301⟩)]) (some ⟨0, 4301⟩))
      = .error .literalTooLong := by
  have size : longNumeral.length = 4301 := String.length_ofList.trans List.length_replicate
  have long : longestLiteral < longNumeral.length := by
    unfold longestLiteral
    omega
  have single : Sentence 5 [.token (.plain (.number longNumeral) ⟨0, 4301⟩)]
      ((Operand.number longNumeral).leaf ⟨0, 4301⟩) := .operand rfl
  exact ⟨single.loosen (by omega) (by omega), numeralNotRead long _ _⟩

namespace Piece

def sign (s : Sign) (at_ : Nat) : Piece := .token (.plain (.sign s) ⟨at_, at_ + 1⟩)

def letter (l : GreekLetter) (at_ : Nat) : Piece := .name (.greek l) ⟨at_, at_ + 1⟩

end Piece

def negatedPower : List Piece :=
  [.sign .minus 0, .letter .xi 1, .sign .caret 2, .token (.plain (.opening .paren) ⟨3, 4⟩),
   .letter .nu 4, .sign .minus 5, .letter .mu 6, .token (.plain (.closing .paren) ⟨7, 8⟩),
   .sign .star 8, .letter .rho 9]

def negatedPowerTree : Expr :=
  .binary (.operator .multiplication)
    (.unary .negation
      (.binary (.operator .exponent) (.lookup (.greek .xi) (some ⟨1, 2⟩))
        (.binary (.operator .subtraction) (.lookup (.greek .nu) (some ⟨4, 5⟩))
          (.lookup (.greek .mu) (some ⟨6, 7⟩)) none) none) none)
    (.lookup (.greek .rho) (some ⟨9, 10⟩)) none

theorem letterSentence (l : GreekLetter) (at_ : Nat) :
    Sentence 5 [.letter l at_] (.lookup (.greek l) (some ⟨at_, at_ + 1⟩)) :=
  .operand (p := .letter l at_) (o := .name (.greek l)) rfl

theorem negatedPowerSentence : Sentence 0 negatedPower negatedPowerTree := by
  have difference : Sentence 2 ([.letter .nu 4] ++ .sign .minus 5 :: [.letter .mu 6]) _ :=
    .binary ((letterSentence .nu 4).loosen (by omega) (by omega)) rfl
      (by simp [connectivesAt, Sign.operator])
      ((letterSentence .mu 6).loosen (by omega) (by omega))
  have group : Sentence 5 (.token (.plain (.opening .paren) ⟨3, 4⟩) :: _
      ++ [.token (.plain (.closing .paren) ⟨7, 8⟩)]) _ :=
    .bracketed (difference.loosen (by omega) (by omega))
  have power : Sentence 4 ([.letter .xi 1] ++ .sign .caret 2 :: _) _ :=
    .power (letterSentence .xi 1) rfl (group.loosen (by omega) (by omega))
  have negated : Sentence 4 (.sign .minus 0 :: _) _ := .unary rfl power
  have product : Sentence 3 (_ ++ .sign .star 8 :: [.letter .rho 9]) _ :=
    .binary (negated.loosen (by omega) (by omega)) rfl (by simp [connectivesAt, Sign.operator])
      ((letterSentence .rho 9).loosen (by omega) (by omega))
  exact product.loosen (by omega) (by omega)

theorem negatedPowerRead : Sentence 0 negatedPower negatedPowerTree ∧
    (do fold (← toPostfix negatedPower) none) = .ok negatedPowerTree :=
  ⟨negatedPowerSentence, sentenceTree negatedPowerSentence none⟩

end LiterateMath
