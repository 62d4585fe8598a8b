import LiterateMath.Proofs.Outcome
import LiterateMath.Parse.Postfix

/-! A tree and the postfix order that it is built from determine each other, up to the places
of their nodes. -/
namespace LiterateMath

def Operand.leaf (place : Span) : Operand → Expr
  | number digits => .literal (.integer (Text.numeralValue digits.toList)) (some place)
  | real value => .literal (.real value) (some place)
  | name n => .lookup n (some place)
  | call function args => .call function args (some place)

namespace Postfix

def kept : Postfix → (Operand × Span) ⊕ Operation
  | operand o place => .inl (o, place)
  | operation op _ => .inr op

def mark : Postfix → Expr ⊕ Operation
  | operand o place => .inl (o.leaf place).bare
  | operation op _ => .inr op

end Postfix

namespace Expr

mutual

theorem bareBare : ∀ e : Expr, e.bare.bare = e.bare
  | literal .. => rfl
  | lookup .. => rfl
  | call function args _ => by simp only [bare, baresBares args]
  | unary _ arg _ => by simp only [bare, bareBare arg]
  | binary _ lhs rhs _ => by simp only [bare, bareBare lhs, bareBare rhs]
  | conditional condition ifTrue ifFalse _ => by
      simp only [bare, bareBare condition, bareBare ifTrue, bareBare ifFalse]

theorem baresBares : ∀ es : List Expr, bares (bares es) = bares es
  | [] => rfl
  | e :: rest => by simp only [bares, bareBare e, baresBares rest]

end

theorem baresMap (es : List Expr) : bares es = es.map bare := by
  induction es with
  | nil => rfl
  | cons e rest ih => simp [bares, ih]

theorem bareSettled (place : Option Span) (e : Expr) : (e.settleAt place).bare = e.bare := by
  unfold settleAt
  split
  · rfl
  · cases e <;> rfl

def spelled : Expr → List (Expr ⊕ Operation)
  | unary u arg _ => arg.spelled ++ [.inr (.unary u)]
  | binary c lhs rhs _ => lhs.spelled ++ rhs.spelled ++ [.inr (.binary c)]
  | e => [.inl e.bare]

theorem spelledBare : ∀ e : Expr, e.bare.spelled = e.spelled
  | literal .. => rfl
  | lookup .. => rfl
  | call function args _ => by simp only [bare, spelled, baresBares]
  | unary _ arg _ => by simp only [bare, spelled, spelledBare arg]
  | binary _ lhs rhs _ => by simp only [bare, spelled, spelledBare lhs, spelledBare rhs]
  | conditional .. => by simp only [bare, spelled, bareBare]

end Expr

theorem toExprLeaf {o : Operand} {place : Span} {e : Expr} (h : o.toExpr place = .ok e) :
    e = o.leaf place := by
  cases o with
  | number digits =>
      unfold Operand.toExpr at h
      simp only at h
      split at h
      · cases h
      · cases h
        rfl
  | _ =>
      cases h
      rfl

theorem leafSpelled (o : Operand) (place : Span) :
    (o.leaf place).spelled = [.inl (o.leaf place).bare] := by
  cases o <;> rfl

theorem applyItemSpelled {item : Postfix} {operands result : List Expr}
    (h : applyItem operands item = .ok result) :
    result.reverse.flatMap Expr.spelled = operands.reverse.flatMap Expr.spelled ++ [item.mark] := by
  unfold applyItem at h
  split at h
  · rename_i o place
    obtain ⟨e, read, same⟩ := bindIsOk.mp h
    cases same
    rw [toExprLeaf read]
    simp [leafSpelled, Postfix.mark]
  · split at h
    · cases h
      simp [Expr.spelled, Postfix.mark]
    · cases h
  · split at h
    · cases h
      simp [Expr.spelled, Postfix.mark]
    · cases h

theorem applyItemsSpelled {items : List Postfix} {operands result : List Expr}
    (h : items.foldlM applyItem operands = .ok result) :
    result.reverse.flatMap Expr.spelled
      = operands.reverse.flatMap Expr.spelled ++ items.map Postfix.mark := by
  induction items generalizing operands with
  | nil =>
      cases h
      simp
  | cons item rest ih =>
      rw [List.foldlM_cons] at h
      obtain ⟨next, applied, later⟩ := bindIsOk.mp h
      rw [ih later, applyItemSpelled applied]
      simp

theorem foldSpelled {items : List Postfix} {place : Option Span} {e : Expr}
    (h : fold items place = .ok e) : e.spelled = items.map Postfix.mark := by
  unfold fold at h
  obtain ⟨operands, applied, last⟩ := bindIsOk.mp h
  split at last
  · cases last
    simpa using applyItemsSpelled applied
  · cases last

theorem foldFirst {items : List Postfix} {place : Option Span} {e : Expr}
    (h : fold items place = .ok e) : ∃ o at_ rest, items = .operand o at_ :: rest := by
  unfold fold at h
  obtain ⟨operands, applied, last⟩ := bindIsOk.mp h
  cases items with
  | nil =>
      cases applied
      cases last
  | cons item rest =>
      rw [List.foldlM_cons] at applied
      obtain ⟨next, first, -⟩ := bindIsOk.mp applied
      cases item with
      | operand o at_ => exact ⟨o, at_, rest, rfl⟩
      | operation op at_ => cases op <;> cases first

theorem applyItemKept {item item' : Postfix} (same : item.kept = item'.kept)
    {operands result : List Expr} (h : applyItem operands item = .ok result) :
    applyItem operands item' = .ok result := by
  cases item with
  | operand o place =>
      cases item' with
      | operand => cases same; exact h
      | operation => cases same
  | operation op place =>
      cases item' with
      | operand => cases same
      | operation op' place' =>
          cases same
          unfold applyItem at h ⊢
          cases op with
          | unary u =>
              cases operands with
              | nil => cases h
              | cons arg rest => exact h
          | binary c =>
              cases operands with
              | nil => cases h
              | cons rhs rest =>
                  cases rest with
                  | nil => cases h
                  | cons lhs rest => exact h

theorem applyItemsKept {items items' : List Postfix}
    (same : items.map Postfix.kept = items'.map Postfix.kept) {operands result : List Expr}
    (h : items.foldlM applyItem operands = .ok result) :
    items'.foldlM applyItem operands = .ok result := by
  induction items generalizing items' operands with
  | nil =>
      obtain rfl : items' = [] := by simpa using same.symm
      exact h
  | cons item rest ih =>
      obtain ⟨item', rest', rfl, first, later⟩ := List.map_eq_cons_iff.mp same.symm
      rw [List.foldlM_cons] at h ⊢
      obtain ⟨next, applied, more⟩ := bindIsOk.mp h
      rw [applyItemKept first.symm applied, bindOk]
      exact ih later.symm more

theorem foldKept {items items' : List Postfix} {place : Option Span} {e : Expr}
    (same : items.map Postfix.kept = items'.map Postfix.kept) (h : fold items place = .ok e) :
    fold items' place = .ok e := by
  unfold fold at h ⊢
  obtain ⟨operands, applied, last⟩ := bindIsOk.mp h
  rw [applyItemsKept same applied]
  exact last

end LiterateMath
