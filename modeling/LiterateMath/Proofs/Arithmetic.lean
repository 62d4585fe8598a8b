import LiterateMath.Proofs.Outcome
import LiterateMath.Number.Arithmetic

/-! Arithmetic does not lead out of the integers and the reals. Operations on them give an
integer or a real again, or fail in one of the ways that arithmetic has; none of these is that a
number is of the wrong kind. -/
namespace LiterateMath

inductive Yields {ε α : Type} (good : α → Prop) (kind : ε → Prop) : Except ε α → Prop where
  | ok {a : α} (value : good a) : Yields good kind (.ok a)
  | error {fault : ε} (fitting : kind fault) : Yields good kind (.error fault)

namespace Yields

variable {ε α β : Type} {good fine : α → Prop} {kind other : ε → Prop} {after : β → Prop}

theorem bind {o : Except ε α} {f : α → Except ε β} (first : Yields good kind o)
    (next : ∀ a, good a → Yields after kind (f a)) : Yields after kind (o >>= f) := by
  cases first with
  | ok value => exact next _ value
  | error fitting => exact .error fitting

theorem mapM {γ : Type} {f : γ → Except ε α} {xs : List γ}
    (each : ∀ x ∈ xs, Yields good kind (f x)) :
    Yields (fun as => ∀ a ∈ as, good a) kind (xs.mapM f) := by
  induction xs with
  | nil => exact .ok (by simp)
  | cons x rest ih =>
      rw [List.mapM_cons]
      refine (each x List.mem_cons_self).bind fun a first => ?_
      refine (ih fun y member => each y (List.mem_cons_of_mem x member)).bind fun as more => ?_
      exact .ok (List.forall_mem_cons.mpr ⟨first, more⟩)

theorem imp {o : Except ε α} (ends : Yields good kind o) (better : ∀ a, good a → fine a)
    (milder : ∀ fault, kind fault → other fault) : Yields fine other o := by
  cases ends with
  | ok value => exact .ok (better _ value)
  | error fitting => exact .error (milder _ fitting)

theorem result {o : Except ε α} {a : α} (ends : Yields good kind o) (found : o = .ok a) :
    good a := by
  cases ends with
  | ok value => exact Except.ok.inj found ▸ value
  | error fitting => cases found

theorem fault {o : Except ε α} {fault : ε} (ends : Yields good kind o)
    (failed : o = .error fault) : kind fault := by
  cases ends with
  | ok value => cases failed
  | error fitting => exact Except.error.inj failed ▸ fitting

end Yields

namespace Number

def isInteger : Number → Bool
  | integer _ => true
  | _ => false

def isReal : Number → Bool
  | real _ => true
  | _ => false

def isPlain (n : Number) : Bool := n.isInteger || n.isReal

theorem integerPlain {n : Number} (integer : n.isInteger = true) : n.isPlain = true := by
  simp [isPlain, integer]

theorem realPlain {n : Number} (real : n.isReal = true) : n.isPlain = true := by
  simp [isPlain, real]

theorem plainCases {n : Number} (plain : n.isPlain = true) :
    (∃ i, n = integer i) ∨ ∃ x, n = real x := by
  cases n with
  | integer i => exact .inl ⟨i, rfl⟩
  | real x => exact .inr ⟨x, rfl⟩
  | _ => cases plain

end Number

def Mismatch.isOfKind : Mismatch → Bool
  | notANumber _ | notReal _ | arithmetic _ | negation _ => true
  | integerTooLarge _ | exponentOverflow | noRealPower .. | argumentCount .. => false

def Fault.isOfKind : Fault → Bool
  | mismatch m => m.isOfKind
  | _ => false

inductive Fault.Arithmetical : Fault → Prop where
  | divisionByZero : Arithmetical .divisionByZero
  | mismatch {m : Mismatch} (inKind : m.isOfKind = false) : Arithmetical (.mismatch m)
  | unsupported (op : Operation) : Arithmetical (.unsupported (.operation op))

theorem Fault.Arithmetical.inKind {fault : Fault} (arithmetical : fault.Arithmetical) :
    fault.isOfKind = false := by
  cases arithmetical with
  | mismatch inKind => exact inKind
  | _ => rfl

namespace Number

theorem promotionEnds (i : Int) :
    Yields (fun _ => True) (fun fault => ∃ digits, fault = .mismatch (.integerTooLarge digits))
      (toReal (integer i)) := by
  simp only [toReal]
  split
  · exact .error ⟨_, rfl⟩
  · exact .ok trivial

theorem toRealEnds {n : Number} (plain : n.isPlain = true) :
    Yields (fun _ => True) Fault.Arithmetical n.toReal := by
  obtain ⟨i, rfl⟩ | ⟨x, rfl⟩ := plainCases plain
  · refine (promotionEnds i).imp (fun _ => id) ?_
    rintro fault ⟨digits, rfl⟩
    exact .mismatch rfl
  · exact .ok trivial

theorem realPowerEnds (a b : Float) :
    Yields (fun n => n.isReal = true) Fault.Arithmetical (realPower a b) := by
  unfold realPower
  split
  · exact .error .divisionByZero
  · repeat' split
    all_goals first | exact .ok rfl | exact .error (.mismatch rfl)

theorem integerPowerEnds (a : Int) {b : Int} (natural : 0 ≤ b) :
    Yields (fun n => n.isInteger = true) Fault.Arithmetical (integerPower a b) := by
  rw [integerPower, if_pos natural]
  exact .ok rfl

theorem negativePowerEnds (a : Int) {b : Int} (negative : b < 0) :
    Yields (fun n => n.isReal = true) Fault.Arithmetical (integerPower a b) := by
  rw [integerPower, if_neg (Int.not_le.mpr negative)]
  split
  · exact .error .divisionByZero
  · exact (toRealEnds rfl).bind fun x _ => (toRealEnds rfl).bind fun y _ => realPowerEnds x y

theorem quotientEnds (a b : Int) :
    Yields (fun n => n.isInteger = true) Fault.Arithmetical (quotient a b) := by
  unfold quotient
  split
  · exact .error .divisionByZero
  · exact .ok rfl

theorem arithmeticEnds {op : BinaryOperator} {meaning : Operands → Outcome Number}
    (found : arithmetic? op = some meaning) (ops : Operands) :
    Yields (fun n => n.isPlain = true) Fault.Arithmetical (meaning ops) := by
  cases op with
  | division =>
      cases found
      cases ops with
      | integers a b => exact (quotientEnds a b).imp (fun _ => integerPlain) fun _ => id
      | reals a b =>
          dsimp only
          split
          · exact .error .divisionByZero
          · exact .ok rfl
  | exponent =>
      cases found
      cases ops with
      | integers a b =>
          rcases Int.lt_or_le b 0 with negative | natural
          · exact (negativePowerEnds a negative).imp (fun _ => realPlain) fun _ => id
          · exact (integerPowerEnds a natural).imp (fun _ => integerPlain) fun _ => id
      | reals a b => exact (realPowerEnds a b).imp (fun _ => realPlain) fun _ => id
  | addition | subtraction | multiplication => cases found; cases ops <;> exact .ok rfl
  | _ => cases found

theorem integersEnd {op : BinaryOperator} {meaning : Operands → Outcome Number}
    (found : arithmetic? op = some meaning) (a : Int) {b : Int}
    (natural : op = .exponent → 0 ≤ b) :
    Yields (fun n => n.isInteger = true) Fault.Arithmetical (meaning (.integers a b)) := by
  cases op with
  | division => cases found; exact quotientEnds a b
  | exponent => cases found; exact integerPowerEnds a (natural rfl)
  | addition | subtraction | multiplication => cases found; exact .ok rfl
  | _ => cases found

theorem operandsEnd {a b : Number} (plain : a.isPlain = true) (plain' : b.isPlain = true) :
    Yields (fun _ => True) Fault.Arithmetical (operands a b) := by
  obtain ⟨i, rfl⟩ | ⟨x, rfl⟩ := plainCases plain <;>
    obtain ⟨j, rfl⟩ | ⟨y, rfl⟩ := plainCases plain'
  · exact .ok trivial
  all_goals exact (toRealEnds plain).bind fun _ _ => (toRealEnds plain').bind fun _ _ => .ok trivial

theorem operandsIntegerReal (i : Int) (x : Float) :
    operands (integer i) (real x) = (do
      let promoted ← toReal (integer i)
      operands (real promoted) (real x)) := by
  simp only [operands, kind, kind?, supportsArithmetic, bindOk]
  rfl

theorem operandsRealInteger (x : Float) (i : Int) :
    operands (real x) (integer i) = (do
      let promoted ← toReal (integer i)
      operands (real x) (real promoted)) := by
  simp only [operands, kind, kind?, supportsArithmetic, bindOk]
  rfl

end Number

namespace Connective

theorem meaningEnds {c : Connective} {meaning : Number.Operands → Outcome Number}
    (found : c.meaning? = some meaning) (ops : Number.Operands) :
    Yields (fun n => n.isPlain = true) Fault.Arithmetical (meaning ops) := by
  cases c with
  | operator op => exact Number.arithmeticEnds found ops
  | relation r =>
      obtain ⟨test, -, rfl⟩ := Option.map_eq_some_iff.mp found
      exact .ok rfl

theorem combineEnds (c : Connective) {a b : Number} (plain : a.isPlain = true)
    (plain' : b.isPlain = true) :
    Yields (fun n => n.isPlain = true) Fault.Arithmetical (c.combine a b) := by
  unfold combine
  cases means : c.meaning? with
  | none => exact .error (.unsupported _)
  | some meaning => exact (Number.operandsEnd plain plain').bind fun ops _ => meaningEnds means ops

theorem combineIntegers (c : Connective) (a : Int) {b : Int}
    (natural : c = .operator .exponent → 0 ≤ b) :
    Yields (fun n => n.isInteger = true) Fault.Arithmetical
      (c.combine (.integer a) (.integer b)) := by
  unfold combine
  cases means : c.meaning? with
  | none => exact .error (.unsupported _)
  | some meaning =>
      cases c with
      | operator op => exact Number.integersEnd means a fun same => natural (congrArg operator same)
      | relation r =>
          obtain ⟨test, -, rfl⟩ := Option.map_eq_some_iff.mp means
          exact .ok rfl

theorem combineRelation (r : Relation) {a b : Number} (plain : a.isPlain = true)
    (plain' : b.isPlain = true) :
    Yields (fun n => n.isInteger = true) Fault.Arithmetical ((relation r).combine a b) := by
  unfold combine
  cases means : (relation r).meaning? with
  | none => exact .error (.unsupported _)
  | some meaning =>
      obtain ⟨test, -, rfl⟩ := Option.map_eq_some_iff.mp means
      exact (Number.operandsEnd plain plain').bind fun ops _ => .ok rfl

variable {c : Connective}

theorem combineIntegerReal (implemented : c.meaning?.isSome = true) (i : Int) (x : Float) :
    c.combine (.integer i) (.real x) = (do
      let promoted ← Number.toReal (.integer i)
      c.combine (.real promoted) (.real x)) := by
  obtain ⟨meaning, means⟩ := Option.isSome_iff_exists.mp implemented
  simp only [combine, means, Number.operandsIntegerReal]
  cases Number.toReal (.integer i) <;> rfl

theorem combineRealInteger (implemented : c.meaning?.isSome = true) (x : Float) (i : Int) :
    c.combine (.real x) (.integer i) = (do
      let promoted ← Number.toReal (.integer i)
      c.combine (.real x) (.real promoted)) := by
  obtain ⟨meaning, means⟩ := Option.isSome_iff_exists.mp implemented
  simp only [combine, means, Number.operandsRealInteger]
  cases Number.toReal (.integer i) <;> rfl

end Connective

theorem applyEnds (op : Operation) {a : Number} (plain : a.isPlain = true) :
    Yields (fun n => n.isPlain = true ∧ n.isInteger = a.isInteger) Fault.Arithmetical
      (op.apply a) := by
  unfold Operation.apply
  split
  · obtain ⟨i, rfl⟩ | ⟨x, rfl⟩ := Number.plainCases plain <;> exact .ok ⟨rfl, rfl⟩
  · exact .error (.unsupported op)

theorem operationEnds (op : Operation) {a b : Number} (plain : a.isPlain = true)
    (plain' : b.isPlain = true) :
    Yields (fun n => n.isPlain = true) Fault.Arithmetical (op.combine a b) := by
  cases op with
  | unary u => exact .error (.unsupported _)
  | binary c => exact c.combineEnds plain plain'

end LiterateMath
