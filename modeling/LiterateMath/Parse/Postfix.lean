import LiterateMath.Parse.Piece

/-! Operator precedence. The pieces of an expression are put in postfix order with a stack of
the operators and brackets that still wait, and the tree is then built from that order with a
stack of operands. -/
namespace LiterateMath

def Operation.precedence : Operation → Nat
  | .binary (.relation _) => 0
  | .binary (.operator .union) | .binary (.operator .intersection)
  | .binary (.operator .disjunction) | .binary (.operator .plusMinus)
  | .binary (.operator .setDifference) => 1
  | .binary (.operator .addition) | .binary (.operator .subtraction) => 2
  | .binary (.operator .multiplication) | .binary (.operator .division)
  | .binary (.operator .conjunction) | .binary (.operator .exclusiveOr)
  | .binary (.operator .externalProduct) | .binary (.operator .internalProduct) => 3
  | .unary _ | .binary (.operator .exponent) => 4

def Operation.associatesRight (op : Operation) : Bool :=
  op = .binary (.operator .exponent)

inductive Operand where
  | number (digits : String)
  | real (value : Float)
  | name (name : Name)
  | call (function : Name) (args : List Expr)
  deriving Repr

inductive Role where
  | operand (o : Operand)
  | opening (b : Bracket)
  | closing (b : Bracket)
  | operation (op : Operation)
  | stray (fault : ParseFault)

def Word.role (expecting : Bool) : Word → Role
  | .number digits => .operand (.number digits)
  | .real value => .operand (.real value)
  | .opening b => .opening b
  | .closing b => .closing b
  | .sign s =>
      if s = .minus ∧ expecting then .operation (.unary .negation)
      else .operation (.binary (.operator s.operator))
  | .operator o => .operation (.binary (.operator o))
  | .unary u => .operation (.unary u)
  | .relation r => .operation (.binary (.relation r))
  | .bigOperator o => .stray (.unsupportedBigOperator o)
  | .setRelation r => .stray (.unsupportedSetRelation r)
  | .stub name => .stray (.unknownCommand name)
  | w => .stray (.stray w)

def Piece.role (expecting : Bool) : Piece → Role
  | .name n _ => .operand (.name n)
  | .call function args _ => .operand (.call function args)
  | .token (.plain w _) => w.role expecting
  | .token (.command n ..) => .stray (.meaninglessCommand n)

inductive Waiting where
  | bracket (b : Bracket) (place : Span)
  | operation (op : Operation) (place : Span)
  deriving Repr

inductive Postfix where
  | operand (o : Operand) (place : Span)
  | operation (op : Operation) (place : Span)
  deriving Repr

/-- The items put out so far, the last of them first; what waits, the top first; and whether an
operand is expected next. -/
structure Yard where
  emitted : List Postfix
  waiting : List Waiting
  expecting : Bool

namespace Yard

def empty : Yard := ⟨[], [], true⟩

def release (test : Operation → Bool) (emitted : List Postfix) :
    List Waiting → List Postfix × List Waiting
  | .operation op place :: rest =>
      if test op then release test (.operation op place :: emitted) rest
      else (emitted, .operation op place :: rest)
  | waiting => (emitted, waiting)

def goesBefore (new old : Operation) : Bool :=
  new.precedence < old.precedence
    || (new.precedence = old.precedence && !new.associatesRight)

def close (y : Yard) (b : Bracket) (place : Span) : Parsed Yard :=
  let released := release (fun _ => true) y.emitted y.waiting
  match released.2 with
  | .bracket opener at_ :: rest =>
      if opener = b then .ok ⟨released.1, rest, false⟩
      else malformed .bracketsDoNotMatch (some (at_.through place))
  | _ => malformed .nothingOpens (some place)

def operate (y : Yard) (op : Operation) (place : Span) : Yard :=
  match op with
  | .unary _ => ⟨y.emitted, .operation op place :: y.waiting, true⟩
  | .binary _ =>
      let released := release (goesBefore op) y.emitted y.waiting
      ⟨released.1, .operation op place :: released.2, true⟩

def step (y : Yard) (p : Piece) : Parsed Yard :=
  match p.role y.expecting with
  | .operand o => .ok ⟨.operand o p.span :: y.emitted, y.waiting, false⟩
  | .opening b => .ok ⟨y.emitted, .bracket b p.span :: y.waiting, true⟩
  | .closing b => y.close b p.span
  | .operation op => .ok (y.operate op p.span)
  | .stray fault => malformed fault (some p.span)

def finish (y : Yard) : Parsed (List Postfix) :=
  let released := release (fun _ => true) y.emitted y.waiting
  match released.2 with
  | .bracket _ place :: _ => malformed .neverClosed (some place)
  | _ => .ok released.1.reverse

end Yard

def toPostfix (ps : List Piece) : Parsed (List Postfix) := do
  (← ps.foldlM Yard.step Yard.empty).finish

def longestLiteral : Nat := 4300

def Operand.toExpr (place : Span) : Operand → Parsed Expr
  | .number digits =>
      if longestLiteral < digits.length then .error .literalTooLong
      else .ok (.literal (.integer (Text.numeralValue digits.toList)) (some place))
  | .real value => .ok (.literal (.real value) (some place))
  | .name n => .ok (.lookup n (some place))
  | .call function args => .ok (.call function args (some place))

def applyItem (operands : List Expr) : Postfix → Parsed (List Expr)
  | .operand o place => do return (← o.toExpr place) :: operands
  | .operation (.binary c) place =>
      match operands with
      | rhs :: lhs :: rest => .ok (.binary c lhs rhs none :: rest)
      | _ => malformed (.operandMissing (.binary c)) (some place)
  | .operation (.unary u) place =>
      match operands with
      | arg :: rest => .ok (.unary u arg none :: rest)
      | _ => malformed (.operandMissing (.unary u)) (some place)

def fold (items : List Postfix) (place : Option Span) : Parsed Expr := do
  match ← items.foldlM applyItem [] with
  | [e] => return e
  | _ => malformed .sideBySide place

def assemble (ps : List Piece) : Parsed Expr := do
  let e ← fold (← toPostfix ps) (spanOf ps)
  return e.settleAt (spanOf ps)

end LiterateMath
