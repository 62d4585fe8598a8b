import LiterateMath.Parse.Postfix
import LiterateMath.Parse.Lowered

/-! Reading values: conditionals, calls, and the operations between them. -/
namespace LiterateMath

open Lexical

section Conditional

variable {α : Type} [Lexical α]

/-- Cuts at the keyword that goes on with a conditional. An if on the way claims the next else
for itself, and any then before that; `pending` counts those that still want their else. -/
def cutAtKeyword (target : Keyword) : (pending : Nat) → List α → Option (List α × List α)
  | _, [] => none
  | pending, a :: rest =>
      match word? a, pending with
      | some (.keyword .ifWord), pending =>
          (cutAtKeyword target (pending + 1) rest).map fun cut => (a :: cut.1, cut.2)
      | some (.keyword k), 0 => if k = target then some ([], rest) else none
      | some (.keyword .elseWord), pending + 1 =>
          (cutAtKeyword target pending rest).map fun cut => (a :: cut.1, cut.2)
      | _, pending => (cutAtKeyword target pending rest).map fun cut => (a :: cut.1, cut.2)

def conditionalParts (as : List α) : Option (List α × List α × List α) := do
  let (condition, more) ← cutAtKeyword .thenWord 0 as
  let (ifTrue, ifFalse) ← cutAtKeyword .elseWord 0 more
  return (condition, ifTrue, ifFalse)

def splitConditional (first : α) (rest : List α) : Parsed (List α × List α × List α) :=
  match conditionalParts rest with
  | none => malformed .conditionalForm (spanOf (first :: rest))
  | some (condition, ifTrue, ifFalse) =>
      if condition.isEmpty || ifTrue.isEmpty || ifFalse.isEmpty then
        malformed .conditionalPartEmpty (spanOf (first :: rest))
      else .ok (condition, ifTrue, ifFalse)

def startsConditional (a : α) : Bool := word? a = some (.keyword .ifWord)

def parseConditional (parse : List α → Parsed Expr) (first : α) (rest : List α) :
    Parsed Expr := do
  let (condition, ifTrue, ifFalse) ← splitConditional first rest
  let condition ← parse condition
  let ifTrue ← parse ifTrue
  let ifFalse ← parse ifFalse
  return .conditional condition ifTrue ifFalse (spanOf (first :: rest))

end Conditional

def toPieces (ts : List Token) : Parsed (List Piece) := do
  gatherNames (joinReals (← lowerCommands spelledDepth ts))

def parseArguments (parse : List Piece → Parsed Expr) (inside : List Piece) :
    Parsed (List Expr) :=
  if inside.isEmpty then .ok [] else (splitTop .comma 0 inside).mapM parse

def makeCalls (parse : List Piece → Parsed Expr) : List Piece → Parsed (List Piece)
  | [] => .ok []
  | .name function place :: opener :: rest =>
      if opener.word? = some (.opening .paren) then
        match _h : splitClosing 0 rest with
        | none => malformed .argumentsNeverClosed (some opener.span)
        | some (inside, closer, after) => do
            checkClosing .paren opener.span closer
            let args ← parseArguments parse inside
            return .call function args (place.through closer.span) :: (← makeCalls parse after)
      else do return .name function place :: (← makeCalls parse (opener :: rest))
  | p :: rest => do return p :: (← makeCalls parse rest)
termination_by ps => ps.length
decreasing_by
  · have := splitClosingLength _h
    simp only [List.length_cons]
    omega
  all_goals simp

def parseArgument : (limit : Nat) → List Piece → Parsed Expr
  | 0, _ => .error .tooDeep
  | _ + 1, [] => malformed .valueMissing none
  | limit + 1, p :: rest =>
      if startsConditional p then parseConditional (parseArgument limit) p rest
      else do assemble (← makeCalls (parseArgument limit) (p :: rest))

def parseValue : (limit : Nat) → List Token → Parsed Expr
  | 0, _ => .error .tooDeep
  | _ + 1, [] => malformed .valueMissing none
  | limit + 1, t :: rest =>
      if startsConditional t then parseConditional (parseValue limit) t rest
      else do assemble (← makeCalls (parseArgument limit) (← toPieces (t :: rest)))

end LiterateMath
