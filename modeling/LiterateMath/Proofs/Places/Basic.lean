import LiterateMath.Parse.Statement
import LiterateMath.Proofs.Brackets

/-! Places changed all over a list of tokens. What a list is divided into, and what is read
from it, changes its places and nothing else. -/
namespace LiterateMath

open Lexical

/-- A change of places; what goes from one place through another is changed with its ends. -/
structure Relocation where
  move : Span → Span
  through (first last : Span) : move (first.through last) = (move first).through (move last)

namespace Relocation

def shift (offset : Nat) : Relocation := ⟨fun s => s.shift offset, fun _ _ => rfl⟩

def forget : Relocation := ⟨fun _ => ⟨0, 0⟩, fun _ _ => rfl⟩

end Relocation

variable {r : Relocation}

section Moved

mutual

def Token.moved (r : Relocation) : Token → Token
  | .plain w place => .plain w (r.move place)
  | .command name required optional place =>
      .command name (movedGroups r required) (movedGroups r optional) (r.move place)

def movedTokens (r : Relocation) : List Token → List Token
  | [] => []
  | t :: rest => t.moved r :: movedTokens r rest

def movedGroups (r : Relocation) : List (List Token) → List (List Token)
  | [] => []
  | g :: rest => movedTokens r g :: movedGroups r rest

end

theorem movedTokensMap (ts : List Token) : movedTokens r ts = ts.map (Token.moved r) := by
  induction ts with
  | nil => rfl
  | cons t rest ih => simp [movedTokens, ih]

theorem movedGroupsMap (groups : List (List Token)) :
    movedGroups r groups = groups.map (List.map (Token.moved r)) := by
  induction groups with
  | nil => rfl
  | cons g rest ih => simp [movedGroups, movedTokensMap, ih]

@[simp] theorem movedPlain (w : Word) (place : Span) :
    (Token.plain w place).moved r = .plain w (r.move place) := rfl

@[simp] theorem movedCommand (name : String) (required optional : List (List Token))
    (place : Span) : (Token.command name required optional place).moved r
      = .command name (required.map (List.map (Token.moved r)))
          (optional.map (List.map (Token.moved r))) (r.move place) := by
  simp [Token.moved, movedGroupsMap]

mutual

def Expr.moved (r : Relocation) : Expr → Expr
  | .literal value place => .literal value (place.map r.move)
  | .lookup name place => .lookup name (place.map r.move)
  | .call function args place => .call function (movedArguments r args) (place.map r.move)
  | .unary op arg place => .unary op (arg.moved r) (place.map r.move)
  | .binary op lhs rhs place => .binary op (lhs.moved r) (rhs.moved r) (place.map r.move)
  | .conditional condition ifTrue ifFalse place =>
      .conditional (condition.moved r) (ifTrue.moved r) (ifFalse.moved r) (place.map r.move)

def movedArguments (r : Relocation) : List Expr → List Expr
  | [] => []
  | e :: rest => e.moved r :: movedArguments r rest

end

@[simp] theorem movedArgumentsMap (es : List Expr) :
    movedArguments r es = es.map (Expr.moved r) := by
  induction es with
  | nil => rfl
  | cons e rest ih => simp [movedArguments, ih]

def Piece.moved (r : Relocation) : Piece → Piece
  | .token t => .token (t.moved r)
  | .name n place => .name n (r.move place)
  | .call function args place => .call function (args.map (Expr.moved r)) (r.move place)

def FunctionDeclaration.moved (r : Relocation) (d : FunctionDeclaration) : FunctionDeclaration :=
  { d with place := d.place.map r.move }

mutual

def FunctionDefinition.moved (r : Relocation) : FunctionDefinition → FunctionDefinition
  | ⟨name, params, body, captures, place⟩ =>
      ⟨name, params, body.moved r, movedCaptures r captures, place.map r.move⟩

def movedCaptures (r : Relocation) :
    List (Name × Option FunctionDeclaration × FunctionDefinition) →
      List (Name × Option FunctionDeclaration × FunctionDefinition)
  | [] => []
  | (name, known, d) :: rest =>
      (name, known.map (FunctionDeclaration.moved r), d.moved r) :: movedCaptures r rest

end

def Statement.moved (r : Relocation) : Statement → Statement
  | .expression e => .expression (e.moved r)
  | .functionDeclaration d => .functionDeclaration (d.moved r)
  | .valueDeclaration name value place =>
      .valueDeclaration name (value.moved r) (place.map r.move)
  | .setDeclaration name members place =>
      .setDeclaration name (members.map (Expr.moved r)) (place.map r.move)
  | .functionDefinition d => .functionDefinition (d.moved r)

def ParseFailure.moved (r : Relocation) : ParseFailure → ParseFailure
  | .malformed fault place => .malformed fault (place.map r.move)
  | .literalTooLong => .literalTooLong
  | .tooDeep => .tooDeep

end Moved

section Forgotten

/-! A place that is forgotten may have been any. -/

theorem forgetPlace (r : Relocation) (place : Option Span) :
    (place.map r.move).map Relocation.forget.move = place.map Relocation.forget.move := by
  cases place <;> rfl

mutual

theorem Token.forgetMoved (r : Relocation) : ∀ t : Token,
    (t.moved r).moved .forget = t.moved .forget
  | .plain .. => rfl
  | .command _ required optional _ => by
      simp only [Token.moved, forgetMovedGroups r required, forgetMovedGroups r optional]
      rfl

theorem forgetMovedTokens (r : Relocation) : ∀ ts : List Token,
    movedTokens .forget (movedTokens r ts) = movedTokens .forget ts
  | [] => rfl
  | t :: rest => by
      simp only [movedTokens, Token.forgetMoved r t, forgetMovedTokens r rest]

theorem forgetMovedGroups (r : Relocation) : ∀ groups : List (List Token),
    movedGroups .forget (movedGroups r groups) = movedGroups .forget groups
  | [] => rfl
  | g :: rest => by
      simp only [movedGroups, forgetMovedTokens r g, forgetMovedGroups r rest]

end

mutual

theorem Expr.forgetMoved (r : Relocation) : ∀ e : Expr,
    (e.moved r).moved .forget = e.moved .forget
  | .literal .. | .lookup .. => by simp only [Expr.moved, forgetPlace]
  | .call _ args _ => by
      simp only [Expr.moved, forgetPlace, Expr.forgetMovedArguments r args]
  | .unary _ arg _ => by
      simp only [Expr.moved, forgetPlace, Expr.forgetMoved r arg]
  | .binary _ lhs rhs _ => by
      simp only [Expr.moved, forgetPlace, Expr.forgetMoved r lhs, Expr.forgetMoved r rhs]
  | .conditional condition ifTrue ifFalse _ => by
      simp only [Expr.moved, forgetPlace, Expr.forgetMoved r condition,
        Expr.forgetMoved r ifTrue, Expr.forgetMoved r ifFalse]

theorem Expr.forgetMovedArguments (r : Relocation) : ∀ es : List Expr,
    movedArguments .forget (movedArguments r es) = movedArguments .forget es
  | [] => rfl
  | e :: rest => by
      simp only [movedArguments, Expr.forgetMoved r e, Expr.forgetMovedArguments r rest]

end

theorem FunctionDeclaration.forgetMoved (r : Relocation) (d : FunctionDeclaration) :
    (d.moved r).moved .forget = d.moved .forget := by
  simp only [FunctionDeclaration.moved, forgetPlace]

mutual

theorem FunctionDefinition.forgetMoved (r : Relocation) : ∀ d : FunctionDefinition,
    (d.moved r).moved .forget = d.moved .forget
  | ⟨_, _, body, captures, _⟩ => by
      simp only [FunctionDefinition.moved, forgetPlace, Expr.forgetMoved r body,
        forgetMovedCaptures r captures]

theorem forgetMovedCaptures (r : Relocation) :
    ∀ captures : List (Name × Option FunctionDeclaration × FunctionDefinition),
      movedCaptures .forget (movedCaptures r captures) = movedCaptures .forget captures
  | [] => rfl
  | (name, known, d) :: rest => by
      have known' : (known.map (FunctionDeclaration.moved r)).map (FunctionDeclaration.moved .forget)
          = known.map (FunctionDeclaration.moved .forget) := by
        cases known <;> simp [FunctionDeclaration.forgetMoved]
      simp only [movedCaptures, known', FunctionDefinition.forgetMoved r d,
        forgetMovedCaptures r rest]

end

theorem Statement.forgetMoved (r : Relocation) (s : Statement) :
    (s.moved r).moved .forget = s.moved .forget := by
  cases s with
  | setDeclaration name members place =>
      rw [Statement.moved, Statement.moved, Statement.moved, forgetPlace, List.map_map]
      simp only [Function.comp_def, Expr.forgetMoved]
  | _ =>
      simp only [Statement.moved, Expr.forgetMoved, FunctionDeclaration.forgetMoved,
        FunctionDefinition.forgetMoved, forgetPlace]

end Forgotten

section Outcomes

variable {α β γ δ : Type}

def Relocation.outcome (r : Relocation) (f : α → β) : Parsed α → Parsed β
  | .ok a => .ok (f a)
  | .error failure => .error (failure.moved r)

@[simp] theorem outcomeOk (f : α → β) (a : α) : r.outcome f (.ok a) = .ok (f a) := rfl

@[simp] theorem outcomeError (f : α → β) (failure : ParseFailure) :
    r.outcome f (.error failure) = .error (failure.moved r) := rfl

@[simp] theorem outcomeMalformed (f : α → β) (fault : ParseFault) (place : Option Span) :
    r.outcome f (malformed fault place) = malformed fault (place.map r.move) := rfl

theorem outcomeBind {f : α → β} {h : γ → δ} {x : Parsed α} {y : Parsed β}
    {g : α → Parsed γ} {g' : β → Parsed δ} (first : y = r.outcome f x)
    (next : ∀ a, x = .ok a → g' (f a) = r.outcome h (g a)) :
    (y >>= g') = r.outcome h (x >>= g) := by
  cases x with
  | ok a =>
      rw [first]
      exact next a rfl
  | error failure =>
      rw [first]
      rfl

theorem outcomeMap {f : β → δ} {g : α → β} {f' : α → γ} {g' : γ → δ}
    (same : ∀ a, f (g a) = g' (f' a)) (x : Parsed α) :
    r.outcome f (x.map g) = (r.outcome f' x).map g' := by
  cases x with
  | ok a => exact congrArg Except.ok (same a)
  | error failure => rfl

theorem outcomeMapM {m : α → β} {f : γ → δ} {g : α → Parsed γ} {g' : β → Parsed δ}
    {as : List α} (each : ∀ a ∈ as, g' (m a) = r.outcome f (g a)) :
    (as.map m).mapM g' = r.outcome (List.map f) (as.mapM g) := by
  induction as with
  | nil => rfl
  | cons a rest ih =>
      rw [List.map_cons, List.mapM_cons, List.mapM_cons]
      refine outcomeBind (each a (by simp)) fun c _ => ?_
      exact outcomeBind (ih fun b member => each b (by simp [member])) fun cs _ => rfl

end Outcomes

section Divided

variable {α : Type} [Lexical α]

structure Moves (r : Relocation) (m : α → α) : Prop where
  word (a : α) : word? (m a) = word? a
  span (a : α) : span (m a) = r.move (span a)

theorem tokenMoves (r : Relocation) : Moves r (Token.moved r) where
  word t := by cases t <;> rfl
  span t := by cases t <;> rfl

theorem pieceMoves (r : Relocation) : Moves r (Piece.moved r) where
  word p := by
    cases p with
    | token t => exact (tokenMoves r).word t
    | _ => rfl
  span p := by
    cases p with
    | token t => exact (tokenMoves r).span t
    | _ => rfl

variable {m : α → α}

theorem cutAtMoved {β : Type} {m : β → β} {test : β → Bool} (same : ∀ b, test (m b) = test b)
    (bs : List β) : cutAt test (bs.map m)
      = (cutAt test bs).map fun cut => (cut.1.map m, m cut.2.1, cut.2.2.map m) := by
  induction bs with
  | nil => rfl
  | cons b rest ih =>
      rw [List.map_cons, cutAt, cutAt, same, ih]
      split
      · rfl
      · rw [Option.map_map, Option.map_map]
        rfl

theorem splitOnceMoved (h : Moves r m) (w : Word) (as : List α) :
    splitOnce w (as.map m) = (splitOnce w as).map fun cut => (cut.1.map m, cut.2.map m) := by
  rw [splitOnce, splitOnce, cutAtMoved fun a => by rw [h.word], Option.map_map, Option.map_map]
  rfl

theorem depthStepMoved (h : Moves r m) (a : α) : depthStep (m a) = depthStep a := by
  rw [depthStep, depthStep, h.word]

theorem splitTopMoved (h : Moves r m) (w : Word) (depth : Int) (as : List α) :
    splitTop w depth (as.map m) = (splitTop w depth as).map (List.map m) := by
  induction as generalizing depth with
  | nil => rfl
  | cons a rest ih =>
      rw [List.map_cons, splitTop, splitTop, h.word, depthStepMoved h, ih, ih]
      split
      · rfl
      · cases splitTop w (depth + depthStep a) rest <;> rfl

theorem bracketStepMoved (h : Moves r m) (depth : Nat) (a : α) :
    bracketStep depth (m a) = bracketStep depth a := by
  rw [bracketStep, bracketStep, h.word]

theorem splitClosingMoved (h : Moves r m) (depth : Nat) (as : List α) :
    splitClosing depth (as.map m)
      = (splitClosing depth as).map fun cut => (cut.1.map m, m cut.2.1, cut.2.2.map m) := by
  induction as generalizing depth with
  | nil => rfl
  | cons a rest ih =>
      rw [List.map_cons, splitClosingCons, splitClosingCons, bracketStepMoved h]
      split
      · rfl
      · rw [ih, Option.map_map, Option.map_map]
        rfl

theorem spanOfMoved (h : Moves r m) (as : List α) :
    spanOf (as.map m) = (spanOf as).map r.move := by
  cases as with
  | nil => rfl
  | cons a rest =>
      have last : ((a :: rest).map m).getLast (List.cons_ne_nil _ _)
          = m ((a :: rest).getLast (List.cons_ne_nil _ _)) := List.getLast_map _
      simp only [List.map_cons] at last
      rw [List.map_cons, spanOf, spanOf, last, h.span, h.span, Option.map_some, r.through]

theorem checkClosingMoved (h : Moves r m) (b : Bracket) (opener : Span) (closer : α) :
    checkClosing b (r.move opener) (m closer) = r.outcome id (checkClosing b opener closer) := by
  rw [checkClosing, checkClosing, h.word, h.span]
  split
  · rfl
  · simp [Relocation.outcome, ParseFailure.moved, r.through]

theorem cutAtKeywordMoved (h : Moves r m) (target : Keyword) (pending : Nat) (as : List α) :
    cutAtKeyword target pending (as.map m)
      = (cutAtKeyword target pending as).map fun cut => (cut.1.map m, cut.2.map m) := by
  induction as generalizing pending with
  | nil => rfl
  | cons a rest ih =>
      unfold cutAtKeyword
      simp only [List.map_cons, h.word]
      split
      · simp only [ih, Option.map_map]
        rfl
      · split <;> rfl
      · simp only [ih, Option.map_map]
        rfl
      · simp only [ih, Option.map_map]
        rfl

theorem splitConditionalMoved (h : Moves r m) (first : α) (rest : List α) :
    splitConditional (m first) (rest.map m)
      = r.outcome (fun parts => (parts.1.map m, parts.2.1.map m, parts.2.2.map m))
          (splitConditional first rest) := by
  have whole := spanOfMoved h (first :: rest)
  rw [List.map_cons] at whole
  have parts : conditionalParts (rest.map m) = (conditionalParts rest).map
      fun parts => (parts.1.map m, parts.2.1.map m, parts.2.2.map m) := by
    simp only [conditionalParts, cutAtKeywordMoved h]
    cases cutAtKeyword .thenWord 0 rest with
    | none => rfl
    | some cut =>
        simp only [Option.map_some, Option.bind_eq_bind, Option.bind_some, cutAtKeywordMoved h]
        cases cutAtKeyword .elseWord 0 cut.2 <;> rfl
  rw [splitConditional, splitConditional, parts, whole]
  cases conditionalParts rest with
  | none => rfl
  | some parts =>
      simp only [Option.map_some, List.isEmpty_map]
      split <;> rfl

theorem parseConditionalMoved (h : Moves r m) {parse : List α → Parsed Expr}
    (same : ∀ as, parse (as.map m) = r.outcome (Expr.moved r) (parse as)) (first : α)
    (rest : List α) : parseConditional parse (m first) (rest.map m)
      = r.outcome (Expr.moved r) (parseConditional parse first rest) := by
  have whole := spanOfMoved h (first :: rest)
  rw [List.map_cons] at whole
  refine outcomeBind (splitConditionalMoved h first rest) fun parts _ => ?_
  refine outcomeBind (same parts.1) fun condition _ => ?_
  refine outcomeBind (same parts.2.1) fun ifTrue _ => ?_
  refine outcomeBind (same parts.2.2) fun ifFalse _ => ?_
  rw [whole]
  rfl

theorem startsConditionalMoved (h : Moves r m) (a : α) :
    startsConditional (m a) = startsConditional a := by
  rw [startsConditional, startsConditional, h.word]

end Divided
end LiterateMath
