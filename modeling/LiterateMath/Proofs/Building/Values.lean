import LiterateMath.Proofs.Building.Settled
import LiterateMath.Proofs.Building.Stacks
import LiterateMath.Proofs.Pairing

/-! Values built step by step. The positions, tables and stacks on the way always hold what is
looked for, and what is built is what is read. -/
namespace LiterateMath.Building

open Lexical

section Conditionals

variable {stream : List Piece}

theorem partsFromStep {pending next : Nat} {p : Piece} (h : wantStep pending p = some next)
    (index : Nat) (thenAt : Option Nat) (rest : List Piece) :
    partsFrom stream index thenAt pending (p :: rest)
      = partsFrom stream (index + 1) thenAt next rest := by
  have here : word? p = p.word? := rfl
  rw [wantStep, here] at h
  rw [partsFrom]
  cases word : p.word? with
  | none => simp_all
  | some w =>
      cases w with
      | keyword k =>
          cases k <;> cases pending <;> simp only [word] at h <;> cases h <;> simp
      | _ => simp_all

theorem partsFromWord {p : Piece} (h : wantStep 0 p = none) :
    p.word? = some (.keyword .thenWord) ∨ p.word? = some (.keyword .elseWord) := by
  have here : word? p = p.word? := rfl
  rw [wantStep, here] at h
  cases word : p.word? with
  | none => simp_all
  | some w =>
      cases w with
      | keyword k => cases k <;> simp_all
      | _ => simp_all

theorem partsFromThen (thenAt index pending : Nat) (ps : List Piece) :
    partsFrom stream index (some thenAt) pending ps
      = match cutAtKeyword .elseWord pending ps with
        | none => fail .conditionalForm (spanOf stream)
        | some (ifTrue, _) => .ok (between stream 1 thenAt,
            between stream (thenAt + 1) (index + ifTrue.length),
            stream.drop (index + ifTrue.length + 1)) := by
  induction ps generalizing index pending with
  | nil => rfl
  | cons p rest ih =>
      rw [cutAtKeywordStep]
      cases step : wantStep pending p with
      | some next =>
          rw [partsFromStep step, ih]
          dsimp only
          cases cutAtKeyword .elseWord next rest with
          | none => rfl
          | some cut =>
              rw [Option.map_some]
              dsimp only
              rw [List.length_cons, Nat.add_right_comm index 1, Nat.add_assoc index]
      | none =>
          obtain rfl := wantStepFails step
          rcases partsFromWord step with word | word
          · simp [partsFrom, word, show word? p = p.word? from rfl]
          · simp [partsFrom, word, show word? p = p.word? from rfl]
            rfl

theorem partsFromIf (index pending : Nat) (ps : List Piece) :
    partsFrom stream index none pending ps
      = match cutAtKeyword .thenWord pending ps with
        | none => fail .conditionalForm (spanOf stream)
        | some (condition, more) =>
            partsFrom stream (index + condition.length + 1) (some (index + condition.length)) 0
              more := by
  induction ps generalizing index pending with
  | nil => rfl
  | cons p rest ih =>
      rw [cutAtKeywordStep]
      cases step : wantStep pending p with
      | some next =>
          rw [partsFromStep step, ih]
          dsimp only
          cases cutAtKeyword .thenWord next rest with
          | none => rfl
          | some cut =>
              rw [Option.map_some]
              dsimp only
              rw [List.length_cons, Nat.add_right_comm index 1, Nat.add_assoc index]
      | none =>
          obtain rfl := wantStepFails step
          rcases partsFromWord step with word | word
          · simp [partsFrom, word, show word? p = p.word? from rfl]
          · simp [partsFrom, word, show word? p = p.word? from rfl]

theorem partsBuilt (first : Piece) (rest : List Piece) :
    partsFrom (first :: rest) 1 none 0 rest = match conditionalParts rest with
      | none => fail .conditionalForm (spanOf (first :: rest))
      | some parts => .ok parts := by
  rw [conditionalParts, partsFromIf]
  cases cut : cutAtKeyword .thenWord 0 rest with
  | none => rfl
  | some parted =>
      obtain ⟨condition, more⟩ := parted
      dsimp only [Option.bind_eq_bind, Option.bind_some]
      rw [partsFromThen]
      cases cut' : cutAtKeyword .elseWord 0 more with
      | none => rfl
      | some parted =>
          obtain ⟨ifTrue, ifFalse⟩ := parted
          obtain ⟨thenWord, -, rfl⟩ := cutAtKeywordFound cut
          obtain ⟨elseWord, -, rfl⟩ := cutAtKeywordFound cut'
          let stream := first :: (condition ++ thenWord :: (ifTrue ++ elseWord :: ifFalse))
          have inIf : between stream 1 (1 + condition.length) = condition :=
            betweenAt [first] condition _ rfl rfl rfl
          have inThen : between stream (1 + condition.length + 1)
              (1 + condition.length + 1 + ifTrue.length) = ifTrue :=
            betweenAt (first :: condition ++ [thenWord]) ifTrue (elseWord :: ifFalse)
              (by simp [stream]) (by simp; omega) (by simp; omega)
          have inElse : stream.drop (1 + condition.length + 1 + ifTrue.length + 1) = ifFalse := by
            have shape : stream
                = (first :: condition ++ thenWord :: ifTrue ++ [elseWord]) ++ ifFalse := by
              simp [stream]
            rw [shape]
            exact List.drop_left' (by simp; omega)
          exact congrArg Except.ok (by rw [inIf, inThen, inElse])

theorem parseConditionalSplit (parse : List Piece → Built Expr) (first : Piece)
    (rest : List Piece) : parseConditional parse (first :: rest) = do
      let (condition, ifTrue, ifFalse) ← lift (splitConditional first rest)
      let condition ← parse condition
      let ifTrue ← parse ifTrue
      let ifFalse ← parse ifFalse
      return .conditional condition ifTrue ifFalse (spanOf (first :: rest)) := by
  rw [parseConditional, List.drop_one, List.tail_cons, partsBuilt, splitConditional]
  cases conditionalParts rest with
  | none => rfl
  | some parts =>
      dsimp only
      rw [bindOk]
      split
      · rfl
      · rfl

theorem cutAtKeywordPieces (target : Keyword) (pending : Nat) (ts : List Token) :
    cutAtKeyword target pending (pieces ts)
      = (cutAtKeyword target pending ts).map fun cut => (pieces cut.1, pieces cut.2) := by
  induction ts generalizing pending with
  | nil => rfl
  | cons t rest ih =>
      have step : wantStep pending (Piece.token t) = wantStep pending t := rfl
      have here : word? (Piece.token t) = word? t := rfl
      rw [piecesCons, cutAtKeywordStep, cutAtKeywordStep, step, here]
      cases wantStep pending t with
      | some next => simp [ih, Function.comp_def]
      | none =>
          dsimp only
          split <;> rfl

theorem splitConditionalPieces (t : Token) (rest : List Token) :
    splitConditional (Piece.token t) (pieces rest) = (splitConditional t rest).map fun parts =>
      (pieces parts.1, pieces parts.2.1, pieces parts.2.2) := by
  have parted : conditionalParts (pieces rest) = (conditionalParts rest).map fun parts =>
      (pieces parts.1, pieces parts.2.1, pieces parts.2.2) := by
    simp only [conditionalParts, cutAtKeywordPieces, Option.bind_eq_bind]
    cases cutAtKeyword .thenWord 0 rest with
    | none => rfl
    | some cut =>
        simp only [Option.map_some, Option.bind_some, cutAtKeywordPieces]
        cases cutAtKeyword .elseWord 0 cut.2 <;> rfl
  rw [splitConditional, splitConditional, parted, ← piecesCons, spanOfPieces]
  cases conditionalParts rest with
  | none => rfl
  | some parts =>
      simp only [Option.map_some, piecesEmpty]
      split <;> rfl

theorem conditionalPieces {parse : List Token → Parsed Expr} {parse' : List Piece → Built Expr}
    (same : ∀ ts, parse' (pieces ts) = lift (parse ts)) (t : Token) (rest : List Token) :
    parseConditional parse' (pieces (t :: rest))
      = lift (LiterateMath.parseConditional parse t rest) := by
  rw [piecesCons, parseConditionalSplit, splitConditionalPieces, LiterateMath.parseConditional,
    ← piecesCons, spanOfPieces]
  cases splitConditional t rest with
  | error e => rfl
  | ok parts =>
      simp only [Except.map, liftOk, bindOk, same, liftBind]
      rfl

theorem splitConditionalWithin {first : Piece} {rest condition ifTrue ifFalse : List Piece}
    (h : splitConditional first rest = .ok (condition, ifTrue, ifFalse)) :
    condition <:+: rest ∧ ifTrue <:+: rest ∧ ifFalse <:+: rest := by
  obtain ⟨more, cut, cut', -⟩ := splitConditionalOk.mp h
  obtain ⟨thenWord, -, rfl⟩ := cutAtKeywordFound cut
  obtain ⟨elseWord, -, rfl⟩ := cutAtKeywordFound cut'
  exact ⟨⟨[], _, rfl⟩, ⟨condition ++ [thenWord], elseWord :: ifFalse, by simp⟩,
    ⟨condition ++ thenWord :: ifTrue ++ [elseWord], [], by simp⟩⟩

theorem conditionalBuilt {parse : List Piece → Parsed Expr} {parse' : List Piece → Built Expr}
    {first : Piece} {rest : List Piece}
    (same : ∀ part, part <:+: rest → parse' part = lift (parse part)) :
    parseConditional parse' (first :: rest)
      = lift (LiterateMath.parseConditional parse first rest) := by
  rw [parseConditionalSplit, LiterateMath.parseConditional]
  cases split : splitConditional first rest with
  | error e => rfl
  | ok parts =>
      obtain ⟨condition, ifTrue, ifFalse⟩ := parts
      obtain ⟨first, second, third⟩ := splitConditionalWithin split
      simp only [liftOk, bindOk, same _ first, same _ second, same _ third, liftBind]
      rfl

end Conditionals

section Calls

variable {parse : List Piece → Parsed Expr} {parse' : List Piece → Built Expr}

theorem splitTopWithin {α : Type} [Lexical α] {w : Word} {depth : Int} {as part : List α}
    (member : part ∈ splitTop w depth as) : part <:+: as := by
  obtain ⟨us, vs, same⟩ := (splitTopParted w depth as).stretch member
  exact ⟨us, vs, by rw [same, List.append_assoc]⟩

theorem argumentsBuilt {inside : List Piece}
    (same : ∀ part, part <:+: inside → parse' part = lift (parse part)) :
    listOf parse' inside = lift (parseArguments parse inside) := by
  unfold listOf parseArguments
  split
  · rfl
  · exact liftMapM fun part member => same part (splitTopWithin member)

theorem makeCallsName (parse' : List Piece → Built Expr) (f : Name) (place : Span) (opener : Piece)
    (rest : List Piece) : makeCalls parse' (.name f place :: opener :: rest)
      = if opener.word? = some (.opening .paren) then do
          match ← partner (.name f place :: opener :: rest) 1 with
          | none => fail .argumentsNeverClosed (some opener.span)
          | some close => do
              let args ← listOf parse' (between (.name f place :: opener :: rest) 2 close)
              let whole ← orBreak .outOfRange
                (spanOf ((Piece.name f place :: opener :: rest).take (close + 1)))
              return .call f args whole :: (← makeCalls parse' ((opener :: rest).drop close))
        else do return .name f place :: (← makeCalls parse' (opener :: rest)) := by
  rw [makeCalls, if_pos (by simp), itemSecond, bindOk]
  split
  · split <;> rename_i found <;> simp only [found] <;> rfl
  · rfl

theorem makeCallsOther (parse' : List Piece → Built Expr) {p : Piece} {rest : List Piece}
    (shape : ∀ f place opener more, p = .name f place → rest = opener :: more → False) :
    makeCalls parse' (p :: rest) = do return p :: (← makeCalls parse' rest) := by
  cases p with
  | name f place =>
      cases rest with
      | nil =>
          rw [makeCalls.eq_def]
          dsimp only
          rw [if_neg (by simp)]
      | cons opener more => cases shape f place opener more rfl rfl
  | token t =>
      rw [makeCalls]
      simp
  | call f args place =>
      rw [makeCalls]
      simp

theorem callParts (f : Name) (place : Span) (opener closer : Piece) (inside after : List Piece) :
    between (.name f place :: opener :: (inside ++ closer :: after)) 2 (2 + inside.length)
      = inside ∧
    spanOf ((Piece.name f place :: opener :: (inside ++ closer :: after)).take
      (2 + inside.length + 1)) = some (place.through closer.span) ∧
    (opener :: (inside ++ closer :: after)).drop (2 + inside.length) = after := by
  refine ⟨betweenAt [.name f place, opener] inside (closer :: after) rfl rfl rfl, ?_, ?_⟩
  · have run : .name f place :: opener :: (inside ++ closer :: after)
        = (.name f place :: opener :: inside ++ [closer]) ++ after := by simp
    rw [run, List.take_left' (by simp; omega)]
    simp [spanOf]
    rfl
  · have run : opener :: (inside ++ closer :: after) = (opener :: inside ++ [closer]) ++ after := by
      simp
    rw [run, List.drop_left' (by simp; omega)]

theorem makeCallsBuilt {ps : List Piece}
    (same : ∀ part, part <:+: ps → parse' part = lift (parse part)) :
    makeCalls parse' ps = lift (LiterateMath.makeCalls parse ps) := by
  fun_induction LiterateMath.makeCalls parse ps with
  | case1 =>
      rw [makeCalls]
      rfl
  | case2 f place opener rest opens unclosed =>
      have found := partnerFound [.name f place] opens rest
      rw [unclosed] at found
      rw [makeCallsName, if_pos opens]
      exact congrArg (· >>= _) found
  | case3 f place opener rest opens inside closer after cut ih =>
      have found := partnerFound [.name f place] opens rest
      rw [cut] at found
      rw [makeCallsName, if_pos opens]
      refine (congrArg (· >>= _) found).trans ?_
      obtain ⟨rfl, -, -⟩ := splitClosingFound cut
      obtain ⟨arguments, whole, later⟩ := callParts f place opener closer inside after
      have within : inside <:+: .name f place :: opener :: (inside ++ closer :: after) :=
        ⟨[.name f place, opener], closer :: after, by simp⟩
      have behind : after <:+: .name f place :: opener :: (inside ++ closer :: after) :=
        ⟨.name f place :: opener :: inside ++ [closer], [], by simp⟩
      dsimp only [partnerOf]
      cases checkClosing .paren opener.span closer with
      | error e => rfl
      | ok =>
          rw [liftOk, bindOk, pureOk, bindOk, bindOk]
          have size : [Piece.name f place].length + 1 + inside.length = 2 + inside.length := rfl
          dsimp only
          rw [size, arguments, whole, later,
            argumentsBuilt fun part inner => same part (inner.trans within),
            ih fun part inner => same part (inner.trans behind), liftBind]
          simp only [liftBind]
          rfl
  | case4 f place opener rest closed ih =>
      rw [makeCallsName, if_neg closed,
        ih fun part within => same part (within.trans (List.suffix_cons _ _).isInfix), liftBind]
      rfl
  | case5 p rest shape ih =>
      rw [makeCallsOther parse' shape,
        ih fun part within => same part (within.trans (List.suffix_cons _ _).isInfix), liftBind]
      rfl

end Calls

section Values

theorem startsConditionalWord (p : Piece) :
    startsConditional p = true ↔ p.word? = some (.keyword .ifWord) := by
  simp [startsConditional, word?]

theorem parseValueCons (l : Limits) (limit : Nat) (p : Piece) (rest : List Piece) :
    parseValue l (limit + 1) (p :: rest)
      = if startsConditional p then parseConditional (parseValue l limit) (p :: rest)
        else do
          let stream ← lowerCommands l.commands (p :: rest)
          let stream ← joinReals stream
          let stream ← gatherNames l.names stream
          let stream ← makeCalls (parseValue l limit) stream
          let e ← fold (← toPostfix stream) (spanOf stream)
          return e.settleAt (spanOf stream) := by
  rw [parseValue, if_neg (by simp), itemFirst, bindOk]
  simp only [startsConditionalWord]

theorem argumentBuilt {l : Limits} {level : Nat} (levels : l.commands = level + 1) {limit : Nat}
    {ps : List Piece} (settled : Settled ps) :
    parseValue l limit ps = lift (parseArgument limit ps) := by
  induction limit generalizing ps with
  | zero => rfl
  | succ limit ih =>
      have part {qs : List Piece} (within : qs <:+: ps) := ih (settled.within within)
      match ps with
      | [] => rfl
      | p :: rest =>
          rw [parseValueCons, parseArgument]
          split
          · exact conditionalBuilt fun qs within =>
              part (within.trans (List.suffix_cons p rest).isInfix)
          · rw [levels, lowerSettled settled.each, bindOk, joinRealsJoined settled.joined, bindOk,
              gatherSettled settled.each, bindOk, makeCallsBuilt fun qs within => part within]
            cases LiterateMath.makeCalls (parseArgument limit) (p :: rest) with
            | error e => rfl
            | ok qs => exact assembleBuilt qs

theorem valueBuilt (l : Limits) (limit : Nat) (ts : List Token) :
    parseValue l limit (pieces ts) = lift (parseValueWithin l limit ts) := by
  induction limit generalizing ts with
  | zero => rfl
  | succ limit ih =>
      cases ts with
      | nil => rfl
      | cons t rest =>
          have starts : startsConditional (Piece.token t) = startsConditional t := rfl
          rw [piecesCons, parseValueCons, parseValueWithin, starts, ← piecesCons]
          split
          · exact conditionalPieces ih t rest
          · rw [lowerCommandsBuilt]
            cases lowered : LiterateMath.lowerCommands l.commands (t :: rest) with
            | error e =>
                rw [toPiecesWithin, lowered]
                rfl
            | ok spelled =>
                obtain ⟨level, levels⟩ : ∃ level, l.commands = level + 1 :=
                  Nat.exists_eq_succ_of_ne_zero fun none => by rw [none] at lowered; cases lowered
                have passed : toPiecesWithin l (t :: rest)
                    = gatherNamesWithin l.names (LiterateMath.joinReals spelled) := by
                  rw [toPiecesWithin, lowered, bindOk]
                simp only [Except.map, liftOk, bindOk, joinRealsBuilt, gatherNamesBuilt, ← passed]
                cases gathered : toPiecesWithin l (t :: rest) with
                | error e => rfl
                | ok ps =>
                    have settled := toPiecesSettled gathered
                    rw [liftOk, bindOk, bindOk, makeCallsBuilt fun qs within =>
                      argumentBuilt levels (settled.within within)]
                    cases LiterateMath.makeCalls (parseArgument limit) ps with
                    | error e => rfl
                    | ok qs => exact assembleBuilt qs

end Values

end LiterateMath.Building
