import LiterateMath.Proofs.Limits

/-! Statements built step by step over one list of pieces: by positions in it, tables of words and
stacks. A step takes for granted that a separator is there, a position within the list, a word in
a table, and it breaks where that is not so. Every value runs through all the passes again. -/
namespace LiterateMath.Building

open Lexical

/-- What is taken for granted and does not hold. -/
inductive Breakage where
  | separatorMissing
  | wordMissing
  | outOfRange
  | keyMissing
  | stackEmpty
  | positionUnset
  | parenthesisMissing
  | notAnOperand
  | notAWord
  deriving DecidableEq, Repr

inductive Stop where
  | failure (f : ParseFailure)
  | breakage (b : Breakage)
  deriving Repr

abbrev Built (α : Type) := Except Stop α

def fail {α : Type} (fault : ParseFault) (place : Option Span) : Built α :=
  .error (.failure (.malformed fault place))

def tooDeep {α : Type} : Built α := .error (.failure .tooDeep)

section Lists

variable {α κ ν : Type}

def orBreak (b : Breakage) : Option α → Built α
  | some a => .ok a
  | none => .error (.breakage b)

def item (as : List α) (i : Nat) : Built α := orBreak .outOfRange as[i]?

def look [DecidableEq κ] (table : List (κ × ν)) (key : κ) : Built ν :=
  orBreak .keyMissing (table.lookup key)

def pop : List α → Built (α × List α)
  | a :: rest => .ok (a, rest)
  | [] => .error (.breakage .stackEmpty)

def between (as : List α) (start stop : Nat) : List α := (as.take stop).drop start

end Lists

section Brackets

def openers : List (Word × Word) :=
  [(.opening .paren, .closing .paren), (.opening .brace, .closing .brace),
   (.opening .square, .closing .square), (.opening .escapedBrace, .closing .escapedBrace)]

def isOpener (p : Piece) : Bool := (p.word?.bind fun w => openers.lookup w).isSome

def isCloser (p : Piece) : Bool := openers.any fun pair => p.word? = some pair.2

def wordOf (p : Piece) : Built Word := orBreak .notAWord p.word?

def closerOf (p : Piece) : Built Word := do look openers (← wordOf p)

def partnerFrom (stream : List Piece) (start : Nat) :
    (index : Nat) → (depth : Int) → List Piece → Built (Option Nat)
  | _, _, [] => .ok none
  | index, depth, p :: rest =>
      if isOpener p then partnerFrom stream start (index + 1) (depth + 1) rest
      else if isCloser p then
        if depth - 1 = 0 then do
          let opener ← item stream start
          if p.word? = some (← closerOf opener) then return some index
          else fail .bracketsDoNotMatch (some (opener.span.through p.span))
        else partnerFrom stream start (index + 1) (depth - 1) rest
      else partnerFrom stream start (index + 1) depth rest

def partner (stream : List Piece) (start : Nat) : Built (Option Nat) :=
  partnerFrom stream start start 0 (stream.drop start)

theorem partnerFromAfter {stream : List Piece} {start index close : Nat} {depth : Int}
    {rest : List Piece} (h : partnerFrom stream start index depth rest = .ok (some close)) :
    index ≤ close := by
  fun_induction partnerFrom stream start index depth rest with
  | case1 => cases h
  | case2 _ _ _ _ _ ih => exact Nat.le_of_succ_le (ih h)
  | case3 =>
      obtain ⟨opener, -, h⟩ := bindIsOk.mp h
      obtain ⟨wanted, -, h⟩ := bindIsOk.mp h
      split at h
      · cases h
        exact Nat.le_refl _
      · cases h
  | case4 _ _ _ _ _ _ _ ih => exact Nat.le_of_succ_le (ih h)
  | case5 _ _ _ _ _ _ ih => exact Nat.le_of_succ_le (ih h)

end Brackets

section Names

def stripBraces (stream : List Piece) : Built (List Piece) :=
  if stream.isEmpty then .ok stream
  else do
    let first ← item stream 0
    if first.word? = some (.opening .brace) then
      if (← partner stream 0) = some (stream.length - 1) then
        stripBraces (between stream 1 (stream.length - 1))
      else return stream
    else return stream
termination_by stream.length
decreasing_by
  simp only [between, List.length_drop, List.length_take]
  have : stream.length ≠ 0 := by simpa using ‹¬ stream.isEmpty = true›
  omega

def parseAtom (asSubscript : Bool) (stream : List Piece) : Built Name :=
  if stream.length = 1 then do
    let p ← item stream 0
    match p.word?, asSubscript with
    | some (.text letters), _ => return .text letters
    | some (.greek letter), _ => return .greek letter
    | some (.number digits), true => return .text digits
    | _, _ => fail .notAName (spanOf stream)
  else if stream.isEmpty then fail .nameMissing none
  else fail .notAName (spanOf stream)

def parseName : (limit : Nat) → (asSubscript : Bool) → List Piece → Built Name
  | 0, _, _ => tooDeep
  | limit + 1, asSubscript, stream => do
      let stream ← stripBraces stream
      match splitOnce .underscore stream with
      | some (first, second) =>
          return .subscripted (← parseName limit asSubscript first) (← parseName limit true second)
      | none => parseAtom asSubscript stream

def nameEnd (stream : List Piece) (stop : Nat) : Built Nat :=
  if stop < stream.length then do
    let next ← item stream stop
    if next.word? = some .underscore then
      if stream.length ≤ stop + 1 then fail .subscriptMissing (some next.span)
      else do
        let first ← item stream (stop + 1)
        if first.word? = some (.opening .brace) then
          match _h : partner stream (stop + 1) with
          | .error e => .error e
          | .ok none => fail .subscriptNeverClosed (some first.span)
          | .ok (some close) => nameEnd stream (close + 1)
        else nameEnd stream (stop + 2)
    else return stop
  else .ok stop
termination_by stream.length - stop
decreasing_by
  · have := partnerFromAfter _h
    omega
  · omega

theorem nameEndAfter {stream : List Piece} {stop last : Nat} (h : nameEnd stream stop = .ok last) :
    stop ≤ last := by
  fun_induction nameEnd stream stop with
  | case1 stop within ih ih' =>
      obtain ⟨next, -, h⟩ := bindIsOk.mp h
      split at h
      · split at h
        · cases h
        · obtain ⟨first, -, h⟩ := bindIsOk.mp h
          split at h
          · split at h
            · cases h
            · cases h
            · rename_i found
              have := partnerFromAfter found
              have := ih ‹_› _ found h
              omega
          · exact Nat.le_of_add_right_le (ih' ‹_› h)
      · cases h
        exact Nat.le_refl _
  | case2 =>
      cases h
      exact Nat.le_refl _

end Names

section Passes

def isName (p : Piece) : Bool :=
  match p.word? with
  | some (.text _) | some (.greek _) => true
  | _ => false

def gatherNames (limit : Nat) : List Piece → Built (List Piece)
  | [] => .ok []
  | p :: rest =>
      if isName p then
        match _h : nameEnd (p :: rest) 1 with
        | .error e => .error e
        | .ok stop => do
            let name ← parseName limit false ((p :: rest).take stop)
            let place ← orBreak .outOfRange (spanOf ((p :: rest).take stop))
            return .name name place :: (← gatherNames limit ((p :: rest).drop stop))
      else do return p :: (← gatherNames limit rest)
termination_by ps => ps.length
decreasing_by
  · have := nameEndAfter _h
    simp only [List.length_drop, List.length_cons]
    omega
  · simp

def joinReals : List Piece → Built (List Piece)
  | [] => .ok []
  | p :: rest =>
      match p.word? with
      | some (.number whole) =>
          if 2 < (p :: rest).length then do
            let middle ← item (p :: rest) 1
            let last ← item (p :: rest) 2
            match middle.word?, last.word? with
            | some .point, some (.number fraction) =>
                return .token (.plain (.real (Real.ofDigits whole.toList fraction.toList))
                  (p.span.through last.span)) :: (← joinReals (rest.drop 2))
            | _, _ => return p :: (← joinReals rest)
          else do return p :: (← joinReals rest)
      | _ => do return p :: (← joinReals rest)
termination_by ps => ps.length
decreasing_by all_goals
  simp only [List.length_drop, List.length_cons]
  omega

def group (lower : List Token → Built (List Token)) (near : Span) (inside : List Token) :
    Built (List Token) := do return parenthesized near (← lower (groupCode inside))

def lowerToken (lower : List Token → Built (List Token)) : Token → Built (List Token)
  | .plain w place => .ok (if isSizing (.plain w place) then [] else [.plain w place])
  | .command name required optional place =>
      if name = "frac" then
        if required.length ≠ 2 ∨ optional ≠ [] then fail .fractionGroups (some place)
        else do
          let numerator ← item required 0
          let denominator ← item required 1
          let above ← group lower place numerator
          let below ← group lower place denominator
          return above ++ .plain (.sign .slash) place :: below
      else if name = "sqrt" then
        if required.length ≠ 1 ∨ 1 < optional.length then fail .rootGroups (some place)
        else do
          let index ←
            if optional.isEmpty then pure [.plain (.number "2") place] else item optional 0
          let exponent ← group lower place index
          let radicand ← group lower place (← item required 0)
          let power ← group lower place
            (.plain (.real 1.0) place :: .plain (.sign .slash) place :: exponent)
          return radicand ++ .plain (.sign .caret) place :: power
      else fail (.meaninglessCommand name) (some place)

def lowerTokens : (limit : Nat) → List Token → Built (List Token)
  | 0, _ => tooDeep
  | limit + 1, ts => do return (← ts.mapM (lowerToken (lowerTokens limit))).flatten

def lowerPiece (lower : List Token → Built (List Token)) : Piece → Built (List Piece)
  | .token t => do return (← lowerToken lower t).map .token
  | p => .ok [p]

def lowerCommands : (limit : Nat) → List Piece → Built (List Piece)
  | 0, _ => tooDeep
  | limit + 1, ps => do return (← ps.mapM (lowerPiece (lowerTokens limit))).flatten

def listOf {α : Type} (read : List Piece → Built α) (inside : List Piece) : Built (List α) :=
  if inside.isEmpty then .ok [] else (splitTop .comma 0 inside).mapM read

def makeCalls (parse : List Piece → Built Expr) : List Piece → Built (List Piece)
  | [] => .ok []
  | .name function place :: rest =>
      if 1 < (Piece.name function place :: rest).length then do
        let opener ← item (.name function place :: rest) 1
        if opener.word? = some (.opening .paren) then
          match _h : partner (.name function place :: rest) 1 with
          | .error e => .error e
          | .ok none => fail .argumentsNeverClosed (some opener.span)
          | .ok (some close) => do
              let args ← listOf parse (between (.name function place :: rest) 2 close)
              let whole ← orBreak .outOfRange
                (spanOf ((Piece.name function place :: rest).take (close + 1)))
              return .call function args whole :: (← makeCalls parse (rest.drop close))
        else return .name function place :: (← makeCalls parse rest)
      else do return .name function place :: (← makeCalls parse rest)
  | p :: rest => do return p :: (← makeCalls parse rest)
termination_by ps => ps.length
decreasing_by all_goals
  simp only [List.length_drop, List.length_cons]
  omega

end Passes

section Operators

structure Operator where
  op : Operation
  precedence : Nat
  right : Bool
  place : Span

inductive Item where
  | piece (p : Piece)
  | operator (o : Operator)

def arithmetic : List (Sign × BinaryOperator) :=
  [(.plus, .addition), (.minus, .subtraction), (.star, .multiplication), (.slash, .division),
   (.caret, .exponent)]

def bands : List (Operation × Nat) :=
  Relation.all.map (fun r => (.binary (.relation r), 0))
    ++ [BinaryOperator.union, .intersection, .disjunction, .plusMinus, .setDifference].map
      (fun o => (.binary (.operator o), 1))
    ++ [BinaryOperator.addition, .subtraction].map (fun o => (.binary (.operator o), 2))
    ++ [BinaryOperator.multiplication, .division, .conjunction, .exclusiveOr, .externalProduct,
        .internalProduct].map (fun o => (.binary (.operator o), 3))
    ++ [UnaryOperator.negation, .complement].map (fun u => (.unary u, 4))
    ++ [(.binary (.operator .exponent), 4)]

def operationOf (expecting : Bool) (p : Piece) : Built (Option Operation) :=
  match p.word? with
  | some (.sign s) =>
      if s = .minus ∧ expecting then .ok (some (.unary .negation))
      else do return some (.binary (.operator (← look arithmetic s)))
  | some (.operator o) => .ok (some (.binary (.operator o)))
  | some (.relation r) => .ok (some (.binary (.relation r)))
  | some (.unary u) => .ok (some (.unary u))
  | _ => .ok none

def operatorOf (expecting : Bool) (p : Piece) : Built (Option Operator) := do
  match ← operationOf expecting p with
  | none => return none
  | some op =>
      return some ⟨op, ← look bands op, op = .binary (.operator .exponent), p.span⟩

def isOperand : Piece → Bool
  | .token (.plain (.number _) _) | .token (.plain (.real _) _) | .name .. | .call .. => true
  | _ => false

def unexpected {α : Type} (p : Piece) : Built α :=
  match p with
  | .token (.plain (.bigOperator o) place) => fail (.unsupportedBigOperator o) (some place)
  | .token (.plain (.setRelation r) place) => fail (.unsupportedSetRelation r) (some place)
  | .token (.plain (.stub name) place) => fail (.unknownCommand name) (some place)
  | .token (.plain w place) => fail (.stray w) (some place)
  | .token (.command name _ _ place) => fail (.meaninglessCommand name) (some place)
  | _ => .error (.breakage .notAWord)

structure Stacks where
  output : List Item
  stack : List Item
  expecting : Bool

def unwind (test : Operator → Bool) (output : List Item) : List Item → List Item × List Item
  | .operator o :: stack =>
      if test o then unwind test (.operator o :: output) stack else (output, .operator o :: stack)
  | stack => (output, stack)

def itemPiece : Item → Built Piece
  | .piece p => .ok p
  | .operator _ => .error (.breakage .notAWord)

def closeTop (p : Piece) (output stack : List Item) : Built Stacks :=
  if stack.isEmpty then fail .nothingOpens (some p.span)
  else do
    let (top, stack) ← pop stack
    let opener ← itemPiece top
    if p.word? = some (← closerOf opener) then return ⟨output, stack, false⟩
    else fail .bracketsDoNotMatch (some (opener.span.through p.span))

def close (s : Stacks) (p : Piece) : Built Stacks :=
  let released := unwind (fun _ => true) s.output s.stack
  closeTop p released.1 released.2

def goesBefore (new old : Operator) : Bool :=
  new.precedence < old.precedence || (old.precedence = new.precedence && !new.right)

def operate (s : Stacks) (new : Operator) : Stacks :=
  match new.op with
  | .binary _ =>
      let released := unwind (goesBefore new) s.output s.stack
      ⟨released.1, .operator new :: released.2, true⟩
  | .unary _ => ⟨s.output, .operator new :: s.stack, true⟩

def step (s : Stacks) (p : Piece) : Built Stacks :=
  if isOperand p then .ok ⟨.piece p :: s.output, s.stack, false⟩
  else if isOpener p then .ok ⟨s.output, .piece p :: s.stack, true⟩
  else if isCloser p then close s p
  else do
    match ← operatorOf s.expecting p with
    | none => unexpected p
    | some o => return operate s o

def finish (output : List Item) : List Item → Built (List Item)
  | [] => .ok output.reverse
  | .operator o :: stack => finish (.operator o :: output) stack
  | .piece p :: _ => fail .neverClosed (some p.span)

def toPostfix (ps : List Piece) : Built (List Item) := do
  let last ← ps.foldlM step ⟨[], [], true⟩
  finish last.output last.stack

def operandOf : Piece → Built Expr
  | .token (.plain (.number digits) place) =>
      if longestLiteral < digits.length then .error (.failure .literalTooLong)
      else .ok (.literal (.integer (Text.numeralValue digits.toList)) (some place))
  | .token (.plain (.real value) place) => .ok (.literal (.real value) (some place))
  | .name n place => .ok (.lookup n (some place))
  | .call function args place => .ok (.call function args (some place))
  | _ => .error (.breakage .notAnOperand)

def applyItem (values : List Expr) : Item → Built (List Expr)
  | .piece p => do return (← operandOf p) :: values
  | .operator o =>
      match o.op with
      | .binary c =>
          if values.length < 2 then fail (.operandMissing o.op) (some o.place)
          else do
            let (rhs, values) ← pop values
            let (lhs, values) ← pop values
            return .binary c lhs rhs none :: values
      | .unary u =>
          if values.isEmpty then fail (.operandMissing o.op) (some o.place)
          else do
            let (arg, values) ← pop values
            return .unary u arg none :: values

def fold (items : List Item) (place : Option Span) : Built Expr := do
  let values ← items.foldlM applyItem []
  if values.length ≠ 1 then fail .sideBySide place else item values 0

end Operators

section Values

def partsFrom (stream : List Piece) : (index : Nat) → (thenAt : Option Nat) → (pending : Nat) →
    List Piece → Built (List Piece × List Piece × List Piece)
  | _, _, _, [] => fail .conditionalForm (spanOf stream)
  | index, thenAt, pending, p :: rest =>
      match p.word? with
      | some (.keyword .ifWord) => partsFrom stream (index + 1) thenAt (pending + 1) rest
      | some (.keyword .thenWord) =>
          if 0 < pending then partsFrom stream (index + 1) thenAt pending rest
          else if thenAt.isSome then fail .conditionalForm (spanOf stream)
          else partsFrom stream (index + 1) (some index) pending rest
      | some (.keyword .elseWord) =>
          if 0 < pending then partsFrom stream (index + 1) thenAt (pending - 1) rest
          else if thenAt.isNone then fail .conditionalForm (spanOf stream)
          else do
            let thenAt ← orBreak .positionUnset thenAt
            return (between stream 1 thenAt, between stream (thenAt + 1) index,
              stream.drop (index + 1))
      | _ => partsFrom stream (index + 1) thenAt pending rest

def parseConditional (parse : List Piece → Built Expr) (stream : List Piece) : Built Expr := do
  let (condition, ifTrue, ifFalse) ← partsFrom stream 1 none 0 (stream.drop 1)
  if condition.isEmpty || ifTrue.isEmpty || ifFalse.isEmpty then
    fail .conditionalPartEmpty (spanOf stream)
  else do
    let condition ← parse condition
    let ifTrue ← parse ifTrue
    let ifFalse ← parse ifFalse
    return .conditional condition ifTrue ifFalse (spanOf stream)

def parseValue (l : Limits) : (limit : Nat) → List Piece → Built Expr
  | 0, _ => tooDeep
  | limit + 1, stream =>
      if stream.isEmpty then fail .valueMissing none
      else do
        let first ← item stream 0
        if first.word? = some (.keyword .ifWord) then parseConditional (parseValue l limit) stream
        else do
          let stream ← lowerCommands l.commands stream
          let stream ← joinReals stream
          let stream ← gatherNames l.names stream
          let stream ← makeCalls (parseValue l limit) stream
          let e ← fold (← toPostfix stream) (spanOf stream)
          return e.settleAt (spanOf stream)

end Values

section Statements

def lettered (letters : List Token) : Built (Option NumberSet) :=
  if letters.length = 1 then do
    match (← item letters 0).word? with
    | some (.text letter) =>
        return NumberSet.all.find? fun s => String.singleton s.letter = letter
    | _ => return none
  else return none

def numberSet (role : String) (near : Option Span) (stream : List Piece) : Built NumberSet :=
  let refused : Built NumberSet := fail (.numberSetExpected role) ((spanOf stream).or near)
  if stream.length = 1 then do
    match ← item stream 0 with
    | .token (.plain (.numberSet s) _) => return s
    | .token (.command name required _ _) =>
        if name = "mathbb" ∧ required.length = 1 then
          match ← lettered (normalize (← item required 0)) with
          | some s => return s
          | none => refused
        else refused
    | _ => refused
  else refused

def functionDeclaration (l : Limits) (stream : List Piece) : Built Statement := do
  let (name, signature) ← orBreak .separatorMissing (splitOnce .colon stream)
  let name ← parseName l.names false name
  match splitOnce .arrow signature with
  | none => fail .declarationForm (spanOf stream)
  | some (domain, codomain) =>
      let domain ← numberSet "domain" (spanOf stream) domain
      let codomain ← numberSet "codomain" (spanOf stream) codomain
      return .functionDeclaration ⟨name, domain, codomain, none⟩

def functionDefinition (l : Limits) (stream : List Piece) : Built Statement := do
  let (signature, body) ← orBreak .separatorMissing (splitOnce .equals stream)
  let index ← orBreak .parenthesisMissing
    (signature.findIdx? fun p => p.word? = some (.opening .paren))
  match ← partner signature index with
  | none => do fail .parametersNeverClosed (some (← item signature index).span)
  | some close =>
      if close ≠ signature.length - 1 then
        fail .afterParameters (spanOf (signature.drop (close + 1)))
      else do
        let name ← parseName l.names false (signature.take index)
        let params ← listOf (parseName l.names false) (between signature (index + 1) close)
        if hasRepeat params then fail .repeatedParameter (spanOf signature)
        else return .functionDefinition ⟨name, params, ← parseValue l l.values body, [], none⟩

def setDeclaration (l : Limits) (name : Name) (value : List Piece) : Built Statement := do
  match ← partner value 0 with
  | none => do fail .setNeverClosed (some (← item value 0).span)
  | some close =>
      if close ≠ value.length - 1 then fail .afterSet (spanOf (value.drop (close + 1)))
      else
        return .setDeclaration name
          (← listOf (parseValue l l.values) (between value 1 close)) none

def valueDeclaration (l : Limits) (stream : List Piece) : Built Statement := do
  let (name, value) ← orBreak .separatorMissing (splitOnce .equals stream)
  let name ← parseName l.names false name
  if value.isEmpty then return .valueDeclaration name (← parseValue l l.values value) none
  else if (← item value 0).word? = some (.opening .escapedBrace) then setDeclaration l name value
  else return .valueDeclaration name (← parseValue l l.values value) none

inductive Kind where
  | expression | functionDeclaration | functionDefinition | valueDeclaration
  deriving DecidableEq, Repr

def mentions (w : Word) (stream : List Piece) : Bool := stream.any fun p => p.word? = some w

def position (w : Word) (stream : List Piece) : Built Nat :=
  orBreak .wordMissing (stream.findIdx? fun p => p.word? = some w)

def colonFirst (stream : List Piece) : Built Bool :=
  if mentions .colon stream then
    if mentions .equals stream then do
      return decide ((← position .colon stream) < (← position .equals stream))
    else .ok true
  else .ok false

def kindOf (stream : List Piece) : Built Kind := do
  if ← colonFirst stream then return .functionDeclaration
  else if mentions .equals stream then do
    if mentions (.opening .paren) (stream.take (← position .equals stream)) then
      return .functionDefinition
    else return .valueDeclaration
  else return .expression

def builders (l : Limits) : List (Kind × (List Piece → Built Statement)) :=
  [(.expression, fun stream => do return .expression (← parseValue l l.values stream)),
   (.functionDeclaration, functionDeclaration l),
   (.functionDefinition, functionDefinition l),
   (.valueDeclaration, valueDeclaration l)]

def build (l : Limits) (slice : List Token) : Built Statement := do
  let stream := slice.map Piece.token
  let builder ← look (builders l) (← kindOf stream)
  return (← builder stream).putAt (spanOf stream)

end Statements

end LiterateMath.Building
