import LiterateMath.Proofs.Fraction
import LiterateMath.Proofs.Infix
import LiterateMath.Proofs.Printing.Gathering

/-! What is laid out is read again as what it was. The parentheses around its operations leave no
choice of how to read them, and a call stands before its arguments as it did. -/
namespace LiterateMath

open Lexical

section Trees

theorem sentencePostfix {ps : List Piece} {e : Expr} (h : Sentence 0 ps e) :
    ∃ items, toPostfix ps = .ok items ∧ Builds items ps e := by
  obtain ⟨items, ops, -, runs, builds⟩ := sentenceReads h
  have run := runs [] [] fun _ => Yard.holdsEmpty
  rw [List.append_nil, List.append_nil] at run
  exact ⟨items.reverse ++ ops.map puts, bindIsOk.mpr ⟨_, run, Yard.finishOps false⟩, builds⟩

theorem sentenceAssembled {ps : List Piece} {e : Expr} (h : Sentence 0 ps e)
    (readable : ps.any Piece.tooLong = false) : assemble ps = .ok (e.settleAt (spanOf ps)) := by
  obtain ⟨items, put, builds⟩ := sentencePostfix h
  refine assembleOk.mpr ⟨items, e, put, ?_, rfl⟩
  rw [fold, builds, readable]
  rfl

def OneOperand (limit : Nat) (ps : List Piece) (e : Expr) : Prop :=
  ∃ qs e', Called (parseArgument limit) ps qs ∧ Sentence 5 qs e' ∧ e'.bare = e.bare ∧
    qs.any Piece.tooLong = false

theorem connectiveMeans (c : Connective) : c.word.piece.connective? = some c := by
  cases c with
  | operator o => cases o <;> rfl
  | relation r => rfl

theorem unaryMeans (u : UnaryOperator) : u.word.piece.negator? = some u := by
  cases u <;> rfl

theorem readableEnclosed {qs : List Piece} (h : qs.any Piece.tooLong = false) :
    (enclosed Word.piece .paren qs).any Piece.tooLong = false := by
  have brackets : Piece.tooLong (Word.piece (.opening .paren)) = false ∧
      Piece.tooLong (Word.piece (.closing .paren)) = false := ⟨rfl, rfl⟩
  simpa [enclosed, brackets] using h

theorem OneOperand.unary {limit : Nat} {ps : List Piece} {arg : Expr}
    (h : OneOperand limit ps arg) (op : UnaryOperator) (place : Option Span) :
    OneOperand limit (enclosed Word.piece .paren (op.word.piece :: ps)) (.unary op arg place) := by
  obtain ⟨qs, e, called, sentence, same, readable⟩ := h
  have inner : Sentence 4 (op.word.piece :: qs) (.unary op e none) :=
    .unary (unaryMeans op) (sentence.loosen (by omega) (by omega))
  have sign : Called (parseArgument limit) (op.word.piece :: ps) (op.word.piece :: qs) :=
    .other (callsNextToken _ _) called
  have short := notTooLong (negatorNotOperand (unaryMeans op))
  refine ⟨_, _, sign.bracket, .bracketed (inner.loosen (by omega) (by omega)), ?_, ?_⟩
  · simp [Expr.bare, same]
  · exact readableEnclosed (by simp [short, readable])

theorem OneOperand.binary {limit : Nat} {ps ps' : List Piece} {lhs rhs : Expr}
    (h : OneOperand limit ps lhs) (h' : OneOperand limit ps' rhs) (op : Connective)
    (place : Option Span) :
    OneOperand limit (enclosed Word.piece .paren (ps ++ op.word.piece :: ps'))
      (.binary op lhs rhs place) := by
  obtain ⟨qs, e, called, left, same, readable⟩ := h
  obtain ⟨qs', e', called', right, same', readable'⟩ := h'
  have inner : Sentence 0 (qs ++ op.word.piece :: qs') (.binary op e e' none) := by
    obtain rfl | ⟨level, bound, belongs⟩ := connectiveBelongs op
    · have power : Sentence 4 _ _ := .power left (connectiveMeans _)
        (right.loosen (by omega) (by omega))
      exact power.loosen (by omega) (by omega)
    · have row : Sentence level _ _ := .binary (left.loosen (by omega) (by omega))
        (connectiveMeans op) belongs (right.loosen (by omega) (by omega))
      exact row.loosen (by omega) (by omega)
  have parts : Parts ps (op.word.piece :: ps') := by
    intro p _
    cases p with
    | name n at_ =>
        refine decide_eq_false fun same => ?_
        have plain := connectiveUndivided op
        rw [Option.some.inj same] at plain
        cases plain
    | _ => rfl
  have all := called.append parts (.other (callsNextToken _ _) called')
  have short := notTooLong (connectiveNotOperand (connectiveMeans op))
  refine ⟨_, _, all.bracket, .bracketed inner, ?_, ?_⟩
  · simp [Expr.bare, same, same']
  · exact readableEnclosed (by simp [short, readable, readable'])

theorem OneOperand.call {limit : Nat} {function : Name} {inside : List Piece} {args : List Expr}
    (balanced : Balanced inside) {args' : List Expr}
    (read : parseArguments (parseArgument limit) inside = .ok args')
    (same : Expr.bares args' = Expr.bares args) (place : Option Span) :
    OneOperand limit (function.piece :: enclosed Word.piece .paren inside)
      (.call function args place) := by
  refine ⟨_, _, .call rfl balanced rfl read .nil, .operand rfl, ?_, rfl⟩
  simp [Operand.leaf, Expr.bare, same]

theorem OneOperand.read {limit : Nat} {p : Piece} {ps : List Piece} {e : Expr}
    (h : OneOperand limit (p :: ps) e) (starts : startsConditional p = false) :
    ∃ e', parseArgument (limit + 1) (p :: ps) = .ok e' ∧ e'.bare = e.bare := by
  obtain ⟨qs, e', called, sentence, same, readable⟩ := h
  have whole : Sentence 0 qs e' := sentence.loosen (by omega) (by omega)
  refine ⟨e'.settleAt (spanOf qs), ?_, by rw [Expr.bareSettled, same]⟩
  rw [parseArgumentAssembled starts, makeCallsCalled.mpr called, bindOk]
  exact sentenceAssembled whole readable

theorem layoutFront {α : Type} [Lexical α] {word : Word → α} {name : Name → List α}
    (words : ∀ w, word? (word w) = some w)
    (names : ∀ n, ∃ a rest, name n = a :: rest ∧ startsConditional a = false) {e : Expr}
    (h : e.legible) (plain : e.isPlain = true) :
    ∃ a rest, e.layout word name = a :: rest ∧ startsConditional a = false := by
  have mark {w : Word} (other : w ≠ .keyword .ifWord) : startsConditional (word w) = false :=
    decide_eq_false (by simpa [words] using other)
  cases e with
  | literal value place =>
      cases value with
      | integer n => exact ⟨_, _, rfl, mark (by simp)⟩
      | real => cases plain
      | _ => exact h.elim
  | lookup n place => exact names n
  | call function args place =>
      obtain ⟨a, rest, same, starts⟩ := names function
      exact ⟨a, _, by rw [Expr.layout, same]; rfl, starts⟩
  | unary op arg place => exact ⟨_, _, rfl, mark (by simp)⟩
  | binary op lhs rhs place => exact ⟨_, _, rfl, mark (by simp)⟩
  | conditional => cases plain

theorem layoutsFilled {α : Type} [Lexical α] {word : Word → α} {name : Name → List α}
    (words : ∀ w, word? (word w) = some w)
    (names : ∀ n, ∃ a rest, name n = a :: rest ∧ startsConditional a = false) {es : List Expr}
    (h : legibleAll es) (plain : Expr.allPlain es = true) :
    ∀ part ∈ Expr.layouts word name es, part ≠ [] := by
  induction es with
  | nil => simp [Expr.layouts]
  | cons e rest ih =>
      obtain ⟨first, later⟩ := Bool.and_eq_true_iff.mp plain
      intro part member
      rcases List.mem_cons.mp member with rfl | inside
      · obtain ⟨a, others, same, -⟩ := layoutFront words names h.1 first
        simp [same]
      · exact ih h.2 later part inside

theorem listedParts {α β : Type} [Lexical α] {word : Word → α}
    (words : ∀ w, word? (word w) = some w) {parts : List (List α)}
    (solid : ∀ part ∈ parts, Solid part) (filled : ∀ part ∈ parts, part ≠ [])
    (parse : List α → Parsed β) :
    (if (listed word parts).isEmpty then .ok [] else (splitTop .comma 0 (listed word parts)).mapM parse)
      = parts.mapM parse := by
  cases parts with
  | nil => rfl
  | cons part rest =>
      have some : (listed word (part :: rest)).isEmpty = false := by
        have first := filled part List.mem_cons_self
        cases rest with
        | nil => simpa [listedOne] using first
        | cons next rest => simp [listedMore]
      rw [some, splitTopListed words (by simp) solid]
      rfl

theorem pieceFront (n : Name) :
    ∃ p rest, [n.piece] = p :: rest ∧ startsConditional p = false := ⟨n.piece, [], rfl, rfl⟩

theorem naturalOperand (limit m : Nat) (fits : (Text.numeral m).length ≤ longestLiteral)
    (place : Option Span) :
    OneOperand limit [Word.piece (.number (Text.natural m))] (.literal (.integer m) place) := by
  have digits : (Text.natural m).toList = Text.numeral m := by rw [Text.natural, String.toList_ofList]
  refine ⟨_, _, .other rfl .nil, .operand rfl, ?_, ?_⟩
  · rw [Operand.leaf, digits, Text.numeralReads]
    rfl
  · have length : (Text.natural m).length ≤ longestLiteral := by
      rwa [← String.length_toList, digits]
    have short : ¬ longestLiteral < (Text.natural m).length := Nat.not_lt.mpr length
    simp [Piece.tooLong, Piece.operand?, Word.piece, Word.bare, short]

mutual

theorem exprOperand (limit : Nat) : ∀ e : Expr, e.legible → e.isPlain = true →
    e.textLevels ≤ 2 * limit + 1 → OneOperand limit e.pieces e
  | .literal value place, h, plain, _ => by
      cases value with
      | integer n =>
          obtain ⟨m, rfl, fits⟩ := h
          exact naturalOperand limit m fits place
      | real => cases plain
      | _ => exact h.elim
  | .lookup n place, _, _, _ => ⟨_, _, .other rfl .nil, .operand rfl, rfl, rfl⟩
  | .call function args place, h, plain, shallow => by
      simp only [Expr.textLevels] at shallow
      have inside := listedBalanced pieceWord (layoutsBalanced pieceWord pieceSolid args)
      obtain ⟨args', read, same⟩ := argumentsOperand limit args h.2 plain (by omega)
      refine OneOperand.call inside ?_ same place
      rw [parseArguments, listedParts pieceWord (layoutsSolid pieceWord pieceSolid args)
        (layoutsFilled pieceWord pieceFront h.2 plain), read]
  | .unary op arg place, h, plain, shallow => by
      simp only [Expr.textLevels] at shallow
      exact (exprOperand limit arg h plain (by omega)).unary op place
  | .binary op lhs rhs place, h, plain, shallow => by
      simp only [Expr.textLevels] at shallow
      obtain ⟨left, right⟩ := Bool.and_eq_true_iff.mp plain
      exact (exprOperand limit lhs h.1 left (by omega)).binary
        (exprOperand limit rhs h.2 right (by omega)) op place
  | .conditional .., _, plain, _ => nomatch plain

theorem argumentsOperand (limit : Nat) : ∀ es : List Expr, legibleAll es →
    Expr.allPlain es = true → Expr.mostLevels es + 1 ≤ 2 * limit →
    ∃ es', (Expr.pieceLists es).mapM (parseArgument limit) = .ok es' ∧
      Expr.bares es' = Expr.bares es
  | [], _, _, _ => ⟨[], rfl, rfl⟩
  | e :: rest, h, plain, shallow => by
      obtain ⟨first, later⟩ := Bool.and_eq_true_iff.mp plain
      simp only [Expr.mostLevels] at shallow
      obtain ⟨below, rfl⟩ : ∃ below, limit = below + 1 := ⟨limit - 1, by omega⟩
      have operand := exprOperand below e h.1 first (by omega)
      obtain ⟨p, ps, same, starts⟩ := layoutFront pieceWord pieceFront h.1 first
      obtain ⟨es', read, others⟩ := argumentsOperand (below + 1) rest h.2 later (by omega)
      rw [Expr.pieces, same] at operand
      obtain ⟨e', parsed, bare⟩ := operand.read starts
      refine ⟨e' :: es', ?_, by simp [Expr.bares, bare, others]⟩
      rw [Expr.pieceLists, Expr.layouts, same, List.mapM_cons, parsed, bindOk, read]
      rfl

end

end Trees

section Values

theorem frontUnconditional (n : Name) : startsConditional n.front = false := by
  induction n with
  | text letters =>
      rw [Name.front]
      split <;> rfl
  | greek letter => rfl
  | subscripted base sub ih _ => exact ih

theorem tokensFront (n : Name) : ∃ t rest, n.tokens = t :: rest ∧ startsConditional t = false := by
  obtain ⟨rest, same⟩ := nameFront n
  exact ⟨n.front, rest, same, frontUnconditional n⟩

theorem parseValueTokens {e : Expr} (h : e.legible) (plain : e.isPlain = true)
    (shallow : e.textLevels ≤ textDepth) :
    ∃ e', parseValue valueDepth e.tokens = .ok e' ∧ e'.bare = e.bare := by
  have written : textDepth = 490 := rfl
  have subscripts : subscriptDepth = 984 := rfl
  have values : valueDepth = 327 + 1 := rfl
  obtain ⟨t, rest, same, starts⟩ := layoutFront bareWord tokensFront h plain
  obtain ⟨qs, e', called, sentence, bare, readable⟩ := exprOperand 327 e h plain (by omega)
  have made : toPieces (t :: rest) = .ok e.pieces := by
    rw [← same]
    exact toPiecesPrinted (exprPrinted e) (exprGathers e h (by omega))
  have whole : Sentence 0 qs e' := sentence.loosen (by omega) (by omega)
  refine ⟨e'.settleAt (spanOf qs), ?_, by rw [Expr.bareSettled, bare]⟩
  rw [values, Expr.tokens, same, parseValueAssembled starts made, makeCallsCalled.mpr called, bindOk]
  exact sentenceAssembled whole readable

theorem valuesTokens {es : List Expr} (h : legibleAll es) (plain : Expr.allPlain es = true)
    (shallow : Expr.mostLevels es ≤ textDepth) :
    ∃ es', (Expr.tokenLists es).mapM (parseValue valueDepth) = .ok es' ∧
      Expr.bares es' = Expr.bares es := by
  induction es with
  | nil => exact ⟨[], rfl, rfl⟩
  | cons e rest ih =>
      obtain ⟨first, later⟩ := Bool.and_eq_true_iff.mp plain
      simp only [Expr.mostLevels] at shallow
      obtain ⟨e', read, bare⟩ := parseValueTokens h.1 first (by omega)
      obtain ⟨es', others, bares⟩ := ih h.2 later (by omega)
      refine ⟨e' :: es', ?_, by simp [Expr.bares, bare, bares]⟩
      rw [Expr.tokenLists, Expr.layouts, List.mapM_cons, read, bindOk, others]
      rfl

theorem namesTokens {params : List Name} (h : ∀ n ∈ params, n.legible false)
    (shallow : (params.map Name.depth).foldr max 0 < subscriptDepth) :
    (params.map Name.tokens).mapM (parseName subscriptDepth false) = .ok params := by
  induction params with
  | nil => rfl
  | cons n rest ih =>
      simp only [List.map_cons, List.foldr_cons] at shallow
      rw [List.map_cons, List.mapM_cons, parseNameTokens (h n List.mem_cons_self) (by omega), bindOk,
        ih (fun n' member => h n' (List.mem_cons_of_mem n member)) (by omega)]
      rfl

end Values

section Statements

def Statement.bare : Statement → Statement
  | .expression e => .expression e.bare
  | .functionDeclaration d => .functionDeclaration { d with place := none }
  | .valueDeclaration name value _ => .valueDeclaration name value.bare none
  | .setDeclaration name members _ => .setDeclaration name (Expr.bares members) none
  | .functionDefinition d => .functionDefinition { d with body := d.body.bare, place := none }

theorem barePut (place : Option Span) (s : Statement) : (s.putAt place).bare = s.bare := by
  cases s with
  | expression e => cases e <;> rfl
  | _ => rfl

def Undecided (ts : List Token) : Prop := ∀ t ∈ ts, isDecidingSign t = false

theorem Printed.undecided {ts : List Token} (h : Printed ts) : Undecided ts := by
  intro t member
  have colon := h.without (w := .colon) rfl t member
  have equals := h.without (w := .equals) rfl t member
  simp [isDecidingSign, colon, equals]

theorem nameUnopened (n : Name) : ∀ t ∈ n.tokens, t.word? ≠ some (.opening .paren) := by
  induction n with
  | text letters =>
      intro t member
      obtain rfl := List.mem_singleton.mp member
      simp only [Word.bare, Token.word?]
      split <;> simp
  | greek letter => simp [Name.tokens, Word.bare, Token.word?]
  | subscripted base sub ih ih' =>
      intro t member
      simp only [Name.tokens, enclosed, List.mem_append, List.mem_cons, List.not_mem_nil,
        or_false] at member
      obtain before | rfl | (rfl | inside) | rfl := member
      · exact ih t before
      · simp [Word.bare, Token.word?]
      · simp [Word.bare, Token.word?]
      · exact ih' t inside
      · simp [Word.bare, Token.word?]

theorem shapeEquals {before after : List Token} (h : Undecided before) :
    shape (before ++ Word.bare .equals :: after)
      = if mentions (.opening .paren) before then .functionDefinition before after
        else .valueDeclaration before after := by
  have cut : cutAt isDecidingSign (before ++ Word.bare .equals :: after)
      = some (before, Word.bare .equals, after) := cutAtFirst h rfl
  have sign : ¬ (Word.bare .equals).word? = some .colon := by simp [Word.bare, Token.word?]
  simp only [shape, cut, if_neg sign]

theorem shapeName {n : Name} {after : List Token} :
    shape (n.tokens ++ Word.bare .equals :: after) = .valueDeclaration n.tokens after := by
  have unopened : mentions (.opening .paren) n.tokens = false := by
    refine List.any_eq_false.mpr fun t member => ?_
    simpa using nameUnopened n t member
  rw [shapeEquals (namePrinted n).undecided, unopened]
  rfl

theorem parsedBare {slice : List Token} {s s' : Statement}
    (read : parseStatement slice = .ok (s.putAt (spanOf slice))) (same : s.bare = s'.bare) :
    ∃ t, parseStatement slice = .ok t ∧ t.bare = s'.bare :=
  ⟨_, read, (barePut _ s).trans same⟩

theorem parseDeclarationTokens {d : FunctionDeclaration} (h : d.name.legible false)
    (shallow : d.name.depth < subscriptDepth) :
    ∃ s, parseStatement (Statement.functionDeclaration d).tokens = .ok s ∧
      s.bare = (Statement.functionDeclaration d).bare := by
  have cut : cutAt isDecidingSign (Statement.functionDeclaration d).tokens
      = some (d.name.tokens, Word.bare .colon, [Word.bare (.numberSet d.domain), Word.bare .arrow,
          Word.bare (.numberSet d.codomain)]) :=
    cutAtFirst (namePrinted d.name).undecided rfl
  have kind : shape (Statement.functionDeclaration d).tokens = .functionDeclaration d.name.tokens
      [Word.bare (.numberSet d.domain), Word.bare .arrow, Word.bare (.numberSet d.codomain)] := by
    simp only [shape, cut]
    rfl
  refine parsedBare (s := .functionDeclaration { d with place := none }) ?_ rfl
  rw [parseStatement, kind]
  simp only
  rw [parseFunctionDeclaration, parseNameTokens h shallow]
  rfl

theorem splitEnclosed {inside : List Token} (h : Balanced inside) (b : Bracket) :
    splitClosing 0 (inside ++ [Word.bare (.closing b)])
      = some (inside, Word.bare (.closing b), []) := splitClosingAt h (bareWord (.closing b)) []

theorem parametersPrinted (params : List Name) :
    Printed (listed Word.bare (params.map Name.tokens)) :=
  Printed.listed fun ts member => by
    obtain ⟨n, -, rfl⟩ := List.mem_map.mp member
    exact namePrinted n

theorem parseParametersTokens {params : List Name} (h : ∀ n ∈ params, n.legible false)
    (shallow : (params.map Name.depth).foldr max 0 < subscriptDepth) :
    parseParameters (listed Word.bare (params.map Name.tokens)) = .ok params := by
  have solid : ∀ ts ∈ params.map Name.tokens, Solid ts := fun ts member => by
    obtain ⟨n, -, rfl⟩ := List.mem_map.mp member
    exact nameSolid n
  have filled : ∀ ts ∈ params.map Name.tokens, ts ≠ [] := fun ts member => by
    obtain ⟨n, -, rfl⟩ := List.mem_map.mp member
    obtain ⟨rest, same⟩ := nameFront n
    simp [same]
  rw [parseParameters, listedParts bareWord solid filled, namesTokens h shallow]

theorem parseDefinitionTokens {name : Name} {params : List Name} {body : Expr}
    (named : name.legible false) (each : ∀ n ∈ params, n.legible false)
    (once : hasRepeat params = false) (legible : body.legible) (plain : body.isPlain = true)
    (shallow : max name.depth (max ((params.map Name.depth).foldr max 0) body.textLevels) ≤ textDepth)
    (place : Option Span) :
    ∃ s, parseStatement (Statement.functionDefinition ⟨name, params, body, [], place⟩).tokens = .ok s ∧
      s.bare = (Statement.functionDefinition ⟨name, params, body, [], place⟩).bare := by
  have written : textDepth = 490 := rfl
  have subscripts : subscriptDepth = 984 := rfl
  have named : parseName subscriptDepth false name.tokens = .ok name :=
    parseNameTokens named (by omega)
  obtain ⟨e', read, bare⟩ := parseValueTokens legible plain (by omega)
  have cut : cutAt (Token.opens .paren)
      (name.tokens ++ enclosed Word.bare .paren (listed Word.bare (params.map Name.tokens)))
      = some (name.tokens, Word.bare (.opening .paren),
          listed Word.bare (params.map Name.tokens) ++ [Word.bare (.closing .paren)]) :=
    cutAtFirst (fun t member => Bool.eq_false_iff.mpr fun opens =>
      nameUnopened name t member (tokenOpens opens)) rfl
  have closing := splitEnclosed (parametersBalanced params) .paren
  have closes : checkClosing .paren (Word.bare (.opening .paren)).span (Word.bare (.closing .paren))
      = .ok () := checkClosingOk.mpr rfl
  have parameters := parseParametersTokens each (by omega)
  have definition : parseFunctionDefinition
      (name.tokens ++ enclosed Word.bare .paren (listed Word.bare (params.map Name.tokens)))
      body.tokens = .ok ⟨name, params, e', [], none⟩ := by
    simp only [parseFunctionDefinition, cut, closing, closes, named, parameters, once, read, bindOk,
      List.isEmpty_nil, Bool.not_true, Bool.false_eq_true, if_false]
    rfl
  have opened : mentions (.opening .paren)
      (name.tokens ++ enclosed Word.bare .paren (listed Word.bare (params.map Name.tokens))) = true := by
    simp [mentions, enclosed, Word.bare, Token.word?]
  refine parsedBare (s := .functionDefinition ⟨name, params, e', [], none⟩) ?_
    (by simp [Statement.bare, bare])
  rw [parseStatement, Statement.tokens,
    shapeEquals ((namePrinted name).append ((parametersPrinted params).enclosed rfl rfl)).undecided,
    if_pos opened]
  simp only
  rw [definition]
  rfl

theorem parseValueDeclarationTokens {name : Name} {value : Expr} (named : name.legible false)
    (legible : value.legible) (plain : value.isPlain = true)
    (shallow : max name.depth value.textLevels ≤ textDepth) (place : Option Span) :
    ∃ s, parseStatement (Statement.valueDeclaration name value place).tokens = .ok s ∧
      s.bare = (Statement.valueDeclaration name value place).bare := by
  have written : textDepth = 490 := rfl
  have subscripts : subscriptDepth = 984 := rfl
  obtain ⟨e', read, bare⟩ := parseValueTokens legible plain (by omega)
  refine parsedBare (s := .valueDeclaration name e' none) ?_ (by simp [Statement.bare, bare])
  rw [parseStatement, Statement.tokens, shapeName]
  simp only
  rw [parseValueDeclaration, parseNameTokens named (by omega), bindOk]
  split
  · rename_i opener rest same
    exact absurd rfl ((exprPrinted value).without (w := .opening .escapedBrace) rfl _
      (by rw [same]; exact List.mem_cons_self))
  · rw [read]
    rfl

theorem parseSetDeclarationTokens {name : Name} {members : List Expr} (named : name.legible false)
    (legible : legibleAll members) (plain : Expr.allPlain members = true)
    (shallow : max name.depth (Expr.mostLevels members) ≤ textDepth) (place : Option Span) :
    ∃ s, parseStatement (Statement.setDeclaration name members place).tokens = .ok s ∧
      s.bare = (Statement.setDeclaration name members place).bare := by
  have written : textDepth = 490 := rfl
  have subscripts : subscriptDepth = 984 := rfl
  obtain ⟨es', read, bare⟩ := valuesTokens legible plain (by omega)
  have closing := splitEnclosed
    (listedBalanced bareWord (layoutsBalanced bareWord nameSolid members)) .escapedBrace
  have closes : checkClosing .escapedBrace ⟨0, 0⟩ (Word.bare (.closing .escapedBrace)) = .ok () :=
    checkClosingOk.mpr rfl
  have inside : parseMembers (listed Word.bare (Expr.tokenLists members)) = .ok es' := by
    rw [parseMembers, listedParts bareWord (layoutsSolid bareWord nameSolid members)
      (layoutsFilled bareWord tokensFront legible plain), read]
  refine parsedBare (s := .setDeclaration name es' none) ?_ (by simp [Statement.bare, bare])
  rw [parseStatement, Statement.tokens, shapeName]
  simp only
  rw [parseValueDeclaration, parseNameTokens named (by omega), bindOk]
  simp only [enclosed, Word.bare, List.cons_append] at closing closes ⊢
  simp only [closing, closes, inside]
  rfl

theorem parseStatementTokens {s : Statement} (h : s.legible) (plain : s.isPlain = true)
    (shallow : s.textLevels ≤ textDepth) :
    ∃ s', parseStatement s.tokens = .ok s' ∧ s'.bare = s.bare := by
  have written : textDepth = 490 := rfl
  have subscripts : subscriptDepth = 984 := rfl
  cases s with
  | expression e =>
      obtain ⟨e', read, bare⟩ := parseValueTokens h plain shallow
      have kind : shape e.tokens = .expression := by
        rw [shape, cutAtNone (exprPrinted e).undecided]
      refine parsedBare (s := .expression e') ?_ (by simp [Statement.bare, bare])
      rw [parseStatement, Statement.tokens, kind]
      simp only
      rw [read]
      rfl
  | functionDeclaration d =>
      simp only [Statement.textLevels] at shallow
      exact parseDeclarationTokens h (by omega)
  | functionDefinition d =>
      obtain ⟨name, params, body, captures, place⟩ := d
      simp only [Statement.textLevels] at shallow
      obtain ⟨named, each, once, legible, rfl⟩ := h
      have shallow : max name.depth (max ((params.map Name.depth).foldr max 0) body.textLevels)
          ≤ textDepth := by omega
      exact parseDefinitionTokens named each once legible plain shallow place
  | valueDeclaration name value place =>
      simp only [Statement.textLevels] at shallow
      exact parseValueDeclarationTokens h.1 h.2 plain (by omega) place
  | setDeclaration name members place =>
      simp only [Statement.textLevels] at shallow
      exact parseSetDeclarationTokens h.1 h.2 plain (by omega) place

end Statements
end LiterateMath
