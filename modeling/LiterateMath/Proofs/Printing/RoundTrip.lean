import LiterateMath.Proofs.Printing.Lexing
import LiterateMath.Proofs.Printing.Reading

/-! The text of a statement is a document that says the same. What is written tells what it was
written from: statements that have one text are one statement, and so are names. -/
namespace LiterateMath

section Places

variable {r : Relocation}

namespace Expr

mutual

theorem bareMoved : ∀ e : Expr, (e.moved r).bare = e.bare
  | literal .. | lookup .. => rfl
  | call function args _ => by simp only [moved, bare, baresMoved args]
  | unary _ arg _ => by simp only [moved, bare, bareMoved arg]
  | binary _ lhs rhs _ => by simp only [moved, bare, bareMoved lhs, bareMoved rhs]
  | conditional condition ifTrue ifFalse _ => by
      simp only [moved, bare, bareMoved condition, bareMoved ifTrue, bareMoved ifFalse]

theorem baresMoved : ∀ es : List Expr, bares (movedArguments r es) = bares es
  | [] => rfl
  | e :: rest => by simp only [movedArguments, bares, bareMoved e, baresMoved rest]

end

mutual

theorem plainBare : ∀ e : Expr, e.bare.isPlain = e.isPlain
  | literal value _ => by cases value <;> rfl
  | lookup .. | conditional .. => rfl
  | call _ args _ => allPlainBares args
  | unary _ arg _ => plainBare arg
  | binary _ lhs rhs _ => by simp only [bare, isPlain, plainBare lhs, plainBare rhs]

theorem allPlainBares : ∀ es : List Expr, allPlain (bares es) = allPlain es
  | [] => rfl
  | e :: rest => by simp only [bares, allPlain, plainBare e, allPlainBares rest]

end

mutual

theorem levelsBare : ∀ e : Expr, e.bare.textLevels = e.textLevels
  | literal .. | lookup .. => rfl
  | call _ args _ => by simp only [bare, textLevels, mostLevelsBares args]
  | unary _ arg _ => by simp only [bare, textLevels, levelsBare arg]
  | binary _ lhs rhs _ => by simp only [bare, textLevels, levelsBare lhs, levelsBare rhs]
  | conditional condition ifTrue ifFalse _ => by
      simp only [bare, textLevels, levelsBare condition, levelsBare ifTrue, levelsBare ifFalse]

theorem mostLevelsBares : ∀ es : List Expr, mostLevels (bares es) = mostLevels es
  | [] => rfl
  | e :: rest => by simp only [bares, mostLevels, levelsBare e, mostLevelsBares rest]

end

end Expr

theorem statementBareMoved {s : Statement} (h : s.legible) : (s.moved r).bare = s.bare := by
  cases s with
  | expression e => simp only [Statement.moved, Statement.bare, Expr.bareMoved]
  | functionDeclaration d => rfl
  | valueDeclaration name value place => simp only [Statement.moved, Statement.bare, Expr.bareMoved]
  | setDeclaration name members place =>
      simp only [Statement.moved, Statement.bare, ← movedArgumentsMap, Expr.baresMoved]
  | functionDefinition d =>
      -- Captures keep their places when the rest loses them; here there are none.
      obtain ⟨name, params, body, captures, place⟩ := d
      obtain ⟨-, -, -, -, rfl⟩ := h
      simp only [Statement.moved, FunctionDefinition.moved, movedCaptures, Statement.bare,
        Expr.bareMoved]

theorem statementPlainBare (s : Statement) : s.bare.isPlain = s.isPlain := by
  cases s with
  | functionDeclaration d => rfl
  | setDeclaration name members place => exact Expr.allPlainBares members
  | _ => exact Expr.plainBare _

theorem statementLevelsBare (s : Statement) : s.bare.textLevels = s.textLevels := by
  cases s <;> simp only [Statement.bare, Statement.textLevels, Expr.levelsBare, Expr.mostLevelsBares]

end Places

section Documents

def Statement.Built (s : Statement) : Prop :=
  ∃ text code slice, codeTokens text = .ok code ∧ slice ∈ intoSlices code ∧
    parseStatement slice = .ok s

def Statement.ReadFrom (s : Statement) (text : String) : Prop :=
  ∀ r : Region, ∃ code slice s', codeTokens (r.around text) = .ok code ∧ intoSlices code = [slice] ∧
    parseStatement slice = .ok s' ∧ s'.bare = s.bare

theorem builtLegible {s : Statement} (h : s.Built) : s.legible := by
  obtain ⟨text, code, slice, reads, member, parsed⟩ := h
  exact statementLegible parsed (sliceProper (codeTokensLexed reads) member)

theorem readFromSpelled {text : String} {written : List Token} {s s' : Statement}
    (h : Spells text.toList written) (solid : Solid written) (filled : written ≠ [])
    (parsed : parseStatement written = .ok s') (same : s'.bare = s.bare) : s.ReadFrom text := by
  intro r
  obtain ⟨code, slice, reads, slices, rfl⟩ := sliceSpelled h solid filled r
  rw [parseStatementMoved] at parsed
  cases read : parseStatement slice with
  | error failure =>
      rw [read] at parsed
      cases parsed
  | ok found =>
      rw [read] at parsed
      cases parsed
      have legible : found.legible := builtLegible ⟨_, code, slice, reads, by simp [slices], read⟩
      exact ⟨code, slice, found, reads, slices, read, (statementBareMoved legible).symm.trans same⟩

theorem statementSolid (s : Statement) : Solid s.tokens := by
  cases s with
  | expression e => exact layoutSolid bareWord nameSolid e
  | functionDeclaration d =>
      have codomain := Solid.single (bareWord (.numberSet d.codomain)) rfl
      have signature := codomain.cons (bareWord .arrow) rfl
      exact (nameSolid d.name).append ((signature.cons (bareWord (.numberSet d.domain)) rfl).cons
        (bareWord .colon) rfl)
  | valueDeclaration name value place =>
      exact (nameSolid name).append ((layoutSolid bareWord nameSolid value).cons (bareWord .equals) rfl)
  | setDeclaration name members place =>
      have inside := listedBalanced bareWord (layoutsBalanced bareWord nameSolid members)
      have braces := solidEnclosed bareWord inside .escapedBrace
      exact (nameSolid name).append (braces.cons (bareWord .equals) rfl)
  | functionDefinition d =>
      have params := solidEnclosed bareWord (parametersBalanced d.params) .paren
      have signature := (nameSolid d.name).append params
      exact signature.append ((layoutSolid bareWord nameSolid d.body).cons (bareWord .equals) rfl)

theorem statementFilled {s : Statement} (h : s.legible) (plain : s.isPlain = true) :
    s.tokens ≠ [] := by
  have named (n : Name) (ts : List Token) : n.tokens ++ ts ≠ [] := by
    obtain ⟨rest, same⟩ := nameFront n
    simp [same]
  cases s with
  | expression e =>
      obtain ⟨t, rest, same, -⟩ := layoutFront bareWord tokensFront h plain
      simp [Statement.tokens, same]
  | functionDefinition d =>
      rw [Statement.tokens, List.append_assoc]
      exact named _ _
  | _ => exact named _ _

theorem readFromText {s : Statement} (h : s.legible) (plain : s.isPlain = true)
    (shallow : s.textLevels ≤ textDepth) : s.ReadFrom s.text := by
  obtain ⟨s', parsed, same⟩ := parseStatementTokens h plain shallow
  exact readFromSpelled (statementSpells h plain) (statementSolid s) (statementFilled h plain)
    parsed same

theorem legibleBuilt {s : Statement} (h : s.legible) (plain : s.isPlain = true)
    (shallow : s.textLevels ≤ textDepth) : ∃ s' : Statement, s'.Built ∧ s'.bare = s.bare := by
  obtain ⟨code, slice, s', reads, slices, parsed, same⟩ := readFromText h plain shallow .inline
  exact ⟨s', ⟨_, code, slice, reads, by simp [slices], parsed⟩, same⟩

end Documents

section Texts

theorem spellsOne {cs : List Char} {xs ys : List Token} (h : Spells cs xs) (h' : Spells cs ys) :
    xs = ys := by
  obtain ⟨ts, next, reads, -, rfl⟩ := h 0 [] stopsNothing
  obtain ⟨us, next', reads', -, rfl⟩ := h' 0 [] stopsNothing
  obtain rfl : ts = us := by simpa [namedFromNothing] using reads.symm.trans reads'
  rfl

theorem textWritten {s : Statement} {text : String} (h : s.text? = some text) :
    s.textLevels ≤ textDepth ∧ s.text = text := by
  unfold Statement.text? at h
  split at h
  · rename_i shallow
    exact ⟨shallow, Option.some.inj h⟩
  · cases h

theorem statementFromText {s s' : Statement} {text : String} (h : s.Built) (h' : s'.Built)
    (plain : s.isPlain = true) (plain' : s'.isPlain = true) (written : s.text? = some text)
    (written' : s'.text? = some text) : s.bare = s'.bare := by
  obtain ⟨shallow, rfl⟩ := textWritten written
  obtain ⟨shallow', same⟩ := textWritten written'
  have spells := statementSpells (builtLegible h') plain'
  rw [same] at spells
  have tokens := spellsOne (statementSpells (builtLegible h) plain) spells
  obtain ⟨t, parsed, bare⟩ := parseStatementTokens (builtLegible h) plain shallow
  obtain ⟨t', parsed', bare'⟩ := parseStatementTokens (builtLegible h') plain' shallow'
  rw [tokens, parsed'] at parsed
  cases parsed
  exact bare.symm.trans bare'

end Texts

section Names

def Name.parts : Name → List Name
  | .subscripted base sub => .subscripted base sub :: (base.parts ++ sub.parts)
  | n => [n]

mutual

def Expr.names : Expr → List Name
  | .literal .. => []
  | .lookup n _ => n.parts
  | .call function args _ => function.parts ++ namesAll args
  | .unary _ arg _ => arg.names
  | .binary _ lhs rhs _ => lhs.names ++ rhs.names
  | .conditional condition ifTrue ifFalse _ => condition.names ++ ifTrue.names ++ ifFalse.names

def Expr.namesAll : List Expr → List Name
  | [] => []
  | e :: rest => e.names ++ namesAll rest

end

def Statement.names : Statement → List Name
  | .expression e => e.names
  | .functionDeclaration d => d.name.parts
  | .valueDeclaration name value _ => name.parts ++ value.names
  | .setDeclaration name members _ => name.parts ++ Expr.namesAll members
  | .functionDefinition d => d.name.parts ++ d.params.flatMap Name.parts ++ d.body.names

def Name.Built (n : Name) : Prop := ∃ s : Statement, s.Built ∧ n ∈ s.names

theorem legibleBelow {asSubscript : Bool} {n : Name} (h : n.legible asSubscript) :
    n.legible true := by
  induction n generalizing asSubscript with
  | text letters => exact h.imp_right fun digits => ⟨rfl, digits.2⟩
  | greek letter => trivial
  | subscripted base sub ih _ => exact ⟨h.1, ih h.2.1, h.2.2⟩

theorem partsLegible {asSubscript : Bool} {n : Name} (h : n.legible asSubscript) :
    ∀ part ∈ n.parts, part.legible true := by
  induction n generalizing asSubscript with
  | subscripted base sub ih ih' =>
      intro part member
      rcases List.mem_cons.mp member with rfl | inside
      · exact legibleBelow h
      · exact (List.mem_append.mp inside).elim (ih h.2.1 part) (ih' h.2.2 part)
  | _ =>
      intro part member
      obtain rfl := List.mem_singleton.mp member
      exact legibleBelow h

mutual

theorem exprNamesLegible : ∀ e : Expr, e.legible → ∀ n ∈ e.names, n.legible true
  | .literal .., _, _, member => nomatch member
  | .lookup _ _, h, n, member => partsLegible h n member
  | .call _ args _, h, n, member =>
      (List.mem_append.mp member).elim (partsLegible h.1 n) (namesAllLegible args h.2 n)
  | .unary _ arg _, h, n, member => exprNamesLegible arg h n member
  | .binary _ lhs rhs _, h, n, member =>
      (List.mem_append.mp member).elim (exprNamesLegible lhs h.1 n) (exprNamesLegible rhs h.2 n)
  | .conditional condition ifTrue ifFalse _, h, n, member =>
      (List.mem_append.mp member).elim
        (fun first => (List.mem_append.mp first).elim (exprNamesLegible condition h.1 n)
          (exprNamesLegible ifTrue h.2.1 n))
        (exprNamesLegible ifFalse h.2.2 n)

theorem namesAllLegible : ∀ es : List Expr, legibleAll es → ∀ n ∈ Expr.namesAll es, n.legible true
  | [], _, _, member => nomatch member
  | e :: rest, h, n, member =>
      (List.mem_append.mp member).elim (exprNamesLegible e h.1 n) (namesAllLegible rest h.2 n)

end

theorem statementNamesLegible {s : Statement} (h : s.legible) : ∀ n ∈ s.names, n.legible true := by
  intro n member
  cases s with
  | expression e => exact exprNamesLegible e h n member
  | functionDeclaration d => exact partsLegible h n member
  | valueDeclaration name value place =>
      exact (List.mem_append.mp member).elim (partsLegible h.1 n) (exprNamesLegible value h.2 n)
  | setDeclaration name members place =>
      exact (List.mem_append.mp member).elim (partsLegible h.1 n) (namesAllLegible members h.2 n)
  | functionDefinition d =>
      obtain ⟨named, each, -, body, -⟩ := h
      simp only [Statement.names, List.mem_append, List.mem_flatMap] at member
      obtain (own | ⟨param, among, inside⟩) | within := member
      · exact partsLegible named n own
      · exact partsLegible (each param among) n inside
      · exact exprNamesLegible d.body body n within

theorem nameFromText {n n' : Name} (h : n.Built) (h' : n'.Built)
    (same : n.toString = n'.toString) : n = n' := by
  obtain ⟨s, built, member⟩ := h
  obtain ⟨s', built', member'⟩ := h'
  have legible := statementNamesLegible (builtLegible built) n member
  have legible' := statementNamesLegible (builtLegible built') n' member'
  have spells := nameSpells legible'
  rw [← same] at spells
  have tokens := spellsOne (nameSpells legible) spells
  have shallow : n.depth < max n.depth n'.depth + 1 := by omega
  have shallow' : n'.depth < max n.depth n'.depth + 1 := by omega
  have parsed := parseNameTokens legible shallow
  rw [tokens, parseNameTokens legible' shallow'] at parsed
  exact (Except.ok.inj parsed).symm

end Names

section Signs

def signs {α : Type} (word : Word → α) (n : Nat) : List α :=
  List.replicate n (word (.sign .minus)) ++ [word (.number "1")]

def negated : Nat → Expr
  | 0 => .literal (.integer 1) none
  | n + 1 => .unary .negation (negated n) none

theorem negatedBare (n : Nat) : (negated n).bare = negated n := by
  induction n with
  | zero => rfl
  | succ n ih => rw [negated, Expr.bare, ih]

theorem negatedPlain (n : Nat) : (negated n).isPlain = true := by
  induction n with
  | zero => rfl
  | succ n ih => exact ih

theorem negatedLevels (n : Nat) : (negated n).textLevels = n + 1 := by
  induction n with
  | zero => rfl
  | succ n ih => rw [negated, Expr.textLevels, ih]

theorem signsSpell (n : Nat) : Spells (List.replicate n '-' ++ ['1']) (signs Word.bare n) := by
  induction n with
  | zero =>
      have digits : Digits "1" := by simp [Digits]
      exact (numberReads digits).spells rfl
  | succ n ih => exact Spells.mark (c := '-') (w := .sign .minus) rfl rfl ih

theorem signsSolid (n : Nat) : Solid (signs Word.bare n) := by
  induction n with
  | zero => exact .single (bareWord _) rfl
  | succ n ih => exact ih.cons (bareWord _) rfl

theorem signsPrinted (n : Nat) : Printed (signs Word.bare n) := by
  induction n with
  | zero => exact Printed.nil.cons rfl
  | succ n ih => exact ih.cons rfl

theorem signsGather (n : Nat) : Gathers (signs Word.bare n) (signs Word.piece n) := by
  induction n with
  | zero => exact Gathers.nil.cons rfl
  | succ n ih => exact ih.cons rfl

theorem signsCalled (parse : List Piece → Parsed Expr) (n : Nat) :
    Called parse (signs Word.piece n) (signs Word.piece n) := by
  induction n with
  | zero => exact .other rfl .nil
  | succ n ih => exact .other (callsNextToken _ _) ih

theorem signsSentence (n : Nat) :
    ∃ e, Sentence 4 (signs Word.piece n) e ∧ e.bare = negated n := by
  induction n with
  | zero => exact ⟨_, .tighter (by omega) (.operand rfl), rfl⟩
  | succ n ih =>
      obtain ⟨e, sentence, same⟩ := ih
      refine ⟨.unary .negation e none, .unary rfl sentence, ?_⟩
      rw [Expr.bare, same, negated]

theorem signsReadable (n : Nat) : (signs Word.piece n).any Piece.tooLong = false := by
  induction n with
  | zero => rfl
  | succ n ih => exact ih

theorem signsParsed (n : Nat) :
    ∃ s, parseStatement (signs Word.bare n) = .ok s ∧
      s.bare = (Statement.expression (negated n)).bare := by
  obtain ⟨e, sentence, same⟩ := signsSentence n
  have made := toPiecesPrinted (signsPrinted n) (signsGather n)
  have kind : shape (signs Word.bare n) = .expression := by
    rw [shape, cutAtNone (signsPrinted n).undecided]
  have starts : ∃ t rest, signs Word.bare n = t :: rest ∧ startsConditional t = false := by
    cases n with
    | zero => exact ⟨_, _, rfl, rfl⟩
    | succ n => exact ⟨_, _, rfl, rfl⟩
  obtain ⟨t, rest, form, starts⟩ := starts
  have value : parseValue valueDepth (signs Word.bare n)
      = .ok (e.settleAt (spanOf (signs Word.piece n))) := by
    have values : valueDepth = 327 + 1 := rfl
    rw [form] at made ⊢
    rw [values, parseValueAssembled starts made, makeCallsCalled.mpr (signsCalled _ n), bindOk]
    exact sentenceAssembled (sentence.loosen (by omega) (by omega)) (signsReadable n)
  have bare : (Statement.expression (e.settleAt (spanOf (signs Word.piece n)))).bare
      = (Statement.expression (negated n)).bare := by
    rw [Statement.bare, Statement.bare, Expr.bareSettled, same, negatedBare]
  refine parsedBare ?_ bare
  rw [parseStatement, kind]
  simp only
  rw [value]
  rfl

theorem signsReadFrom (n : Nat) :
    (Statement.expression (negated n)).ReadFrom (String.ofList (List.replicate n '-' ++ ['1'])) := by
  obtain ⟨s, parsed, same⟩ := signsParsed n
  have spells := signsSpell n
  rw [← @String.toList_ofList (List.replicate n '-' ++ ['1'])] at spells
  exact readFromSpelled spells (signsSolid n) (by simp [signs]) parsed same

theorem signsTooDeep {n : Nat} (deep : textDepth ≤ n) {s : Statement}
    (same : s.bare = (Statement.expression (negated n)).bare) :
    s.isPlain = true ∧ s.text? = none := by
  have plain : s.isPlain = (negated n).isPlain := by
    rw [← statementPlainBare, same, statementPlainBare, Statement.isPlain]
  have levels : s.textLevels = (negated n).textLevels := by
    rw [← statementLevelsBare, same, statementLevelsBare, Statement.textLevels]
  rw [negatedLevels] at levels
  refine ⟨plain.trans (negatedPlain n), ?_⟩
  rw [Statement.text?, if_neg (by omega)]

end Signs

section RoundTrip

def Statement.RoundTrips (s : Statement) : Prop := ∃ text, s.text? = some text ∧ s.ReadFrom text

/-- Without conditionals and reals, a statement whose text can be written is read from its text in
a region of either kind, as the only slice; its text tells which statement it is, and the text of
a name tells which name. -/
theorem writtenReadsBack :
    (∀ s : Statement, s.Built → s.isPlain = true → s.text?.isSome = true → s.RoundTrips) ∧
      (∀ s s' : Statement, s.Built → s'.Built → s.isPlain = true → s'.isPlain = true →
        s.text?.isSome = true → s.text? = s'.text? → s.bare = s'.bare) ∧
      ∀ n n' : Name, n.Built → n'.Built → n.toString = n'.toString → n = n' := by
  refine ⟨fun s built plain some => ?_, fun s s' built built' plain plain' some same => ?_,
    fun n n' => nameFromText⟩
  · obtain ⟨text, written⟩ := Option.isSome_iff_exists.mp some
    obtain ⟨shallow, rfl⟩ := textWritten written
    exact ⟨_, written, readFromText (builtLegible built) plain shallow⟩
  · obtain ⟨text, written⟩ := Option.isSome_iff_exists.mp some
    exact statementFromText built built' plain plain' written (same.symm.trans written)

theorem definitionReadsBack :
    let f : Name := .subscripted (.text "f") (.greek .alpha)
    let x : Expr := .lookup (.text "x") none
    let y : Expr := .lookup (.text "y") none
    let body : Expr := .binary (.operator .multiplication) (.unary .negation x none)
      (.call (.text "g") [.literal (.integer 2) none, y] none) none
    let d : FunctionDeclaration := ⟨f, .integers, .naturals, some ⟨3, 23⟩⟩
    let d' : FunctionDeclaration := { d with place := some ⟨3, 21⟩ }
    let s := Statement.functionDeclaration d
    let s' := Statement.functionDeclaration d'
    (∃ defined : Statement,
        defined.bare = .functionDefinition ⟨f, [.text "x", .text "y"], body, [], none⟩ ∧
          defined.Built ∧ defined.isPlain = true ∧ defined.text?.isSome = true ∧
            defined.RoundTrips) ∧
      s.Built ∧ s'.Built ∧ s.isPlain = true ∧ s'.isPlain = true ∧ s.text?.isSome = true ∧
      s.text? = s'.text? ∧ s.bare = s'.bare ∧
      d.name.Built ∧ d'.name.Built ∧ d.name.toString = d'.name.toString ∧ d.name = d'.name := by
  intro f x y body d d' s s'
  have letter (c : Char) (ordinary : isOrdinary c = true)
      (plain : Keyword.ofText? (String.ofList [c]) = none) (below : Bool) :
      (Name.text (String.ofList [c])).legible below := by
    refine .inl ⟨⟨?_, ?_⟩, plain⟩ <;> simp [ordinary]
  have short : (Text.numeral 2).length ≤ longestLiteral :=
    (Text.numeralLength (by decide : 2 < 10 ^ (0 + 1))).trans (by decide)
  have legible : (Statement.functionDefinition ⟨f, [.text "x", .text "y"], body, [], none⟩).legible := by
    have notAgain : hasRepeat [Name.text "x", .text "y"] = false := rfl
    have params : ∀ n ∈ [Name.text "x", .text "y"], n.legible false := by
      simp only [List.mem_cons, List.not_mem_nil, or_false, forall_eq_or_imp, forall_eq]
      exact ⟨letter 'x' rfl rfl _, letter 'y' rfl rfl _⟩
    exact ⟨⟨rfl, letter 'f' rfl rfl _, trivial⟩, params, notAgain, ⟨letter 'x' rfl rfl _,
      letter 'g' rfl rfl _, ⟨2, rfl, short⟩, letter 'y' rfl rfl _, trivial⟩, rfl⟩
  have reads : codeTokens "\\$(f_\\alpha : \\Z \\to \\N\\$)" = .ok [.plain (.text "f") ⟨3, 4⟩,
      .plain .underscore ⟨4, 5⟩, .plain (.greek .alpha) ⟨5, 11⟩, .plain .space ⟨11, 12⟩,
      .plain .colon ⟨12, 13⟩, .plain .space ⟨13, 14⟩, .plain (.numberSet .integers) ⟨14, 16⟩,
      .plain .space ⟨16, 17⟩, .plain .arrow ⟨17, 20⟩, .plain .space ⟨20, 21⟩,
      .plain (.numberSet .naturals) ⟨21, 23⟩, .plain .regionEnd ⟨23, 26⟩] := by cbv
  have reads' : codeTokens "\\$[f_\x7b\\alpha\x7d:\\Z\\to\\N\\$]" = .ok [.plain (.text "f") ⟨3, 4⟩,
      .plain .underscore ⟨4, 5⟩, .plain (.opening .brace) ⟨5, 6⟩, .plain (.greek .alpha) ⟨6, 12⟩,
      .plain (.closing .brace) ⟨12, 13⟩, .plain .colon ⟨13, 14⟩,
      .plain (.numberSet .integers) ⟨14, 16⟩, .plain .arrow ⟨16, 19⟩,
      .plain (.numberSet .naturals) ⟨19, 21⟩, .plain .regionEnd ⟨21, 24⟩] := by cbv
  have built : s.Built := ⟨_, _, _, reads, List.mem_singleton_self _, by cbv⟩
  have built' : s'.Built := ⟨_, _, _, reads', List.mem_singleton_self _, by cbv⟩
  have named : d.name.Built := ⟨s, built, List.mem_cons_self⟩
  have named' : d'.name.Built := ⟨s', built', List.mem_cons_self⟩
  obtain ⟨back, statements, names⟩ := writtenReadsBack
  obtain ⟨defined, found, same⟩ := legibleBuilt legible rfl (by decide)
  have plain : defined.isPlain = true := by
    rw [← statementPlainBare, same]
    rfl
  have levels : defined.textLevels ≤ textDepth := by
    rw [← statementLevelsBare, same]
    decide
  have text : defined.text?.isSome = true := by simp [Statement.text?, levels]
  exact ⟨⟨defined, same, found, plain, text, back defined found plain text⟩, built, built', rfl, rfl,
    rfl, rfl, statements s s' built built' rfl rfl rfl rfl, named, named', rfl,
    names _ _ named named' rfl⟩

theorem signsUnwritten :
    ∃ code slice s,
      codeTokens (Region.display.around (String.ofList (List.replicate 3000 '-' ++ ['1']))) = .ok code ∧
        intoSlices code = [slice] ∧ parseStatement slice = .ok s ∧ s.isPlain = true ∧
          s.text? = none ∧ ¬ s.RoundTrips := by
  obtain ⟨code, slice, s, reads, slices, parsed, same⟩ := signsReadFrom 3000 .display
  obtain ⟨plain, unwritten⟩ := signsTooDeep (by decide) same
  refine ⟨code, slice, s, reads, slices, parsed, plain, unwritten, ?_⟩
  rintro ⟨text, written, -⟩
  cases unwritten.symm.trans written

end RoundTrip
end LiterateMath
