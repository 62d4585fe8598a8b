import LiterateMath.Proofs.Composition
import LiterateMath.Proofs.Printing.Layout
import LiterateMath.Proofs.Printing.Legible

/-! From a text back to its words. A name, an operator or an expression is lexed as the tokens
that it is laid out in, whatever stands around it, as long as what follows begins with a mark. -/
namespace LiterateMath

section Marks

def Stops (cs : List Char) : Prop := ∀ c ∈ cs.head?, (mark? c).isSome = true

theorem stopsNothing : Stops [] := by simp [Stops]

theorem stopsMark {c : Char} (mark : (mark? c).isSome = true) (cs : List Char) : Stops (c :: cs) := by
  simpa [Stops] using mark

theorem Stops.append {cs ds : List Char} (h : Stops cs) (h' : Stops ds) : Stops (cs ++ ds) := by
  cases cs with
  | nil => exact h'
  | cons c cs => exact h

theorem digitUnmarked {c : Char} (digit : c.isDigit = true) : mark? c = none := by
  unfold mark?
  split <;> first | rfl | exact absurd digit (by decide)

theorem takeWhileRun {p : Char → Bool} {cs rest : List Char} (all : ∀ c ∈ cs, p c = true)
    (stops : ∀ c ∈ rest.head?, p c = false) : (cs ++ rest).takeWhile p = cs := by
  rw [List.takeWhile_append_of_pos all]
  cases rest with
  | nil => simp
  | cons c rest => simp [stops c rfl]

theorem Stops.digits {rest : List Char} (h : Stops rest) : ∀ c ∈ rest.head?, c.isDigit = false := by
  intro c first
  refine Bool.eq_false_iff.mpr fun digit => ?_
  have mark := h c first
  simp [digitUnmarked digit] at mark

theorem Stops.letters {rest : List Char} (h : Stops rest) :
    ∀ c ∈ rest.head?, isOrdinary c = false := by
  intro c first
  have mark := h c first
  simp [isOrdinary, Option.isNone_eq_false_iff.mpr mark]

end Marks

section Words

def Word.inert : Word → Bool
  | backslash | stub _ | percent | regionOpening _ | regionClosing _ | regionEnd => false
  | _ => true

def namedFrom (place : Nat) (cs : List Char) : List Token :=
  resolveNames (formStubs (lexFrom place cs))

theorem namedFromWord {place next : Nat} {cs rest : List Char} {w : Word} {span : Span}
    (lexed : lexFrom place cs = .plain w span :: lexFrom next rest) (h : w ≠ .backslash)
    (named : ∀ name, w ≠ .stub name) :
    namedFrom place cs = .plain w span :: namedFrom next rest := by
  rw [namedFrom, lexed, formStubs]
  · cases w with
    | stub name => exact absurd rfl (named name)
    | _ => rfl
  · rintro first name last more ⟨⟩
    exact absurd rfl h

theorem namedFromInert {place next : Nat} {cs rest : List Char} {w : Word} {span : Span}
    (lexed : lexFrom place cs = .plain w span :: lexFrom next rest) (h : w.inert = true) :
    namedFrom place cs = .plain w span :: namedFrom next rest := by
  refine namedFromWord lexed ?_ fun name => ?_ <;> rintro rfl <;> cases h

theorem lexFromMunch {c : Char} {taken rest : List Char} {w : Word} (place : Nat)
    (takes : munch c (taken ++ rest) = (w, taken.length)) :
    lexFrom place (c :: (taken ++ rest)) = .plain w ⟨place, place + 1 + taken.length⟩
      :: lexFrom (place + 1 + taken.length) rest := by
  rw [lexFrom]
  simp only [takes, List.drop_left]

def OneWord (cs : List Char) (w : Word) (follows : List Char → Prop) : Prop :=
  ∀ place rest, follows rest →
    ∃ span next, namedFrom place (cs ++ rest) = .plain w span :: namedFrom next rest

theorem markReads {c : Char} {w : Word} (mark : mark? c = some w) (h : w.inert = true) :
    OneWord [c] w fun _ => True := by
  intro place rest _
  have escape : c ≠ '\\' := by
    rintro rfl
    cases mark
    cases h
  refine ⟨_, _, namedFromInert (@lexFromMunch _ [] _ _ place ?_) h⟩
  simp [munch, escape, mark]

theorem numberReads {s : String} (h : Digits s) : OneWord s.toList (.number s) Stops := by
  intro place rest stops
  obtain ⟨c, run, same⟩ := List.exists_cons_of_ne_nil h.1
  have each := h.2
  rw [same] at each ⊢
  have digit := each c List.mem_cons_self
  have whole : (run ++ rest).takeWhile Char.isDigit = run :=
    takeWhileRun (fun d member => each d (List.mem_cons_of_mem c member)) stops.digits
  have escape : c ≠ '\\' := by
    rintro rfl
    exact absurd digit (by decide)
  refine ⟨_, _, namedFromInert (lexFromMunch place ?_) rfl⟩
  simp [munch, escape, digitUnmarked digit, digit, whole, ← same]

theorem lexFromText {s : String} (h : Letters s) (place : Nat) {rest : List Char}
    (stops : Stops rest) : ∃ span next,
      lexFrom place (s.toList ++ rest) = .plain (.text s) span :: lexFrom next rest := by
  obtain ⟨c, run, same⟩ := List.exists_cons_of_ne_nil h.1
  have each := h.2
  rw [same] at each ⊢
  have ordinary := each c List.mem_cons_self
  have whole : (run ++ rest).takeWhile isOrdinary = run :=
    takeWhileRun (fun d member => each d (List.mem_cons_of_mem c member)) stops.letters
  have escape : c ≠ '\\' := by
    rintro rfl
    exact absurd ordinary (by decide)
  obtain ⟨noDigit, unmarked⟩ : c.isDigit = false ∧ mark? c = none := by
    simpa [isOrdinary] using ordinary
  refine ⟨_, _, lexFromMunch place ?_⟩
  simp [munch, escape, unmarked, noDigit, whole, ← same]

theorem textReads {s : String} (h : Letters s) : OneWord s.toList (.text s) Stops := by
  intro place rest stops
  obtain ⟨span, next, lexed⟩ := lexFromText h place stops
  exact ⟨_, _, namedFromInert lexed rfl⟩

def isCommandName (name : String) : Bool :=
  match name.toList with
  | [] => false
  | c :: run => (c :: run).all isOrdinary && c != '$' && c != '#' && (NumberSet.ofLetter? c).isNone

theorem commandReads {name : String} {w : Word} (h : isCommandName name = true)
    (means : meaning? name = some w) : OneWord ('\\' :: name.toList) w Stops := by
  intro place rest stops
  unfold isCommandName at h
  split at h
  · cases h
  · rename_i c run same
    simp only [Bool.and_eq_true, bne_iff_ne, List.all_eq_true] at h
    obtain ⟨⟨⟨ordinary, dollar⟩, hash⟩, noSet⟩ := h
    have letters : Letters name := ⟨by simp [same], by rwa [same]⟩
    have first := ordinary c List.mem_cons_self
    have plain (more : List Char) : afterBackslash (c :: more) = (.backslash, 0) := by
      unfold afterBackslash
      split <;> rename_i head <;> cases head
      all_goals first
        | exact absurd rfl dollar
        | exact absurd rfl hash
        | simp only [Option.isNone_iff_eq_none.mp noSet]
        | exact absurd first (by decide)
    obtain ⟨span, next, lexed⟩ := lexFromText letters (place + 1) stops
    have slash : lexFrom place ('\\' :: (name.toList ++ rest))
        = .plain .backslash ⟨place, place + 1⟩ :: lexFrom (place + 1) (name.toList ++ rest) := by
      refine @lexFromMunch _ [] _ _ place ?_
      rw [same]
      exact plain _
    refine ⟨(Span.mk place (place + 1)).through span, next, ?_⟩
    rw [List.cons_append, namedFrom, slash, lexed, formStubs]
    simp [resolveNames, resolveName, means, namedFrom]

theorem setReads (s : NumberSet) : OneWord ['\\', s.letter] (.numberSet s) fun _ => True := by
  intro place rest _
  refine ⟨_, _, namedFromInert (@lexFromMunch _ [s.letter] _ _ place ?_) rfl⟩
  cases s <;> rfl

theorem escapedReads : OneWord ['\\', '\x7b'] (.opening .escapedBrace) (fun _ => True) ∧
    OneWord ['\\', '\x7d'] (.closing .escapedBrace) fun _ => True :=
  ⟨fun place _ _ => ⟨_, _, namedFromInert (@lexFromMunch _ ['\x7b'] _ _ place rfl) rfl⟩,
    fun place _ _ => ⟨_, _, namedFromInert (@lexFromMunch _ ['\x7d'] _ _ place rfl) rfl⟩⟩

end Words

section Spelling

/-- Characters that are lexed as these tokens, blanks and places apart, before whatever makes
their last word no longer. -/
def Spells (cs : List Char) (written : List Token) : Prop :=
  ∀ place rest, Stops rest → ∃ ts next, namedFrom place (cs ++ rest) = ts ++ namedFrom next rest ∧
    (∀ t ∈ ts, ∃ w, t.word? = some w ∧ w.inert = true) ∧
    (normalize ts).map (Token.moved .forget) = written

theorem spellsNothing : Spells [] [] := fun place rest _ => ⟨[], place, rfl, by simp, rfl⟩

variable {cs ds : List Char} {xs ys : List Token} {w : Word}

theorem Spells.append (h : Spells cs xs) (stops : Stops ds) (h' : Spells ds ys) :
    Spells (cs ++ ds) (xs ++ ys) := by
  intro place rest ends
  obtain ⟨ts, middle, first, inert, rfl⟩ := h place (ds ++ rest) (stops.append ends)
  obtain ⟨us, next, second, inert', rfl⟩ := h' middle rest ends
  refine ⟨ts ++ us, next, by rw [List.append_assoc, first, second, List.append_assoc], ?_, ?_⟩
  · intro t member
    exact (List.mem_append.mp member).elim (inert t) (inert' t)
  · rw [normalizeAppend, List.map_append]

def Word.kept (w : Word) : List Token := normalize [w.bare]

theorem keptAnywhere (w : Word) (span : Span) :
    (normalize [.plain w span]).map (Token.moved .forget) = w.kept := by
  rw [← normalizeMoved (tokenMoves .forget)]
  rfl

theorem OneWord.spells (h : OneWord cs w Stops) (inert : w.inert = true) : Spells cs w.kept := by
  intro place rest ends
  obtain ⟨span, next, reads⟩ := h place rest ends
  exact ⟨[.plain w span], next, reads, by simpa [Token.word?] using inert, keptAnywhere w span⟩

theorem OneWord.before (h : OneWord cs w fun _ => True) (inert : w.inert = true) (h' : Spells ds ys) :
    Spells (cs ++ ds) (w.kept ++ ys) := by
  intro place rest ends
  obtain ⟨span, middle, first⟩ := h place (ds ++ rest) trivial
  obtain ⟨us, next, second, inert', rfl⟩ := h' middle rest ends
  refine ⟨.plain w span :: us, next, by rw [List.append_assoc, first, second]; rfl, ?_, ?_⟩
  · simpa [Token.word?, inert] using inert'
  · rw [← keptAnywhere w span, ← List.map_append, ← normalizeAppend]
    rfl

theorem Spells.mark {c : Char} (mark : mark? c = some w) (inert : w.inert = true)
    (h : Spells cs xs) : Spells (c :: cs) (w.kept ++ xs) := (markReads mark inert).before inert h

theorem Spells.blank (h : Spells cs xs) : Spells (' ' :: cs) xs := h.mark (c := ' ') (w := .space) rfl rfl

theorem Spells.enclosed {b : Bracket} {o c : Char} (opens : mark? o = some (.opening b))
    (closes : mark? c = some (.closing b)) (h : Spells cs xs) :
    Spells (o :: (cs ++ [c])) (LiterateMath.enclosed Word.bare b xs) := by
  have closer : Spells [c] [Word.bare (.closing b)] := Spells.mark closes rfl spellsNothing
  exact Spells.mark opens rfl (h.append (stopsMark (by simp [closes]) []) closer)

theorem spellsListed {css : List (List Char)} {xss : List (List Token)}
    (h : List.Forall₂ Spells css xss) :
    Spells ((", ").toList.intercalate css) (listed Word.bare xss) := by
  induction h with
  | nil => exact spellsNothing
  | @cons cs xs css xss first rest ih =>
      cases rest with
      | nil => simpa [listedOne] using first
      | cons second rest =>
          have comma := Spells.mark (c := ',') (w := .comma) rfl rfl (Spells.blank ih)
          rw [List.intercalate_cons_cons, List.append_assoc, listedMore]
          exact first.append (stopsMark (by rfl) _) comma

end Spelling

section Written

theorem textKept {s : String} (h : Keyword.ofText? s = none) :
    (Word.text s).kept = [Word.bare (.text s)] := by
  simp [Word.kept, normalize, isWhitespace, Word.bare, Token.word?, asKeyword, h]

theorem nameSpells {asSubscript : Bool} {n : Name} (h : n.legible asSubscript) :
    Spells n.toString.toList n.tokens := by
  induction n generalizing asSubscript with
  | text letters =>
      rcases h with ⟨sound, noKeyword⟩ | ⟨-, digits⟩
      · have spells := (textReads sound).spells rfl
        rw [textKept noKeyword] at spells
        simpa [Name.toString, Name.tokens, lettersNoDigits sound] using spells
      · have spells := (numberReads digits).spells rfl
        have all : letters.toList.all Char.isDigit = true := List.all_eq_true.mpr digits.2
        rw [Name.toString, Name.tokens, if_pos all]
        exact spells
  | greek letter =>
      have command : isCommandName letter.spelling = true := by cases letter <;> rfl
      have means : meaning? letter.spelling = some (.greek letter) := by cases letter <;> rfl
      have spells : Spells ('\\' :: letter.spelling.toList) [Word.bare (.greek letter)] :=
        (commandReads command means).spells rfl
      simpa [Name.toString, GreekLetter.text, Name.tokens] using spells
  | subscripted base sub ih ih' =>
      obtain ⟨-, first, second⟩ := h
      have group := Spells.enclosed (o := '\x7b') (c := '\x7d') (b := .brace) rfl rfl (ih' second)
      have under := Spells.mark (c := '_') (w := .underscore) rfl rfl group
      have chars : (Name.subscripted base sub).toString.toList = base.toString.toList
          ++ '_' :: '\x7b' :: (sub.toString.toList ++ ['\x7d']) := by simp [Name.toString]
      rw [chars]
      exact (ih first).append (stopsMark (by rfl) _) under

theorem connectiveSpells (c : Connective) : Spells c.text.toList [c.word.bare] := by
  cases c with
  | relation r =>
      have command : isCommandName r.spelling = true := by cases r <;> rfl
      have means : meaning? r.spelling = some (.relation r) := by cases r <;> rfl
      have spells : Spells ('\\' :: r.spelling.toList) [Word.bare (.relation r)] :=
        (commandReads command means).spells rfl
      simpa [Connective.text, Relation.text, Connective.word] using spells
  | operator o =>
      cases o with
      | addition => exact Spells.mark (c := '+') (w := .sign .plus) rfl rfl spellsNothing
      | subtraction => exact Spells.mark (c := '-') (w := .sign .minus) rfl rfl spellsNothing
      | multiplication => exact Spells.mark (c := '*') (w := .sign .star) rfl rfl spellsNothing
      | division => exact Spells.mark (c := '/') (w := .sign .slash) rfl rfl spellsNothing
      | exponent => exact Spells.mark (c := '^') (w := .sign .caret) rfl rfl spellsNothing
      | plusMinus => exact (@commandReads "pm" _ rfl rfl).spells rfl
      | setDifference => exact (@commandReads "setminus" _ rfl rfl).spells rfl
      | conjunction => exact (@commandReads "wedge" _ rfl rfl).spells rfl
      | disjunction => exact (@commandReads "vee" _ rfl rfl).spells rfl
      | exclusiveOr => exact (@commandReads "oplus" _ rfl rfl).spells rfl
      | externalProduct => exact (@commandReads "extprod" _ rfl rfl).spells rfl
      | internalProduct => exact (@commandReads "intprod" _ rfl rfl).spells rfl
      | union => exact (@commandReads "cup" _ rfl rfl).spells rfl
      | intersection => exact (@commandReads "cap" _ rfl rfl).spells rfl

theorem unarySpells (u : UnaryOperator) : Spells u.text.toList [u.word.bare] := by
  cases u with
  | negation => exact Spells.mark (c := '-') (w := .sign .minus) rfl rfl spellsNothing
  | complement => exact (@commandReads "neg" _ rfl rfl).spells rfl

theorem numeralSpells (m : Nat) :
    Spells (Text.natural m).toList [Word.bare (.number (Text.natural m))] := by
  have digits : Digits (Text.natural m) := by
    rw [Text.natural, Digits, String.toList_ofList]
    exact ⟨Text.numeralNonempty m, Text.numeralDigits m⟩
  exact (numberReads digits).spells rfl

theorem parenthesizedSpells {cs : List Char} {xs : List Token} (h : Spells cs xs) :
    Spells ('(' :: (cs ++ [')'])) (enclosed Word.bare .paren xs) := h.enclosed rfl rfl

mutual

theorem exprSpells : ∀ e : Expr, e.legible → e.isPlain = true → Spells e.text.toList e.tokens
  | .literal value _, h, plain => by
      cases value with
      | integer n =>
          obtain ⟨m, rfl, -⟩ := h
          exact numeralSpells m
      | real => cases plain
      | _ => exact h.elim
  | .lookup _ _, h, _ => nameSpells h
  | .call function args place, h, plain => by
      have inside := spellsListed (textsSpell args h.2 plain)
      have whole := (nameSpells h.1).append (stopsMark (by rfl) _) (parenthesizedSpells inside)
      have chars : (Expr.call function args place).text.toList = function.toString.toList
          ++ '(' :: ((", ").toList.intercalate ((Expr.texts args).map String.toList) ++ [')']) := by
        simp [Expr.text, String.toList_intercalate]
      rw [chars]
      exact whole
  | .unary op arg place, h, plain => by
      have inner := (exprSpells arg h plain).blank
      have whole := parenthesizedSpells ((unarySpells op).append (stopsMark (by rfl) _) inner)
      have chars : (Expr.unary op arg place).text.toList
          = '(' :: ((op.text.toList ++ ' ' :: arg.text.toList) ++ [')']) := by
        simp [Expr.text]
      rw [chars]
      exact whole
  | .binary op lhs rhs place, h, plain => by
      obtain ⟨left, right⟩ := Bool.and_eq_true_iff.mp plain
      have right := (exprSpells rhs h.2 right).blank
      have sign := ((connectiveSpells op).append (stopsMark (by rfl) _) right).blank
      have whole := parenthesizedSpells
        ((exprSpells lhs h.1 left).append (stopsMark (by rfl) _) sign)
      have chars : (Expr.binary op lhs rhs place).text.toList = '(' :: ((lhs.text.toList
          ++ ' ' :: (op.text.toList ++ ' ' :: rhs.text.toList)) ++ [')']) := by
        simp [Expr.text]
      rw [chars]
      exact whole
  | .conditional .., _, plain => nomatch plain

theorem textsSpell : ∀ es : List Expr, legibleAll es → Expr.allPlain es = true →
    List.Forall₂ Spells ((Expr.texts es).map String.toList) (Expr.tokenLists es)
  | [], _, _ => .nil
  | e :: rest, h, plain => by
      obtain ⟨first, later⟩ := Bool.and_eq_true_iff.mp plain
      exact .cons (exprSpells e h.1 first) (textsSpell rest h.2 later)

end

theorem namesSpell {params : List Name} (h : ∀ n ∈ params, n.legible false) :
    List.Forall₂ Spells ((params.map Name.toString).map String.toList) (params.map Name.tokens) := by
  induction params with
  | nil => exact .nil
  | cons n rest ih =>
      exact .cons (nameSpells (h n List.mem_cons_self))
        (ih fun n' member => h n' (List.mem_cons_of_mem n member))

theorem Spells.equals {cs : List Char} {xs : List Token} (h : Spells cs xs) :
    Spells (' ' :: '=' :: ' ' :: cs) (Word.bare .equals :: xs) :=
  (Spells.mark (c := '=') (w := .equals) rfl rfl h.blank).blank

theorem declarationSpells {d : FunctionDeclaration} (h : d.name.legible false) :
    Spells d.text.toList (Statement.functionDeclaration d).tokens := by
  have codomain := (setReads d.codomain).before rfl spellsNothing
  have arrow := ((@commandReads "to" _ rfl rfl).spells rfl).append (stopsMark (by rfl) _)
    codomain.blank
  have domain := (setReads d.domain).before rfl arrow.blank
  have colon := (Spells.mark (c := ':') (w := .colon) rfl rfl domain.blank).blank
  have whole := (nameSpells h).append (stopsMark (by rfl) _) colon
  have chars : d.text.toList = d.name.toString.toList ++ ' ' :: ':' :: ' '
      :: (['\\', d.domain.letter] ++ ' ' :: ('\\' :: "to".toList ++ ' '
        :: (['\\', d.codomain.letter] ++ []))) := by
    simp [FunctionDeclaration.text, NumberSet.text]
  rw [chars]
  exact whole

theorem statementSpells {s : Statement} (h : s.legible) (plain : s.isPlain = true) :
    Spells s.text.toList s.tokens := by
  cases s with
  | expression e => exact exprSpells e h plain
  | functionDeclaration d => exact declarationSpells h
  | valueDeclaration name value place =>
      have whole := (nameSpells h.1).append (stopsMark (by rfl) _) (exprSpells value h.2 plain).equals
      have chars : (Statement.valueDeclaration name value place).text.toList
          = name.toString.toList ++ ' ' :: '=' :: ' ' :: value.text.toList := by
        simp [Statement.text]
      rw [chars]
      exact whole
  | setDeclaration name members place =>
      have inside := spellsListed (textsSpell members h.2 plain)
      have closer := escapedReads.2.before rfl spellsNothing
      have braces := escapedReads.1.before rfl (inside.append (stopsMark (by rfl) _) closer)
      have whole := (nameSpells h.1).append (stopsMark (by rfl) _) braces.equals
      have chars : (Statement.setDeclaration name members place).text.toList
          = name.toString.toList ++ ' ' :: '=' :: ' ' :: (['\\', '\x7b']
            ++ ((", ").toList.intercalate ((Expr.texts members).map String.toList)
              ++ (['\\', '\x7d'] ++ []))) := by
        simp [Statement.text, String.toList_intercalate]
      rw [chars]
      exact whole
  | functionDefinition d =>
      obtain ⟨name, params, -, body, -⟩ := h
      have inside := parenthesizedSpells (spellsListed (namesSpell params))
      have value := (exprSpells d.body body plain).equals
      have signature := (nameSpells name).append (stopsMark (by rfl) _) inside
      have whole := signature.append (stopsMark (by rfl) _) value
      have chars : (Statement.functionDefinition d).text.toList = (d.name.toString.toList
          ++ '(' :: ((", ").toList.intercalate ((d.params.map Name.toString).map String.toList)
            ++ [')'])) ++ ' ' :: '=' :: ' ' :: d.body.text.toList := by
        simp [Statement.text, FunctionDefinition.text, String.toList_intercalate]
      rw [chars]
      exact whole

end Written

section Documents

theorem captureNone {ts : List Token} (h : ∀ t ∈ ts, ∀ name, t.word? ≠ some (.stub name)) :
    captureArguments ts = ts := by
  induction ts with
  | nil => simp [captureArguments]
  | cons t rest ih =>
      rw [captureOther (h t List.mem_cons_self),
        ih fun t' member => h t' (List.mem_cons_of_mem t member)]

theorem nestingNone {ts : List Token} (h : ∀ t ∈ ts, ∃ w, t.word? = some w) : nesting ts = 0 := by
  induction ts with
  | nil => rfl
  | cons t rest ih =>
      obtain ⟨w, word⟩ := h t List.mem_cons_self
      rw [nesting, ih fun t' member => h t' (List.mem_cons_of_mem t member)]
      cases t with
      | plain => rfl
      | command => cases word

theorem nextInert {t : Token} {w : Word} (word : t.word? = some w) (h : w.inert = true)
    (opened : Region × Span) : Reader.next ⟨false, some opened⟩ t = (⟨false, some opened⟩, [t]) := by
  unfold Reader.next
  cases w <;> simp_all [Word.inert]

theorem filterInert {ts : List Token} (h : ∀ t ∈ ts, ∃ w, t.word? = some w ∧ w.inert = true)
    (r : Region) (place closed : Span) :
    Reader.filter ⟨false, some (r, place)⟩ (ts ++ [.plain (.regionClosing r) closed])
      = .ok (ts ++ [.plain .regionEnd closed]) := by
  induction ts with
  | nil => cases r <;> rfl
  | cons t rest ih =>
      obtain ⟨w, word, inert⟩ := h t List.mem_cons_self
      rw [List.cons_append, filterCons, nextInert word inert,
        ih fun t' member => h t' (List.mem_cons_of_mem t member)]
      rfl

namespace Region

def opening : Region → String
  | inline => "\\$(" | display => "\\$["

def closing : Region → String
  | inline => "\\$)" | display => "\\$]"

def around (r : Region) (text : String) : String := r.opening ++ text ++ r.closing

theorem closingStops (r : Region) : Stops r.closing.toList := by
  cases r <;> exact stopsMark (by rfl) _

end Region

theorem namedFromNothing (place : Nat) : namedFrom place [] = [] := by
  simp [namedFrom, lexFrom, formStubs, resolveNames]

theorem openingReads (r : Region) (place : Nat) (cs : List Char) :
    namedFrom place (r.opening.toList ++ cs)
      = .plain (.regionOpening r) ⟨place, place + 3⟩ :: namedFrom (place + 3) cs := by
  cases r with
  | inline => exact namedFromWord (@lexFromMunch _ ['$', '('] _ _ place rfl) (by simp) (by simp)
  | display => exact namedFromWord (@lexFromMunch _ ['$', '['] _ _ place rfl) (by simp) (by simp)

theorem closingReads (r : Region) (place : Nat) :
    namedFrom place r.closing.toList = [.plain (.regionClosing r) ⟨place, place + 3⟩] := by
  rw [← namedFromNothing (place + 3)]
  cases r with
  | inline => exact namedFromWord (@lexFromMunch _ ['$', ')'] [] _ place rfl) (by simp) (by simp)
  | display => exact namedFromWord (@lexFromMunch _ ['$', ']'] [] _ place rfl) (by simp) (by simp)

theorem codeTokensSpelled {text : String} {written : List Token} (h : Spells text.toList written)
    (r : Region) : ∃ ts place, codeTokens (r.around text) = .ok (ts ++ [.plain .regionEnd place]) ∧
      (∀ t ∈ ts, ∃ w, t.word? = some w ∧ w.inert = true) ∧
      (normalize ts).map (Token.moved .forget) = written := by
  obtain ⟨ts, last, reads, inert, same⟩ := h 3 r.closing.toList r.closingStops
  have named : namedTokens (r.around text) = .plain (.regionOpening r) ⟨0, 3⟩
      :: (ts ++ [.plain (.regionClosing r) ⟨last, last + 3⟩]) := by
    have whole := openingReads r 0 (text.toList ++ r.closing.toList)
    rw [reads, closingReads, ← List.append_assoc, ← String.toList_append, ← String.toList_append]
      at whole
    exact whole
  have words : ∀ t ∈ namedTokens (r.around text),
      ∃ w, t.word? = some w ∧ ∀ name, w ≠ .stub name := by
    rw [named]
    intro t member
    simp only [List.mem_cons, List.mem_append, List.not_mem_nil, or_false] at member
    obtain rfl | inside | rfl := member
    · exact ⟨_, rfl, by simp⟩
    · obtain ⟨w, word, calm⟩ := inert t inside
      refine ⟨w, word, ?_⟩
      rintro name rfl
      cases calm
    · exact ⟨_, rfl, by simp⟩
  have whole : captured (r.around text) = namedTokens (r.around text) := by
    refine captureNone fun t member name stub => ?_
    obtain ⟨w, word, other⟩ := words t member
    exact other name (Option.some.inj (word.symm.trans stub))
  have shallow : nesting (captured (r.around text)) = 0 := by
    rw [whole]
    refine nestingNone fun t member => ?_
    obtain ⟨w, word, -⟩ := words t member
    exact ⟨w, word⟩
  have opens : Reader.next .outside (.plain (.regionOpening r) ⟨0, 3⟩)
      = (⟨false, some (r, ⟨0, 3⟩)⟩, []) := rfl
  refine ⟨ts, ⟨last, last + 3⟩, ?_, inert, same⟩
  rw [codeTokensCaptured, shallow, if_neg (by decide), whole, named, filterCons, opens,
    filterInert inert]
  rfl

theorem splitRegionsNone {ts : List Token} (h : ∀ t ∈ ts, t.word? ≠ some .regionEnd) :
    splitRegions ts = [ts] := by
  induction ts with
  | nil => rfl
  | cons t rest ih =>
      rw [splitRegions, if_neg (h t List.mem_cons_self),
        ih fun t' member => h t' (List.mem_cons_of_mem t member)]
      rfl

theorem normalizeInert {ts : List Token} (h : ∀ t ∈ ts, ∃ w, t.word? = some w ∧ w.inert = true) :
    ∀ t ∈ normalize ts, t.word? ≠ some .regionEnd := by
  intro t member ends
  obtain ⟨u, kept, rfl⟩ := List.mem_map.mp member
  obtain ⟨w, word, inert⟩ := h u (List.mem_filter.mp kept).1
  unfold asKeyword at ends
  split at ends
  · split at ends <;> cases ends
  · cases word.symm.trans ends
    cases inert

theorem sliceSpelled {text : String} {written : List Token} (h : Spells text.toList written)
    (solid : Solid written) (filled : written ≠ []) (r : Region) :
    ∃ code slice, codeTokens (r.around text) = .ok code ∧ intoSlices code = [slice] ∧
      slice.map (Token.moved .forget) = written := by
  obtain ⟨ts, place, reads, inert, rfl⟩ := codeTokensSpelled h r
  have whole : splitTop .comma 0 ((normalize ts).map (Token.moved .forget))
      = [(normalize ts).map (Token.moved .forget)] := by simpa [splitTop] using solid.undivided []
  have bare : (intoSlices ts).map (List.map (Token.moved .forget))
      = [(normalize ts).map (Token.moved .forget)] := by
    rw [← intoSlicesMoved, slicesLooped, slicesOf, normalizeMoved (tokenMoves .forget),
      splitRegionsMoved (tokenMoves .forget), splitRegionsNone (normalizeInert inert),
      List.map_singleton, List.flatMap_singleton, whole]
    exact List.filter_eq_self.mpr (by simpa using filled)
  obtain ⟨slice, found, bare⟩ := List.map_eq_singleton_iff.mp bare
  refine ⟨_, slice, reads, ?_, bare⟩
  have nothing : intoSlices [] = [] := rfl
  rw [intoSlicesEnd, found, nothing, List.append_nil]

end Documents
end LiterateMath
