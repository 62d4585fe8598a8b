import LiterateMath.Proofs.Printing.Reading

/-! Names where they are bound and where they are read. To bind a name its tokens are divided at
the underscores from the outside in; to read one they are gathered from the left. Both come to
the same name, unless the base of a subscript stands in braces of its own. -/
namespace LiterateMath

open Lexical

inductive Braced (inner : List Token) : List Token → Prop where
  | itself : Braced inner inner
  | braces {opener closer : Token} {ts : List Token}
      (opens : opener.word? = some (.opening .brace)) (balanced : Balanced ts)
      (closes : closer.word? = some (.closing .brace)) (within : Braced inner ts) :
      Braced inner (opener :: (ts ++ [closer]))

theorem stripBracesBraced {ts stripped : List Token} (h : stripBraces ts = .ok stripped) :
    Braced stripped ts ∧ stripBraces stripped = .ok stripped := by
  fun_induction stripBraces ts with
  | case1 =>
      cases h
      exact ⟨.itself, by rw [stripBraces]⟩
  | case2 t rest opens none =>
      cases h
      exact ⟨.itself, stripBracesUnclosed (.inr none)⟩
  | case3 t rest opens inside closer after cut ih =>
      obtain ⟨u, closes, h⟩ := bindIsOk.mp h
      obtain ⟨rfl, balanced, -⟩ := splitClosingFound cut
      cases ends : after.isEmpty with
      | false =>
          rw [ends] at h
          cases h
          refine ⟨.itself, ?_⟩
          rw [stripBracesOpening opens cut, closes, bindOk, ends]
          rfl
      | true =>
          rw [ends] at h
          obtain rfl := List.isEmpty_iff.mp ends
          obtain ⟨within, again⟩ := ih h
          exact ⟨.braces (tokenOpens opens) balanced (checkClosingOk.mp closes) within, again⟩
  | case4 t rest other =>
      cases h
      exact ⟨.itself, stripBracesUnclosed (.inl (by simpa using other))⟩

section Parsing

variable {limit : Nat} {asSubscript : Bool} {ts : List Token} {n : Name}

theorem parseAtomSingle (h : parseAtom asSubscript ts = .ok n) : ∃ t, ts = [t] ∧
    t.opens .brace = false ∧ ((startsName t = true ∧ parseAtom false [t] = .ok n) ∨
      (asSubscript = true ∧ ∃ digits, t.word? = some (.number digits))) := by
  unfold parseAtom at h
  split at h
  · cases h
  · rename_i t
    have unopened {w : Word} (word : t.word? = some w) (other : w ≠ .opening .brace) :
        t.opens .brace = false := by
      by_contra opens
      exact other (Option.some.inj (word.symm.trans (tokenOpens (by simpa using opens))))
    refine ⟨t, rfl, ?_⟩
    split at h
    · rename_i word
      cases h
      exact ⟨unopened word (by simp),
        .inl ⟨by simp [startsName, word], by simp [parseAtom, word]⟩⟩
    · rename_i word
      cases h
      exact ⟨unopened word (by simp),
        .inl ⟨by simp [startsName, word], by simp [parseAtom, word]⟩⟩
    · rename_i word
      split at h
      · rename_i below
        exact ⟨unopened word (by simp), .inr ⟨below, _, word⟩⟩
      · cases h
    · cases h
  · cases h

/-- A name in braces or not is one token or has a subscript, and the base of a subscript is one
token in braces or not. -/
inductive NameForm (limit : Nat) (asSubscript : Bool) (n : Name) : List Token → Prop where
  | single {t : Token} (read : parseAtom asSubscript [t] = .ok n) : NameForm limit asSubscript n [t]
  | subscripted {base sub : List Token} {t u : Token} {b s : Name}
      (around : Braced [t] base) (read : parseAtom asSubscript [t] = .ok b)
      (word : u.word? = some .underscore) (below : parseName limit true sub = .ok s)
      (whole : n = .subscripted b s) : NameForm limit asSubscript n (base ++ u :: sub)

theorem parseNameForm (h : parseName (limit + 1) asSubscript ts = .ok n) : ∃ stripped,
    stripBraces ts = .ok stripped ∧ NameForm limit asSubscript n stripped := by
  obtain ⟨stripped, strips, h⟩ := bindIsOk.mp h
  refine ⟨stripped, strips, ?_⟩
  split at h
  · obtain ⟨t, rfl, -⟩ := parseAtomSingle h
    exact .single h
  · rename_i base sub cut
    obtain ⟨b, first, h⟩ := bindIsOk.mp h
    obtain ⟨s, second, same⟩ := bindIsOk.mp h
    cases same
    obtain ⟨⟨front, sep, back⟩, found, same⟩ := Option.map_eq_some_iff.mp cut
    cases same
    obtain ⟨here, rfl⟩ := cutAtFound found
    have flat : ∀ t ∈ front, t.word? ≠ some .underscore := fun t member =>
      of_decide_eq_false (cutAtBefore found t member)
    obtain ⟨atom, strips', read⟩ : ∃ atom, stripBraces front = .ok atom ∧
        parseAtom asSubscript atom = .ok b := by
      cases limit with
      | zero => cases first
      | succ limit =>
          obtain ⟨atom, strips', first⟩ := bindIsOk.mp first
          refine ⟨atom, strips', ?_⟩
          split at first
          · exact first
          · rename_i cut'
            obtain ⟨u, word, rfl⟩ := splitOnceFound cut'
            exact absurd word (flat u (stripBracesPart strips' (by simp)))
    obtain ⟨t, rfl, -⟩ := parseAtomSingle read
    exact .subscripted (stripBracesBraced strips').1 read (of_decide_eq_true here) second rfl

theorem takeSubscriptsBraced {u opener closer : Token} {inside after subs last : List Token}
    (word : u.word? = some .underscore) (opens : opener.word? = some (.opening .brace))
    (balanced : Balanced inside) (closes : closer.word? = some (.closing .brace))
    (more : takeSubscripts after = .ok (subs, last)) :
    takeSubscripts (u :: opener :: (inside ++ closer :: after))
      = .ok (u :: opener :: (inside ++ closer :: subs), last) := by
  have closed : checkClosing .brace opener.span closer = .ok () := checkClosingOk.mpr closes
  rw [takeSubscriptsGroup word (opensWord.mpr opens) (splitClosingAt balanced closes after), closed,
    bindOk, more]
  rfl

theorem takeSubscriptsAround {u t : Token} {group after subs last : List Token}
    (word : u.word? = some .underscore) (around : Braced [t] group)
    (unopened : t.opens .brace = false) (more : takeSubscripts after = .ok (subs, last)) :
    takeSubscripts (u :: (group ++ after)) = .ok (u :: (group ++ subs), last) := by
  cases around with
  | itself =>
      rw [List.singleton_append, takeSubscriptsSingle word unopened, more]
      rfl
  | braces opens balanced closes => simpa using takeSubscriptsBraced word opens balanced closes more

theorem takeSubscriptsRead (h : parseName limit asSubscript ts = .ok n) {u : Token}
    (word : u.word? = some .underscore) {rest : List Token} (ends : EndsName rest) :
    takeSubscripts (u :: (ts ++ rest)) = .ok (u :: ts, rest) := by
  induction limit generalizing asSubscript ts n u with
  | zero => cases h
  | succ limit ih =>
      obtain ⟨stripped, strips, form⟩ := parseNameForm h
      obtain ⟨around, -⟩ := stripBracesBraced strips
      have none := takeSubscriptsEnd ends
      cases around with
      | braces opens balanced closes =>
          simpa using takeSubscriptsBraced word opens balanced closes none
      | itself =>
          cases form with
          | single read =>
              obtain ⟨_, same, unopened, -⟩ := parseAtomSingle read
              cases same
              simpa using takeSubscriptsAround word .itself unopened none
          | @subscripted base sub t v b m around read word' below =>
              obtain ⟨_, same, unopened, -⟩ := parseAtomSingle read
              cases same
              have more := ih below word'
              simpa using takeSubscriptsAround word around unopened more

theorem parseNameNext (h : parseName limit asSubscript ts = .ok n) :
    parseName (limit + 1) asSubscript ts = .ok n := by
  induction limit generalizing asSubscript ts n with
  | zero => cases h
  | succ limit ih =>
      obtain ⟨stripped, strips, h⟩ := bindIsOk.mp h
      rw [parseName, strips, bindOk]
      split at h
      · exact h
      · obtain ⟨b, first, h⟩ := bindIsOk.mp h
        obtain ⟨s, second, same⟩ := bindIsOk.mp h
        rw [ih first, bindOk, ih second]
        exact same

theorem parseNameMore {higher : Nat} (more : limit ≤ higher)
    (h : parseName limit asSubscript ts = .ok n) : parseName higher asSubscript ts = .ok n := by
  induction more with
  | refl => exact h
  | step _ ih => exact parseNameNext ih

end Parsing

theorem parseNameSingle {t : Token} (h : parseAtom asSubscript [t] = .ok n) (limit : Nat) :
    parseName (limit + 1) asSubscript [t] = .ok n := by
  obtain ⟨_, same, unopened, letter⟩ := parseAtomSingle h
  cases same
  have plain : t.word? ≠ some .underscore := by
    intro word
    obtain ⟨starts, -⟩ | ⟨-, digits, word'⟩ := letter
    · simp [startsName, word] at starts
    · cases word.symm.trans word'
  have whole : splitOnce .underscore [t] = none := by
    simp [splitOnce, cutAt, show word? t = t.word? from rfl, plain]
  rw [parseName, stripBracesUnclosed (.inl unopened), bindOk, whole]
  exact h

theorem parseNameStarts {t : Token} (starts : startsName t = true)
    (h : parseName limit asSubscript (t :: ts) = .ok n) :
    parseName limit false (t :: ts) = .ok n := by
  have plain : t.word? ≠ some .underscore := by
    intro word
    simp [startsName, word] at starts
  have unopened : t.opens .brace = false := by
    by_contra opens
    simp [startsName, tokenOpens (by simpa using opens)] at starts
  have strips := @stripBracesUnclosed t ts (.inl unopened)
  induction limit generalizing ts n with
  | zero => cases h
  | succ limit ih =>
      rw [parseName, strips, bindOk] at h ⊢
      cases cut : splitOnce .underscore (t :: ts) with
      | none =>
          simp only [cut] at h ⊢
          obtain ⟨_, same, -, ⟨-, read⟩ | ⟨-, digits, word⟩⟩ := parseAtomSingle h
          · rw [same]
            exact read
          · cases same
            simp [startsName, word] at starts
      | some parts =>
          obtain ⟨base, sub⟩ := parts
          simp only [cut] at h ⊢
          obtain ⟨b, first, last⟩ := bindIsOk.mp h
          obtain ⟨u, word, whole⟩ := splitOnceFound cut
          cases base with
          | nil =>
              obtain ⟨rfl, -⟩ := List.cons.inj whole
              exact absurd word plain
          | cons t' base =>
              obtain ⟨rfl, -⟩ := List.cons.inj whole
              rw [ih first (stripBracesUnclosed (.inl unopened)), bindOk]
              exact last

section Gathering

variable {ts : List Token} {ps : List Piece}

theorem Gathers.token {t : Token} (plain : startsName t = false) (h : Gathers ts ps) :
    Gathers (t :: ts) (.token t :: ps) := by
  intro rest more ends later
  rw [List.cons_append, gatherNamesOther plain, h rest more ends later]
  rfl

theorem Gathers.braces (h : Gathers ts ps) (opener closer : Span) {rest : List Token}
    {qs : List Piece} (later : gatherNames rest = .ok qs) :
    gatherNames (.plain (.opening .brace) opener :: (ts ++ .plain (.closing .brace) closer :: rest))
      = .ok (.token (.plain (.opening .brace) opener)
        :: (ps ++ .token (.plain (.closing .brace) closer) :: qs)) := by
  have ends : EndsName (.plain (.closing .brace) closer :: rest) := by
    rintro t ⟨⟩ word
    cases word
  have closed : gatherNames (.plain (.closing .brace) closer :: rest)
      = .ok (.token (.plain (.closing .brace) closer) :: qs) := by
    rw [gatherNamesOther rfl, later]
    rfl
  rw [gatherNamesOther rfl, h _ _ ends closed]
  rfl

theorem Braced.gathers {inner : List Token} (around : Braced inner ts) (holds : List Piece → Prop)
    (h : Gathers inner ps) (first : holds ps)
    (wrap : ∀ opener closer qs, holds qs →
      holds (.token (.plain (.opening .brace) opener) :: qs
        ++ [.token (.plain (.closing .brace) closer)])) :
    ∃ qs, Gathers ts qs ∧ holds qs := by
  induction around with
  | itself => exact ⟨ps, h, first⟩
  | @braces opener closer ts opens balanced closes within ih =>
      obtain ⟨qs, gathers, held⟩ := ih
      rw [plainOf opens, plainOf closes]
      refine ⟨_, fun rest more _ later => ?_, wrap opener.span closer.span qs held⟩
      simpa using gathers.braces opener.span closer.span later

def Uncalled (ps : List Piece) : Prop := ∀ p ∈ ps, p.word? ≠ some (.opening .paren)

theorem Uncalled.called (h : Uncalled ps) (parse : List Piece → Parsed Expr) :
    Called parse ps ps := by
  induction ps with
  | nil => exact .nil
  | cons p rest ih =>
      refine .other ?_ (ih fun q member => h q (List.mem_cons_of_mem p member))
      cases p with
      | name n place =>
          cases rest with
          | nil => rfl
          | cons q rest => exact decide_eq_false (h q (by simp))
      | _ => cases rest <;> rfl

theorem Uncalled.braces (h : Uncalled ps) (opener closer : Span) :
    Uncalled (.token (.plain (.opening .brace) opener) :: ps
      ++ [.token (.plain (.closing .brace) closer)]) := by
  intro p member
  simp only [List.mem_append, List.mem_cons, List.not_mem_nil, or_false] at member
  obtain (rfl | inside) | rfl := member
  · simp [Piece.word?, Token.word?]
  · exact h p inside
  · simp [Piece.word?, Token.word?]

theorem nameGathers {t : Token} {subs : List Token} {n : Name} (starts : startsName t = true)
    (read : parseName subscriptDepth false (t :: subs) = .ok n)
    (taken : ∀ rest, EndsName rest → takeSubscripts (subs ++ rest) = .ok (subs, rest)) :
    ∃ place, Gathers (t :: subs) [.name n place] := by
  refine ⟨t.span.through ((t :: subs).getLast (List.cons_ne_nil t subs)).span,
    fun rest more ends later => ?_⟩
  rw [List.cons_append, gatherNamesName starts (taken rest ends), read, bindOk, later]
  rfl

theorem underscorePlain {u : Token} (word : u.word? = some .underscore) :
    startsName u = false := by simp [startsName, word]

theorem uncalledName (n : Name) (place : Span) : Uncalled [.name n place] := by
  simp [Uncalled, Piece.word?]

theorem uncalledToken {t : Token} {w : Word} (word : t.word? = some w)
    (other : w ≠ .opening .paren) (h : Uncalled ps) : Uncalled (.token t :: ps) := by
  intro p member
  rcases List.mem_cons.mp member with rfl | later
  · simpa [Piece.word?, word] using other
  · exact h p later

theorem subscriptGathers {limit : Nat} {asSubscript : Bool} {n : Name}
    (h : parseName limit asSubscript ts = .ok n) (shallow : limit ≤ subscriptDepth) :
    ∃ ps, Gathers ts ps ∧ Uncalled ps := by
  induction limit generalizing asSubscript ts n with
  | zero => cases h
  | succ limit ih =>
      obtain ⟨stripped, strips, form⟩ := parseNameForm h
      obtain ⟨outside, again⟩ := stripBracesBraced strips
      rw [parseNameStripped strips again] at h
      suffices inner : ∃ ps, Gathers stripped ps ∧ Uncalled ps by
        obtain ⟨ps, gathers, uncalled⟩ := inner
        exact outside.gathers Uncalled gathers uncalled fun opener closer _ held =>
          held.braces opener closer
      have single {t : Token} {b : Name} (read : parseAtom asSubscript [t] = .ok b) :
          ∃ ps, Gathers [t] ps ∧ Uncalled ps := by
        obtain ⟨_, same, -, ⟨starts, read'⟩ | ⟨-, digits, word⟩⟩ := parseAtomSingle read
        · cases same
          obtain ⟨place, gathers⟩ := nameGathers starts (parseNameSingle read' _) fun _ ends =>
            takeSubscriptsEnd ends
          exact ⟨_, gathers, uncalledName b place⟩
        · cases same
          exact ⟨_, .token (by simp [startsName, word]) .nil,
            uncalledToken word (by simp) (List.forall_mem_nil _)⟩
      cases form with
      | single read => exact single read
      | @subscripted base sub t u b m around read word below =>
          obtain ⟨qs, gathers, uncalled⟩ := ih below (by omega)
          have later : Gathers (u :: sub) (.token u :: qs) := gathers.token (underscorePlain word)
          have uncalled : Uncalled (.token u :: qs) := uncalledToken word (by simp) uncalled
          cases around with
          | itself =>
              obtain ⟨_, same, -, ⟨starts, -⟩ | ⟨-, digits, word'⟩⟩ := parseAtomSingle read
              · cases same
                have whole := parseNameMore shallow (parseNameStarts starts h)
                obtain ⟨place, gathers⟩ := nameGathers starts whole fun _ ends =>
                  takeSubscriptsRead below word ends
                exact ⟨_, gathers, uncalledName n place⟩
              · cases same
                exact ⟨_, later.token (by simp [startsName, word']),
                  uncalledToken word' (by simp) uncalled⟩
          | @braces opener closer inside opens balanced closes within =>
              obtain ⟨ps, gathers, alone⟩ := single read
              obtain ⟨ps, gathers, alone⟩ := within.gathers Uncalled gathers alone
                fun opener closer _ held => held.braces opener closer
              rw [plainOf opens, plainOf closes]
              have closed :
                  Uncalled (.token (.plain (.closing .brace) closer.span) :: .token u :: qs) :=
                uncalledToken rfl (by simp) uncalled
              refine ⟨.token (.plain (.opening .brace) opener.span)
                :: (ps ++ .token (.plain (.closing .brace) closer.span) :: .token u :: qs), ?_, ?_⟩
              · intro rest more ends last
                simpa using gathers.braces opener.span closer.span (later rest more ends last)
              · exact uncalledToken rfl (by simp) fun p member =>
                  (List.mem_append.mp member).elim (alone p) (closed p)

end Gathering

section Values

theorem toPiecesNamed {ts : List Token} {ps : List Piece} (names : ∀ t ∈ ts, t.inName = true)
    (gathers : Gathers ts ps) : toPieces ts = .ok ps := by
  obtain ⟨limit, depth⟩ := spelledLimit
  have words {t : Token} (member : t ∈ ts) : ∃ w, t.word? = some w ∧ w.inName = true := by
    have name := names t member
    unfold Token.inName at name
    split at name
    · exact ⟨_, ‹_›, name⟩
    · cases name
  have spelled : ∀ t ∈ ts, t.spelledOut = true := by
    intro t member
    obtain ⟨w, word, name⟩ := words member
    have unsized : isSizing t = false := by
      cases w with
      | stub => cases name
      | _ => simp [isSizing, word]
    simp [Token.spelledOut, word, unsized]
  have pointless : ∀ t ∈ ts, t.word? ≠ some .point := by
    intro t member point
    obtain ⟨w, word, name⟩ := words member
    cases point.symm.trans word
    cases name
  refine toPiecesOk.mpr ⟨ts, by rw [depth, lowerSpelledOut spelled], ?_⟩
  rw [named, joinRealsNone pointless]
  have whole := gathers [] [] (by simp [EndsName]) (by simp [gatherNames])
  simpa using whole

theorem parseValueNamed {limit : Nat} {ts : List Token} {ps : List Piece} (filled : ts ≠ [])
    (names : ∀ t ∈ ts, t.inName = true) (gathers : Gathers ts ps) (uncalled : Uncalled ps) :
    parseValue (limit + 1) ts = assemble ps := by
  obtain ⟨t, rest, rfl⟩ := List.exists_cons_of_ne_nil filled
  have starts : startsConditional t = false := by
    refine decide_eq_false fun word => ?_
    have name := names t List.mem_cons_self
    rw [Token.inName, show t.word? = _ from word] at name
    cases name
  rw [parseValueAssembled starts (toPiecesNamed names gathers),
    makeCallsCalled.mpr (uncalled.called _), bindOk]

theorem nameTaken {t : Token} {subs : List Token} {n : Name} (starts : startsName t = true)
    (read : parseName subscriptDepth false (t :: subs) = .ok n) {rest : List Token}
    (ends : EndsName rest) : takeSubscripts (subs ++ rest) = .ok (subs, rest) := by
  have unopened : t.opens .brace = false := by
    by_contra opens
    simp [startsName, tokenOpens (by simpa using opens)] at starts
  obtain ⟨below, depth⟩ : ∃ below, subscriptDepth = below + 1 := ⟨983, rfl⟩
  obtain ⟨stripped, strips, form⟩ := parseNameForm (depth ▸ read)
  rw [stripBracesUnclosed (.inl unopened)] at strips
  obtain rfl := Except.ok.inj strips
  generalize whole : t :: subs = ts at form
  cases form with
  | single =>
      obtain ⟨-, rfl⟩ := List.cons.inj whole
      exact takeSubscriptsEnd ends
  | subscripted around _ word later =>
      cases around with
      | itself =>
          obtain ⟨-, rfl⟩ := List.cons.inj whole
          simpa using takeSubscriptsRead later word ends
      | braces opens _ _ _ =>
          obtain ⟨rfl, -⟩ := List.cons.inj whole
          cases unopened.symm.trans (opensWord.mpr opens)

theorem namePieces {t : Token} {subs : List Token} {n : Name} (starts : startsName t = true)
    (read : parseName subscriptDepth false (t :: subs) = .ok n) :
    ∃ place, toPieces (t :: subs) = .ok [.name n place] := by
  obtain ⟨place, gathers⟩ := nameGathers starts read fun _ ends => nameTaken starts read ends
  exact ⟨place, toPiecesNamed (parseNameWords read) gathers⟩

def bracedBase (ts : List Token) : Bool :=
  match stripBraces ts with
  | .ok (t :: _) => t.opens .brace
  | _ => false

def RefusedUnderscore (ps : List Piece) : Prop :=
  ∀ y, ∃ place, ps.foldlM Yard.step y = .error (.malformed (.stray .underscore) (some place))

theorem RefusedUnderscore.braces {ps : List Piece} (h : RefusedUnderscore ps)
    (opener closer : Span) : RefusedUnderscore (.token (.plain (.opening .brace) opener) :: ps
      ++ [.token (.plain (.closing .brace) closer)]) := by
  intro y
  have opens : y.step (.token (.plain (.opening .brace) opener))
      = .ok ⟨y.emitted, .bracket .brace opener :: y.waiting, true⟩ := rfl
  obtain ⟨place, refused⟩ := h ⟨y.emitted, .bracket .brace opener :: y.waiting, true⟩
  refine ⟨place, ?_⟩
  rw [List.cons_append, List.foldlM_cons, opens, bindOk, List.foldlM_append, refused]
  rfl

theorem refusedAfterGroup {ps qs : List Piece} {items : List Postfix} {u : Token}
    (put : toPostfix ps = .ok items) (word : u.word? = some .underscore) (opener closer : Span) :
    RefusedUnderscore (.token (.plain (.opening .brace) opener)
      :: (ps ++ .token (.plain (.closing .brace) closer) :: .token u :: qs)) := by
  intro y
  refine ⟨u.span, ?_⟩
  have stray (y : Yard) : y.step (.token u) = malformed (.stray .underscore) (some u.span) := by
    cases u with
    | plain w place =>
        cases word
        rfl
    | command => cases word
  rw [List.append_cons, ← List.cons_append, ← List.cons_append, List.foldlM_append,
    Yard.groupRuns put, bindOk, List.foldlM_cons, stray]
  rfl

theorem readUnbraced {limit : Nat} {t : Token} {ts subs : List Token} {n : Name}
    (filled : ts ≠ []) (names : ∀ t ∈ ts, t.inName = true) (outside : Braced (t :: subs) ts)
    (starts : startsName t = true) (read : parseName subscriptDepth false (t :: subs) = .ok n) :
    ∃ place, parseValue (limit + 1) ts = .ok (.lookup n (some place)) := by
  obtain ⟨place, gathers⟩ := nameGathers starts read fun _ ends => nameTaken starts read ends
  have operand : Sentence 5 [.name n place] (.lookup n (some place)) :=
    @Sentence.operand (.name n place) (.name n) rfl
  obtain ⟨ps, gathers, sentence, uncalled, readable⟩ := outside.gathers
    (fun ps => Sentence 5 ps (.lookup n (some place)) ∧ Uncalled ps ∧
      ps.any Piece.tooLong = false) gathers ⟨operand, uncalledName n place, rfl⟩
    fun opener closer ps held => by
      refine ⟨.bracketed (held.1.loosen (by omega) (by omega)), held.2.1.braces opener closer, ?_⟩
      simpa [Piece.tooLong, Piece.operand?] using held.2.2
  refine ⟨place, ?_⟩
  rw [parseValueNamed filled names gathers uncalled,
    sentenceAssembled (sentence.loosen (by omega) (by omega)) readable]
  rfl

theorem readBraced {limit : Nat} {opener closer u : Token} {ts inside sub : List Token} {t : Token}
    {b s : Name} {below : Nat} (filled : ts ≠ []) (names : ∀ t ∈ ts, t.inName = true)
    (outside : Braced (opener :: (inside ++ closer :: u :: sub)) ts)
    (opens : opener.word? = some (.opening .brace)) (closes : closer.word? = some (.closing .brace))
    (within : Braced [t] inside) (read : parseAtom false [t] = .ok b)
    (word : u.word? = some .underscore) (later : parseName below true sub = .ok s)
    (shallow : below ≤ subscriptDepth) :
    ∃ place, parseValue (limit + 1) ts = malformed (.stray .underscore) (some place) := by
  obtain ⟨_, same, -, ⟨starts, -⟩ | ⟨impossible, -⟩⟩ := parseAtomSingle read
  case inr => cases impossible
  cases same
  obtain ⟨at_, gathers⟩ := nameGathers starts (parseNameSingle read _) fun _ ends =>
    takeSubscriptsEnd ends
  have operand : Sentence 5 [.name b at_] (.lookup b (some at_)) :=
    @Sentence.operand (.name b at_) (.name b) rfl
  obtain ⟨ps, gathers, ⟨e, sentence⟩, uncalled⟩ := within.gathers
    (fun ps => (∃ e, Sentence 5 ps e) ∧ Uncalled ps) gathers
    ⟨⟨_, operand⟩, uncalledName b at_⟩ fun opener closer ps held => by
      obtain ⟨⟨e, sentence⟩, uncalled⟩ := held
      exact ⟨⟨e, .bracketed (sentence.loosen (by omega) (by omega))⟩, uncalled.braces opener closer⟩
  obtain ⟨items, put, -⟩ := sentencePostfix (sentence.loosen (Nat.zero_le 5) (Nat.le_refl 5))
  obtain ⟨qs, gathers', uncalled'⟩ := subscriptGathers later shallow
  rw [plainOf opens, plainOf closes] at outside
  have base : Gathers (.plain (.opening .brace) opener.span
      :: (inside ++ .plain (.closing .brace) closer.span :: u :: sub))
      (.token (.plain (.opening .brace) opener.span)
        :: (ps ++ .token (.plain (.closing .brace) closer.span) :: .token u :: qs)) :=
    fun rest more ends last => by
      simpa using gathers.braces opener.span closer.span
        (gathers'.token (underscorePlain word) rest more ends last)
  have uncalled : Uncalled (.token (.plain (.opening .brace) opener.span)
      :: (ps ++ .token (.plain (.closing .brace) closer.span) :: .token u :: qs)) := by
    have closed : Uncalled (.token (.plain (.closing .brace) closer.span) :: .token u :: qs) :=
      uncalledToken rfl nofun (uncalledToken word nofun uncalled')
    exact uncalledToken rfl nofun fun p member =>
      (List.mem_append.mp member).elim (uncalled p) (closed p)
  obtain ⟨whole, gathers, refused, uncalled⟩ := outside.gathers
    (fun ps => RefusedUnderscore ps ∧ Uncalled ps) base
    ⟨refusedAfterGroup put word opener.span closer.span, uncalled⟩
    fun opener closer ps held => ⟨held.1.braces opener closer, held.2.braces opener closer⟩
  obtain ⟨place, fails⟩ := refused Yard.empty
  refine ⟨place, ?_⟩
  rw [parseValueNamed filled names gathers uncalled, assemble, toPostfix, fails]
  rfl

/-- A name is read as the name that it is bound as, except where the base of a subscript stands in
braces: that can be bound, but its underscore is refused where it is read. -/
theorem nameReadAsBound {limit : Nat} {ts : List Token} {n : Name}
    (bound : parseName subscriptDepth false ts = .ok n) :
    (bracedBase ts = false ∧ ∃ place, parseValue (limit + 1) ts = .ok (.lookup n (some place))) ∨
    (bracedBase ts = true ∧ ∃ place,
      parseValue (limit + 1) ts = malformed (.stray .underscore) (some place)) := by
  obtain ⟨below, depth⟩ : ∃ below, subscriptDepth = below + 1 := ⟨983, rfl⟩
  have names := parseNameWords bound
  have filled : ts ≠ [] := by
    rintro rfl
    rw [depth, parseName, stripBraces] at bound
    cases bound
  obtain ⟨stripped, strips, form⟩ := parseNameForm (depth ▸ bound)
  obtain ⟨outside, again⟩ := stripBracesBraced strips
  have read : parseName subscriptDepth false stripped = .ok n := by
    rwa [parseNameStripped strips again] at bound
  cases form with
  | single atom =>
      obtain ⟨_, same, unopened, ⟨starts, -⟩ | ⟨impossible, -⟩⟩ := parseAtomSingle atom
      · cases same
        refine .inl ⟨by rw [bracedBase, strips]; exact unopened, ?_⟩
        exact readUnbraced filled names outside starts read
      · cases impossible
  | @subscripted base sub t u b s around atom word later =>
      obtain ⟨_, same, unopened, ⟨starts, -⟩ | ⟨impossible, -⟩⟩ := parseAtomSingle atom
      case inr => cases impossible
      cases same
      cases around with
      | itself =>
          refine .inl ⟨by rw [bracedBase, strips]; exact unopened, ?_⟩
          exact readUnbraced filled names outside starts read
      | braces opens _ closes within =>
          refine .inr ⟨by rw [bracedBase, strips]; exact opensWord.mpr opens, ?_⟩
          rw [List.cons_append, List.append_assoc, List.singleton_append] at outside
          exact readBraced filled names outside opens closes within atom word later (by omega)

theorem subscriptReadAsBound :
    let ts : List Token := [.plain (.text "x") ⟨0, 1⟩, .plain .underscore ⟨1, 2⟩,
      .plain (.opening .brace) ⟨2, 3⟩, .plain (.greek .alpha) ⟨3, 9⟩, .plain .underscore ⟨9, 10⟩,
      .plain (.number "1") ⟨10, 11⟩, .plain (.closing .brace) ⟨11, 12⟩]
    parseName subscriptDepth false ts
        = .ok (.subscripted (.text "x") (.subscripted (.greek .alpha) (.text "1"))) ∧
      ∃ place, parseValue valueDepth ts
        = .ok (.lookup (.subscripted (.text "x") (.subscripted (.greek .alpha) (.text "1")))
            (some place)) := by
  intro ts
  have bound : parseName subscriptDepth false ts
      = .ok (.subscripted (.text "x") (.subscripted (.greek .alpha) (.text "1"))) := by cbv
  have unbraced : bracedBase ts = false := by cbv
  obtain ⟨-, read⟩ | ⟨braced, -⟩ := @nameReadAsBound 327 ts _ bound
  · exact ⟨bound, read⟩
  · cases unbraced.symm.trans braced

theorem bracedBaseUnread :
    let x : List Token := [.plain (.text "x") ⟨1, 2⟩]
    let braced : List Token := .plain (.opening .brace) ⟨0, 1⟩ :: (x
      ++ .plain (.closing .brace) ⟨2, 3⟩ :: .plain .underscore ⟨3, 4⟩
        :: [.plain (.number "1") ⟨4, 5⟩])
    bareCode "\x7bx\x7d_1" = .ok braced ∧
      parseName subscriptDepth false braced = .ok (.subscripted (.text "x") (.text "1")) ∧
      ∃ place, parseValue valueDepth braced = malformed (.stray .underscore) (some place) := by
  intro x braced
  have reads : bareCode "\x7bx\x7d_1" = .ok braced := by cbv
  have bound : parseName subscriptDepth false braced
      = .ok (.subscripted (.text "x") (.text "1")) := by cbv
  have below : parseName 1 true [.plain (.number "1") ⟨4, 5⟩] = .ok (.text "1") := by cbv
  exact ⟨reads, bound, readBraced (by decide) (parseNameWords bound) .itself rfl rfl .itself rfl rfl
    below (by decide)⟩

end Values

end LiterateMath
