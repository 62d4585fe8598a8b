import LiterateMath.Proofs.Sizing.Statements

/-! Sizing words written into a text. Before the brackets of a value, round ones or escaped braces,
they are tokens of their own, and with the places behind them moved back the tokens are those of the
text without them, sized. -/
namespace LiterateMath

section Lexing

variable {place : Nat} {cs ds : List Char} {d : Char} {t : Token}

theorem lexFromAt (member : t ∈ lexFrom place (cs ++ ds))
    (start : t.span.start = place + cs.length) :
    lexFrom place (cs ++ ds) = lexFrom place cs ++ lexFrom (place + cs.length) ds ∧
      ∃ more, lexFrom (place + cs.length) ds = t :: more := by
  obtain ⟨us, vs, parts⟩ := List.append_of_mem member
  obtain ⟨as, bs, whole, rfl, later⟩ := lexFromParts us parts
  have tiles := lexFromTiles (place + as.length) bs
  rw [later] at tiles
  have long : cs.length = as.length := by
    have first := tiles.1
    omega
  obtain ⟨rfl, rfl⟩ := List.append_inj whole long
  exact ⟨by rw [parts, later], vs, later⟩

theorem munchOther {c : Char} (other : c ≠ '\\') (rest : List Char) :
    mark? c = some (munch c rest).1 ∨
      ∃ letters, (munch c rest).1 = .number letters ∨ (munch c rest).1 = .text letters := by
  rw [munch, if_neg other]
  cases mark? c with
  | some w => exact .inl rfl
  | none =>
      simp only
      split
      · exact .inr ⟨_, .inl rfl⟩
      · exact .inr ⟨_, .inr rfl⟩

theorem munchBackslash {c : Char} {rest : List Char} (word : (munch c rest).1 = .backslash) :
    c = '\\' ∧ (munch c rest).2 = 0 := by
  by_cases backslash : c = '\\'
  · refine ⟨backslash, ?_⟩
    rw [munch, if_pos backslash] at word ⊢
    unfold afterBackslash at word ⊢
    split at word <;> first | rfl | cases word | skip
    split at word
    · cases word
    · rfl
  · obtain mark | ⟨letters, number | text⟩ := munchOther backslash rest
    · rw [word] at mark
      unfold mark? at mark
      split at mark <;> first | exact absurd rfl backslash | cases mark
    · cases number.symm.trans word
    · cases text.symm.trans word

structure StartsBracket (d : Char) : Prop where
  ordinary : isOrdinary d = false
  escaped (ds : List Char) : (afterBackslash (d :: ds)).1 ≠ .backslash

theorem startsBracket {b : Bracket} (round : b = .paren ∨ b = .escapedBrace)
    (word : (munch d ds).1 = .opening b ∨ (munch d ds).1 = .closing b) : StartsBracket d := by
  by_cases backslash : d = '\\'
  · subst backslash
    exact ⟨rfl, fun _ => by simp [afterBackslash]⟩
  · have bracket : d = '(' ∨ d = ')' := by
      obtain mark | ⟨letters, number | text⟩ := munchOther backslash ds
      · replace word := word.imp (mark.trans <| congrArg some ·) (mark.trans <| congrArg some ·)
        unfold mark? at word
        rcases round with rfl | rfl
        · split at word <;> first | exact .inl rfl | exact .inr rfl | simp at word
        · split at word <;> simp at word
      · simp [number] at word
      · simp [text] at word
    rcases bracket with rfl | rfl
    · exact ⟨rfl, fun _ => by simp [afterBackslash]⟩
    · exact ⟨rfl, fun _ => by simp [afterBackslash]⟩

def BeginsBracket (cs : List Char) : Prop := ∃ d rest, cs = d :: rest ∧ StartsBracket d

theorem BeginsBracket.append (begins : BeginsBracket cs) : BeginsBracket (cs ++ ds) := by
  obtain ⟨d, rest, rfl, starts⟩ := begins
  exact ⟨d, rest ++ ds, rfl, starts⟩

theorem unescapedBefore {more : List Token} (starts : StartsBracket d)
    (parts : lexFrom place (cs ++ d :: ds) = lexFrom place cs ++ more) :
    (lexFrom place cs).getLast?.bind Token.word? ≠ some .backslash := by
  fun_induction lexFrom place cs with
  | case1 => simp
  | case2 place c rest taken stop ih =>
      rw [List.cons_append, lexFrom, List.cons_append] at parts
      obtain ⟨same, later⟩ := List.cons.inj parts
      have within : taken.2 ≤ rest.length := munchLength c rest
      obtain ⟨word, long⟩ : (munch c (rest ++ d :: ds)).1 = taken.1
          ∧ (munch c (rest ++ d :: ds)).2 = taken.2 := by
        injection same with word places
        injection places with _ stops
        exact ⟨word, by simp only [stop] at stops; omega⟩
      rw [long, List.drop_append_of_le_length within] at later
      have onward := ih later
      rw [List.getLast?_cons]
      cases behind : (lexFrom stop (rest.drop taken.2)).getLast? with
      | some u =>
          rw [behind] at onward
          exact onward
      | none =>
          intro last
          have backslash : taken.1 = .backslash := Option.some.inj last
          obtain ⟨rfl, none⟩ := munchBackslash backslash
          have nothing : rest = [] := by
            cases rest with
            | nil => rfl
            | cons c rest =>
                rw [List.getLast?_eq_none_iff, show taken.2 = 0 from none, List.drop_zero,
                  lexFrom] at behind
                cases behind
          rw [nothing, List.nil_append, munch, if_pos rfl, backslash] at word
          exact starts.escaped ds word

theorem bracketSeam {b : Bracket} (round : b = .paren ∨ b = .escapedBrace)
    (word : t.word? = some (.opening b) ∨ t.word? = some (.closing b))
    (member : t ∈ lexFrom place (cs ++ ds)) (start : t.span.start = place + cs.length) :
    lexFrom place (cs ++ ds) = lexFrom place cs ++ lexFrom (place + cs.length) ds ∧
      (lexFrom place cs).getLast?.bind Token.word? ≠ some .backslash ∧
      BeginsBracket ds ∧ ∃ more, lexFrom (place + cs.length) ds = t :: more := by
  obtain ⟨parts, more, first⟩ := lexFromAt member start
  cases ds with
  | nil =>
      rw [lexFrom] at first
      cases first
  | cons d rest =>
      have same := first
      rw [lexFrom] at same
      obtain ⟨rfl, -⟩ := List.cons.inj same
      have starts : StartsBracket d := startsBracket round
        (word.imp (fun word => Option.some.inj word) fun word => Option.some.inj word)
      exact ⟨parts, unescapedBefore starts parts, ⟨d, rest, rfl, starts⟩, more, first⟩

end Lexing

section Names

variable {place : Nat} {cs ds : List Char} {d : Char} {t : Token} {name : String}

theorem sizingReads (sizing : name = "left" ∨ name = "right") (starts : StartsBracket d)
    (place : Nat) (ds : List Char) : namedFrom place ('\\' :: (name.toList ++ d :: ds))
      = .plain (.stub name) ⟨place, place + 1 + name.length⟩
        :: namedFrom (place + 1 + name.length) (d :: ds) := by
  obtain ⟨c, run, chars, all, plain, unnamed⟩ : ∃ c run, name.toList = c :: run ∧
      run.all isOrdinary = true ∧ (∀ more, afterBackslash (c :: more) = (.backslash, 0)
        ∧ munch c more = (.text (String.ofList (c :: more.takeWhile isOrdinary)),
          (more.takeWhile isOrdinary).length)) ∧ meaning? name = none := by
    rcases sizing with rfl | rfl
    · exact ⟨'l', ['e', 'f', 't'], rfl, rfl, fun _ => ⟨rfl, rfl⟩, by cbv⟩
    · exact ⟨'r', ['i', 'g', 'h', 't'], rfl, rfl, fun _ => ⟨rfl, rfl⟩, by cbv⟩
  have stops : (run ++ d :: ds).takeWhile isOrdinary = run :=
    takeWhileRun (List.all_eq_true.mp all) (by simp [starts.ordinary])
  have long : name.length = 1 + run.length := by
    rw [← String.length_toList, chars, List.length_cons, Nat.add_comm]
  have letters := lexFromMunch (place + 1) ((plain (run ++ d :: ds)).2.trans (by rw [stops]))
  rw [← List.cons_append, ← chars, String.ofList_toList, Nat.add_assoc, ← long] at letters
  have slash : lexFrom place ('\\' :: (name.toList ++ d :: ds))
      = .plain .backslash ⟨place, place + 1⟩ :: lexFrom (place + 1) (name.toList ++ d :: ds) := by
    refine @lexFromMunch _ [] _ _ place ?_
    rw [chars]
    exact (plain _).1
  rw [namedFrom, slash, letters, formStubs]
  simp [resolveNames, resolveName, unnamed, namedFrom, Span.through]

theorem namedSizing (sizing : name = "left" ∨ name = "right") (begins : BeginsBracket ds)
    (unescaped : (lexFrom place cs).getLast?.bind Token.word? ≠ some .backslash) :
    namedFrom place (cs ++ '\\' :: (name.toList ++ ds)) = namedFrom place cs
      ++ .plain (.stub name) ⟨place + cs.length, place + cs.length + 1 + name.length⟩
        :: namedFrom (place + cs.length + 1 + name.length) ds := by
  obtain ⟨d, ds, rfl, starts⟩ := begins
  rw [← sizingReads sizing starts, namedBeforeBackslash unescaped]

theorem namedBracket {b : Bracket}
    (word : t.word? = some (.opening b) ∨ t.word? = some (.closing b)) {more : List Token}
    (lexed : lexFrom place ds = t :: more) :
    ∃ more, namedFrom place ds = t :: more := by
  cases t with
  | command => simp [Token.word?] at word
  | plain w span =>
      rw [namedFrom, lexed, formStubs]
      · rcases word with ⟨⟨⟩⟩ | ⟨⟨⟩⟩ <;> exact ⟨_, rfl⟩
      · rintro _ _ _ _ ⟨⟩
        simp [Token.word?] at word

structure DividedAt (opener closer : Token) (as ms es : List Char) : Prop where
  begins : BeginsBracket ms
  begins' : BeginsBracket es
  unescaped : (lexFrom 0 as).getLast?.bind Token.word? ≠ some .backslash
  unescaped' : (lexFrom 0 ms).getLast?.bind Token.word? ≠ some .backslash
  opens : ∃ more, namedFrom as.length ms = opener :: more
  closes : ∃ more, namedFrom (as.length + ms.length) es = closer :: more
  whole : namedFrom 0 (as ++ (ms ++ es))
    = namedFrom 0 as ++ (namedFrom as.length ms ++ namedFrom (as.length + ms.length) es)

theorem dividedAt {b : Bracket} (round : b = .paren ∨ b = .escapedBrace) {as ms es : List Char}
    {stop stop' : Nat}
    (opens : .plain (.opening b) ⟨as.length, stop⟩ ∈ lexFrom 0 (as ++ (ms ++ es)))
    (closes : .plain (.closing b) ⟨as.length + ms.length, stop'⟩ ∈ lexFrom 0 (as ++ (ms ++ es))) :
    DividedAt (.plain (.opening b) ⟨as.length, stop⟩)
      (.plain (.closing b) ⟨as.length + ms.length, stop'⟩) as ms es := by
  obtain ⟨parts, unescaped, begins, more, first⟩ :=
    bracketSeam round (.inl rfl) opens (Nat.zero_add _).symm
  rw [Nat.zero_add] at parts first
  have later : .plain (.closing b) ⟨as.length + ms.length, stop'⟩
      ∈ lexFrom as.length (ms ++ es) := by
    refine (List.mem_append.mp (parts ▸ closes)).resolve_left fun before => ?_
    have within := (lexFromTiles 0 as).within before
    simp only [Token.span] at within
    omega
  obtain ⟨parts', unescaped', begins', more', second⟩ :=
    bracketSeam round (.inr rfl) later rfl
  obtain ⟨d, rest, rfl⟩ : ∃ d rest, ms = d :: rest := by
    refine List.exists_cons_of_ne_nil fun nothing => ?_
    subst nothing
    have same := first.symm.trans second
    simp at same
  obtain ⟨us, front⟩ : ∃ us,
      lexFrom as.length (d :: rest) = .plain (.opening b) ⟨as.length, stop⟩ :: us := by
    rw [first, lexFrom, List.cons_append] at parts'
    rw [lexFrom, (List.cons.inj parts').1]
    exact ⟨_, rfl⟩
  obtain ⟨d', rest', same, starts⟩ := begins
  refine ⟨⟨d, rest, rfl, (List.cons.inj same).1 ▸ starts⟩, begins', unescaped,
    lastWordFurther as.length _ ▸ unescaped', namedBracket (.inl rfl) front,
    namedBracket (.inr rfl) second, ?_⟩
  have apart := @namedApart 0 as _ unescaped (by rw [Nat.zero_add, parts])
  rw [apart, Nat.zero_add, namedApart unescaped' parts']

theorem DividedAt.sized {opener closer : Token} {as ms es : List Char}
    (divided : DividedAt opener closer as ms es) :
    namedFrom 0 (as ++ '\\' :: ("left".toList ++ (ms ++ '\\' :: ("right".toList ++ es))))
      = namedFrom 0 as ++ .plain (.stub "left") ⟨as.length, as.length + 5⟩
        :: (namedFrom (as.length + 5) ms
          ++ .plain (.stub "right") ⟨as.length + ms.length + 5, as.length + ms.length + 11⟩
            :: namedFrom (as.length + ms.length + 11) es) := by
  have left := @namedSizing 0 as _ _ (.inl rfl)
    (@BeginsBracket.append ms ('\\' :: ("right".toList ++ es)) divided.begins) divided.unescaped
  have right := @namedSizing (as.length + 5) ms _ _ (.inr rfl) divided.begins'
    (lastWordFurther (as.length + 5) ms ▸ divided.unescaped')
  rw [show as.length + 5 + ms.length = as.length + ms.length + 5 by omega] at right
  rw [left, Nat.zero_add]
  exact congrArg (_ ++ _ :: ·) right

end Names

section Moving

def along (f : Nat → Nat) : Relocation := ⟨fun s => ⟨f s.start, f s.stop⟩, fun _ _ => rfl⟩

theorem namedFromMoved {f : Nat → Nat} {text : String} {j k : Nat}
    (back : ∀ x ≤ text.length, f (x + k) = x + j) :
    (namedFrom k text.toList).map (Token.moved (along f)) = namedFrom j text.toList := by
  rw [namedFromShifted, namedFromShifted, List.map_map]
  refine List.map_congr_left fun t member => ?_
  have spelled := namedTokensSpelled text t member
  have within := (namedTiles text).within member
  cases t with
  | command => cases spelled
  | plain w place =>
      have start := back place.start (Nat.le_trans (Nat.le_of_lt within.2.1) within.2.2)
      have stop := back place.stop within.2.2
      exact congrArg (Token.plain w) (congrArg₂ Span.mk start stop)

def closingUp (first second : Nat) : Nat → Nat := fun x =>
  if x ≤ first then x else if x ≤ second + 5 then max first (x - 5) else max second (x - 11)

theorem closingUpBefore {first second x : Nat} (before : x ≤ first) :
    closingUp first second x = x := if_pos before

theorem closingUpWithin {first second x : Nat} (within : x + first ≤ second) :
    closingUp first second (x + (first + 5)) = x + first := by
  rw [closingUp, if_neg (by omega), if_pos (by omega)]
  omega

theorem closingUpBehind {first second x : Nat} (within : first ≤ second) :
    closingUp first second (x + (second + 11)) = x + second := by
  rw [closingUp, if_neg (by omega), if_neg (by omega)]
  omega

def StandsWithin (p : Span) (text : String) (w : Word) (start : Nat) : Prop :=
  ∃ stop, .plain w ⟨start, stop⟩ ∈ lex text ∧ p.start ≤ start ∧ stop ≤ p.stop

variable {b : Bracket} {p : Span} {before within after : String}

theorem sizingMoved {f : Nat → Nat} {name : String} (sizing : name = "left" ∨ name = "right")
    (round : b = .paren ∨ b = .escapedBrace) {w : Word} (bracket : w = .opening b ∨ w = .closing b)
    {first last start stop : Nat} (place : f first = start)
    (inside : p.start ≤ start ∧ stop ≤ p.stop) :
    SizingFor p ((Token.plain (.stub name) ⟨first, last⟩).moved (along f))
      (.plain w ⟨start, stop⟩) where
  sizing := by rcases sizing with rfl | rfl <;> rfl
  bracket := by rcases round with rfl | rfl <;> rcases bracket with rfl | rfl <;> rfl
  start := place
  within := inside

theorem namedSized (round : b = .paren ∨ b = .escapedBrace)
    (opens : StandsWithin p (before ++ within ++ after) (.opening b) before.length)
    (closes : StandsWithin p (before ++ within ++ after) (.closing b) (before ++ within).length) :
    Sized p (namedTokens (before ++ within ++ after))
      ((namedTokens (before ++ "\\left" ++ within ++ "\\right" ++ after)).map
        (Token.moved (along (closingUp before.length (before ++ within).length)))) := by
  obtain ⟨stop, opener, inside⟩ := opens
  obtain ⟨stop', closer, inside'⟩ := closes
  rw [String.length_append] at closer inside' ⊢
  have named (text : String) : namedTokens text = namedFrom 0 text.toList := rfl
  have chars : (before ++ within ++ after).toList
      = before.toList ++ (within.toList ++ after.toList) := by simp
  have chars' : (before ++ "\\left" ++ within ++ "\\right" ++ after).toList
      = before.toList ++ '\\' :: ("left".toList
        ++ (within.toList ++ '\\' :: ("right".toList ++ after.toList))) := by simp
  simp only [← String.length_toList, lex, chars] at opener closer
  have divided := dividedAt round opener closer
  have sized := divided.sized
  obtain ⟨us, front⟩ := divided.opens
  obtain ⟨vs, behind⟩ := divided.closes
  have whole := divided.whole
  simp only [String.length_toList] at sized front behind whole inside inside'
  rw [named, chars, whole, named, chars', sized, List.map_append, List.map_cons, List.map_append,
    List.map_cons, namedFromMoved (j := 0) fun x most => closingUpBefore most,
    namedFromMoved fun x most => closingUpWithin (by omega),
    namedFromMoved fun x most => closingUpBehind (by omega), front, behind]
  have middle : closingUp before.length (before.length + within.length)
      (before.length + within.length + 5) = before.length + within.length := by
    rw [closingUp, if_neg (by omega), if_pos (by omega)]
    omega
  refine (Sized.refl _).append (.word ?_ ?_)
  · exact sizingMoved (.inl rfl) round (.inl rfl) (closingUpBefore (Nat.le_refl _)) inside
  · refine (Sized.refl _).append (.word ?_ (Sized.refl vs))
    exact sizingMoved (.inr rfl) round (.inr rfl) middle inside'

end Moving

section Slices

variable {text : String} {code slice : List Token} {t : Token} {p : Span}

theorem Contains.long (contains : Contains t) : t.span.start < t.span.stop :=
  (contains [t] List.mem_cons_self t List.mem_cons_self).2.1

theorem asKeywordContains (contains : Contains t) : Contains (asKeyword t) := by
  unfold asKeyword
  split
  · split
    · exact containsPlain contains.long
    · exact contains
  · exact contains

theorem codeContains {s : Reader} {ts : List Token} (contains : ∀ t ∈ ts, Contains t) :
    ∀ t ∈ s.code ts, Contains t := by
  induction ts generalizing s with
  | nil => simp [Reader.code, Reader.after, normalize]
  | cons t rest ih =>
      obtain ⟨here, later⟩ := List.forall_mem_cons.mp contains
      rw [codeCons]
      intro u member
      rcases List.mem_append.mp member with first | behind
      · obtain ⟨v, kept, rfl⟩ := List.mem_map.mp first
        replace kept := List.mem_of_mem_filter kept
        refine asKeywordContains ?_
        obtain ⟨nothing, -⟩ | ⟨_, _, _, same⟩ | same := nextCases s t
        · rw [nothing] at kept
          cases kept
        · rw [same] at kept
          exact List.mem_singleton.mp kept ▸ here
        · rw [same] at kept
          exact List.mem_singleton.mp kept ▸ containsPlain here.long
      · exact ih later u behind

theorem capturedContains (text : String) : ∀ t ∈ captured text, Contains t := by
  obtain ⟨kept, made⟩ := capturedExists (namedTokens text)
  exact made.contains (namedTiles text) (namedTokensSpelled text)

theorem sliceTokens (reads : codeTokens text = .ok code) (member : slice ∈ intoSlices code) :
    (∀ t ∈ slice, Contains t) ∧ slice.Pairwise fun t u => t.span.stop ≤ u.span.start := by
  rw [codeTokensCaptured] at reads
  split at reads
  · cases reads
  obtain ⟨-, rfl⟩ := filterOk.mp reads
  rw [slicesLooped] at member
  have fewer : (slicesOf _).flatten.Sublist (Reader.outside.code (captured text)) :=
    slicesSublist _
  constructor
  · intro t inside
    exact codeContains (capturedContains text) t
      (fewer.subset (List.mem_flatten.mpr ⟨slice, member, inside⟩))
  · have ascend := (capturedTiles text).ascend.sublist
      ((fewer.map Token.span).trans (codeSpans .outside (captured text)))
    rw [List.pairwise_map, List.pairwise_flatten] at ascend
    exact ascend.1 slice member

theorem memberPartSublist (value : List Token) : (memberPart value).Sublist value := by
  unfold memberPart
  split
  · exact (List.dropLast_sublist _).trans (List.sublist_cons_self _ _)
  · exact .refl _

theorem valuePartSublist (slice : List Token) : (valuePart slice).Sublist slice := by
  obtain none | ⟨before, sign, after, rfl, none, found⟩ := cutAtAll isDecidingSign slice
  · rw [valuePart, shape, cutAtNone none]
  · have behind : after.Sublist (before ++ sign :: after) :=
      (List.sublist_cons_self _ _).trans (List.sublist_append_right _ _)
    rw [valuePart, shape, cutAtFirst none found]
    by_cases colon : sign.word? = some .colon
    · simp [colon]
    · by_cases paren : mentions (.opening .paren) before = true
      · simpa only [if_neg colon, if_pos paren] using behind
      · simpa only [if_neg colon, if_neg paren] using (memberPartSublist after).trans behind

theorem spanOfReach {ts : List Token} (place : spanOf ts = some p) :
    (∃ t ∈ ts, t.span.start = p.start) ∧ ∃ t ∈ ts, t.span.stop = p.stop := by
  cases ts with
  | nil => cases place
  | cons t rest =>
      cases place
      exact ⟨⟨t, List.mem_cons_self, rfl⟩, _, List.getLast_mem (List.cons_ne_nil t rest), rfl⟩

def ValueAt (text : String) (p : Span) : Prop :=
  ∃ code slice statement, codeTokens text = .ok code ∧ slice ∈ intoSlices code ∧
    parseStatement slice = .ok statement ∧ spanOf (valuePart slice) = some p

theorem otherSliceClear {other : List Token} (reads : codeTokens text = .ok code)
    (member : slice ∈ intoSlices code) (place : spanOf (valuePart slice) = some p)
    (member' : other ∈ intoSlices code) (different : other ≠ slice) : Clear p other := by
  let Apart (a b : List Token) : Prop := (∀ t ∈ a, ∀ u ∈ b, t.span.stop ≤ u.span.start)
    ∨ ∀ t ∈ a, ∀ u ∈ b, u.span.stop ≤ t.span.start
  have apart : (intoSlices code).Pairwise Apart := (slicesAscend reads).imp .inl
  have symmetric : Std.Symm Apart := ⟨fun a b apart => apart.symm.imp
    (fun apart t here u there => apart u there t here)
    fun apart t here u there => apart u there t here⟩
  have either : Apart other slice := apart.forall member' member different
  obtain ⟨⟨first, inside, start⟩, last, inside', stop⟩ := spanOfReach place
  refine clearOutside (sliceTokens reads member').1 fun t here => ?_
  rcases either with before | behind
  · exact .inl (start ▸ before t here first ((valuePartSublist slice).subset inside))
  · exact .inr (stop ▸ behind t here last ((valuePartSublist slice).subset inside'))

end Slices

section Documents

variable {b : Bracket} {p : Span} {before within after text : String}

theorem mapMSame {α β : Type} {R : α → α → Prop} {f : α → Parsed β} {as bs : List α}
    (alike : List.Forall₂ R as bs) (same : ∀ a b, a ∈ as → R a b → f b = f a) :
    bs.mapM f = as.mapM f := by
  induction alike with
  | nil => rfl
  | @cons a b as bs first _ ih =>
      rw [List.mapM_cons, List.mapM_cons, same a b List.mem_cons_self first,
        ih fun a b member => same a b (List.mem_cons_of_mem _ member)]

theorem statementsSized {code : List Token} {slices : List (List Token)}
    (reads : codeTokens text = .ok code) (value : ValueAt text p)
    (sized : List.Forall₂ (Sized p) (intoSlices code) slices) :
    slices.mapM parseStatement = (intoSlices code).mapM parseStatement := by
  obtain ⟨code', slice, statement, reads', member, read, place⟩ := value
  obtain rfl : code = code' := by
    rw [reads] at reads'
    exact Except.ok.inj reads'
  obtain ⟨contains, ascends⟩ := sliceTokens reads member
  refine mapMSame sized fun other other' member' sized => ?_
  by_cases same : other = slice
  · subst same
    rw [read]
    exact statementSized read place contains ascends sized
  · rw [sized.clear (otherSliceClear reads member place member' same)]

theorem codeSized {code : List Token} {r : Relocation} {text' : String}
    (reads : codeTokens text = .ok code)
    (sized : Sized p (captured text) ((captured text').map (Token.moved r))) :
    ∃ code', codeTokens text' = .ok code' ∧ Sized p code (code'.map (Token.moved r)) := by
  rw [codeTokensCaptured] at reads ⊢
  split at reads
  · cases reads
  rename_i shallow
  obtain ⟨ended, rfl⟩ := filterOk.mp reads
  have level := nestingSized sized
  rw [← movedTokensMap, nestingMoved] at level
  obtain ⟨state, code⟩ := afterSized sized .outside
  have moved := @filterMoved r .outside (captured text')
  rw [show Reader.outside.moved r = .outside from rfl, filterOk.mpr ⟨state ▸ ended, rfl⟩] at moved
  rw [if_neg (level ▸ shallow)]
  cases found : Reader.outside.filter (captured text') with
  | error failure =>
      rw [found] at moved
      cases moved
  | ok code' =>
      rw [found] at moved
      exact ⟨code', rfl, Except.ok.inj moved ▸ code⟩

theorem outcomeForget (r : Relocation) (x : Parsed (List Statement)) :
    Relocation.forget.outcome (List.map (Statement.moved .forget))
        (r.outcome (List.map (Statement.moved r)) x)
      = Relocation.forget.outcome (List.map (Statement.moved .forget)) x := by
  cases x with
  | ok statements => simp [Function.comp_def, Statement.forgetMoved]
  | error failure =>
      cases failure with
      | malformed fault place => simp only [outcomeError, ParseFailure.moved, forgetPlace]
      | _ => rfl

theorem expressionValue {slice : List Token} {e : Expr}
    (read : parseStatement slice = .ok (.expression e)) : valuePart slice = slice := by
  have declared {name value : List Token} {s : Statement}
      (found : parseValueDeclaration name value = .ok s) :
      s.putAt (spanOf slice) ≠ .expression e := by
    obtain ⟨n, -, later⟩ := bindIsOk.mp found
    split at later
    · split at later
      · cases later
      · obtain ⟨_, -, later⟩ := bindIsOk.mp later
        split at later
        · cases later
        · obtain ⟨_, -, made⟩ := bindIsOk.mp later
          cases made
          simp [Statement.putAt]
    · obtain ⟨_, -, made⟩ := bindIsOk.mp later
      cases made
      simp [Statement.putAt]
  unfold parseStatement at read
  unfold valuePart
  split at read
  · rename_i same
    rw [same]
  · obtain ⟨_, -, made⟩ := bindIsOk.mp read
    cases made
  · obtain ⟨_, -, made⟩ := bindIsOk.mp read
    cases made
  · obtain ⟨_, found, made⟩ := bindIsOk.mp read
    exact absurd (Except.ok.inj made) (declared found)

theorem expressionValueAt {d : Document} {statements : List Statement} {e : Expr}
    (parsed : d.parse = .ok statements) (member : .expression e ∈ statements)
    (place : e.place = some p) : ValueAt d.text p := by
  obtain ⟨code, reads, each⟩ := bindIsOk.mp parsed
  obtain ⟨slice, inCode, read⟩ := mapMFrom each _ member
  refine ⟨code, slice, .expression e, reads, inCode, read, ?_⟩
  rw [expressionValue read, ← parsedPlace read]
  exact place

/-- Before a round bracket or an escaped brace of a value and before a closing one behind it,
partners or not, the sizing words change nothing in what a document says. -/
theorem sizingMeansNothing (round : b = .paren ∨ b = .escapedBrace)
    (value : ValueAt (before ++ within ++ after) p)
    (opens : StandsWithin p (before ++ within ++ after) (.opening b) before.length)
    (closes : StandsWithin p (before ++ within ++ after) (.closing b) (before ++ within).length)
    (path : Option String) :
    (⟨before ++ "\\left" ++ within ++ "\\right" ++ after, path⟩ : Document).reading
      = (⟨before ++ within ++ after, path⟩ : Document).reading := by
  obtain ⟨code, slice, statement, reads, found⟩ := value
  have named := namedSized round opens closes
  have sized := captureSized named
  rw [captureArgumentsMoved] at sized
  obtain ⟨code', reads', sizedCode⟩ := codeSized reads sized
  have slices := slicesSized (normalizeSized sizedCode)
  rw [← slicesLooped, ← slicesLooped, intoSlicesMoved] at slices
  have same := statementsSized reads ⟨code, slice, statement, reads, found⟩ slices
  rw [statementsFurther] at same
  rw [Document.reading, Document.reading, Document.parse, Document.parse, reads, reads', bindOk,
    bindOk, ← same, outcomeForget]

theorem numeratorSized :
    let before := "\\$(\\frac\x7b"
    let within := "(1+2"
    let after := ")\x7d\x7b3\x7d\\$)"
    let sum := Expr.binary (.operator .addition) (.literal (.integer 1) (some ⟨10, 11⟩))
      (.literal (.integer 2) (some ⟨12, 13⟩)) none
    (⟨before ++ within ++ after, none⟩ : Document).parse = .ok [.expression (.binary
          (.operator .division) sum (.literal (.integer 3) (some ⟨16, 17⟩)) (some ⟨3, 18⟩))]
      ∧ (⟨before ++ "\\left" ++ within ++ "\\right" ++ after, none⟩ : Document).reading
        = (⟨before ++ within ++ after, none⟩ : Document).reading := by
  intro before within after sum
  have parsed : (⟨before ++ within ++ after, none⟩ : Document).parse = .ok [.expression (.binary
      (.operator .division) sum (.literal (.integer 3) (some ⟨16, 17⟩)) (some ⟨3, 18⟩))] := by cbv
  have words : lex (before ++ within ++ after) = [.plain (.regionOpening .inline) ⟨0, 3⟩,
      .plain .backslash ⟨3, 4⟩, .plain (.text "frac") ⟨4, 8⟩, .plain (.opening .brace) ⟨8, 9⟩,
      .plain (.opening .paren) ⟨9, 10⟩, .plain (.number "1") ⟨10, 11⟩,
      .plain (.sign .plus) ⟨11, 12⟩, .plain (.number "2") ⟨12, 13⟩,
      .plain (.closing .paren) ⟨13, 14⟩, .plain (.closing .brace) ⟨14, 15⟩,
      .plain (.opening .brace) ⟨15, 16⟩, .plain (.number "3") ⟨16, 17⟩,
      .plain (.closing .brace) ⟨17, 18⟩, .plain (.regionClosing .inline) ⟨18, 21⟩] := by cbv
  have value := expressionValueAt (p := ⟨3, 18⟩) parsed List.mem_cons_self rfl
  have opens : StandsWithin ⟨3, 18⟩ (before ++ within ++ after) (.opening .paren)
      before.length := by
    rw [show before.length = 9 by cbv, StandsWithin, words]
    exact ⟨10, by simp, by decide, by decide⟩
  have closes : StandsWithin ⟨3, 18⟩ (before ++ within ++ after) (.closing .paren)
      (before ++ within).length := by
    rw [show (before ++ within).length = 13 by cbv, StandsWithin, words]
    exact ⟨14, by simp, by decide, by decide⟩
  exact ⟨parsed, sizingMeansNothing (.inl rfl) value opens closes none⟩

theorem squareUnread :
    let before := "\\$("
    let within := "[1"
    let after := "]\\$)"
    ValueAt (before ++ within ++ after) ⟨3, 6⟩
      ∧ StandsWithin ⟨3, 6⟩ (before ++ within ++ after) (.opening .square) before.length
      ∧ StandsWithin ⟨3, 6⟩ (before ++ within ++ after) (.closing .square) (before ++ within).length
      ∧ (⟨before ++ within ++ after, none⟩ : Document).parse
        = .ok [.expression (.literal (.integer 1) (some ⟨3, 6⟩))]
      ∧ (⟨before ++ "\\left" ++ within ++ "\\right" ++ after, none⟩ : Document).parse
        = .error (.malformed (.meaninglessCommand "left") (some ⟨3, 17⟩)) := by
  intro before within after
  have parsed : (⟨before ++ within ++ after, none⟩ : Document).parse
      = .ok [.expression (.literal (.integer 1) (some ⟨3, 6⟩))] := by cbv
  have words : lex (before ++ within ++ after) = [.plain (.regionOpening .inline) ⟨0, 3⟩,
      .plain (.opening .square) ⟨3, 4⟩, .plain (.number "1") ⟨4, 5⟩,
      .plain (.closing .square) ⟨5, 6⟩, .plain (.regionClosing .inline) ⟨6, 9⟩] := by cbv
  have value := expressionValueAt (p := ⟨3, 6⟩) parsed List.mem_cons_self rfl
  refine ⟨value, ?_, ?_, parsed, by cbv⟩
  · rw [show before.length = 3 by cbv, StandsWithin, words]
    exact ⟨4, by simp, by decide, by decide⟩
  · rw [show (before ++ within).length = 5 by cbv, StandsWithin, words]
    exact ⟨6, by simp, by decide, by decide⟩

end Documents

end LiterateMath
