import LiterateMath.Proofs.Places.Document

/-! Where two texts meet. No pass over the tokens of a text goes past a character that ends
every word, or past a token that neither names a command nor opens a group, unless a group
that was opened before is still to be closed. -/
namespace LiterateMath

section Lexing

theorem takeWhileStops {p : Char → Bool} {d : Char} (stops : p d = false) (cs ds : List Char) :
    (cs ++ d :: ds).takeWhile p = cs.takeWhile p := by
  induction cs with
  | nil => simp [stops]
  | cons c cs ih => simp only [List.cons_append, List.takeWhile_cons, ih]

theorem afterBackslashTwo (c e : Char) (xs ys : List Char) :
    afterBackslash (c :: e :: xs) = afterBackslash (c :: e :: ys) := by
  unfold afterBackslash
  split <;> rename_i h <;> cases h <;> first | rfl | (split <;> simp_all)

theorem afterBackslashOne {d : Char} (marker : d ≠ '(' ∧ d ≠ '[' ∧ d ≠ ')' ∧ d ≠ ']') (c : Char)
    (ds : List Char) : afterBackslash (c :: d :: ds) = afterBackslash [c] := by
  unfold afterBackslash
  split <;> rename_i h <;> cases h <;> first | rfl | (split <;> simp_all)

theorem afterBackslashLength (cs : List Char) : (afterBackslash cs).2 ≤ cs.length := by
  unfold afterBackslash
  split <;> try simp
  split <;> simp

theorem munchLength (c : Char) (rest : List Char) : (munch c rest).2 ≤ rest.length := by
  unfold munch
  split
  · exact afterBackslashLength rest
  · split
    · exact Nat.zero_le _
    · split <;> exact (List.takeWhile_sublist _).length_le

structure EndsWords (d : Char) : Prop where
  ordinary : isOrdinary d = false
  digit : d.isDigit = false
  marker : d ≠ '(' ∧ d ≠ '[' ∧ d ≠ ')' ∧ d ≠ ']'

theorem newlineEnds : EndsWords '\n' := ⟨by decide, by decide, by decide⟩

theorem spaceEnds : EndsWords ' ' := ⟨by decide, by decide, by decide⟩

theorem percentEnds : EndsWords '%' := ⟨by decide, by decide, by decide⟩

theorem munchSeam {d : Char} (ends : EndsWords d) {c : Char} {rest ds : List Char}
    (escape : c = '\\' → rest = [] → afterBackslash (d :: ds) = afterBackslash []) :
    munch c (rest ++ d :: ds) = munch c rest := by
  unfold munch
  split
  · rename_i backslash
    match rest with
    | [] => exact escape backslash rfl
    | [e] => exact afterBackslashOne ends.marker e ds
    | e :: e' :: more => exact afterBackslashTwo e e' _ _
  · rw [takeWhileStops ends.ordinary, takeWhileStops ends.digit]

theorem lexFromSeam {d : Char} (ends : EndsWords d) {place : Nat} {cs ds : List Char}
    (escape : (lexFrom place cs).getLast?.bind Token.word? = some .backslash →
      afterBackslash (d :: ds) = afterBackslash []) :
    lexFrom place (cs ++ d :: ds)
      = lexFrom place cs ++ lexFrom (place + cs.length) (d :: ds) := by
  fun_induction lexFrom place cs with
  | case1 => simp
  | case2 place c rest taken stop ih =>
      have within : taken.2 ≤ rest.length := munchLength c rest
      have same : munch c (rest ++ d :: ds) = taken := munchSeam ends fun backslash nothing => by
        subst backslash nothing
        exact escape (by simp [lexFrom, taken, munch, afterBackslash, Token.word?])
      have later := ih fun last => escape (by
        cases more : lexFrom stop (rest.drop taken.2) with
        | nil => simp [more] at last
        | cons t ts => rwa [more, ← List.getLast?_cons_cons] at last)
      have reach : stop + (rest.drop taken.2).length = place + (c :: rest).length := by
        simp only [stop, List.length_drop, List.length_cons]
        omega
      rw [List.cons_append, lexFrom, List.cons_append]
      simp only [same, List.drop_append_of_le_length within]
      rw [later, reach]

inductive Blank : String → Word → Prop where
  | space : Blank " " .space
  | newline : Blank "\n" .newline

theorem Blank.char {blank : String} {w : Word} (h : Blank blank w) :
    ∃ c, blank.toList = [c] ∧ EndsWords c ∧ (∀ ds, munch c ds = (w, 0))
      ∧ ∀ ds, afterBackslash (c :: ds) = afterBackslash [] := by
  cases h with
  | space => exact ⟨' ', rfl, spaceEnds, fun _ => rfl, fun _ => rfl⟩
  | newline => exact ⟨'\n', rfl, newlineEnds, fun _ => rfl, fun _ => rfl⟩

theorem lexBlank {blank : String} {w : Word} (h : Blank blank w) (text more : String) :
    lex (text ++ blank ++ more) = lex text
      ++ .plain w ⟨text.length, text.length + 1⟩
        :: (lex more).map (Token.moved (.shift (text.length + 1))) := by
  obtain ⟨c, char, ends, alone, escape⟩ := h.char
  have chars : (text ++ blank ++ more).toList = text.toList ++ c :: more.toList := by simp [char]
  rw [lex, chars, lexFromSeam ends fun _ => escape _, lexFrom, alone, lexFromZero (_ + 1 + 0),
    Nat.zero_add, String.length_toList]
  rfl

end Lexing

section Names

theorem formStubsSeam {t : Token} (other : ∀ letters, t.word? ≠ some (.text letters))
    (as bs : List Token) : formStubs (as ++ t :: bs) = formStubs as ++ formStubs (t :: bs) := by
  fun_induction formStubs as with
  | case1 first name last rest ih => simp only [List.cons_append, formStubs, ih]
  | case2 a rest single ih =>
      rw [List.cons_append, formStubs, ih, List.cons_append]
      rintro first name last rest' rfl same
      cases rest with
      | nil =>
          cases same
          exact other name rfl
      | cons b rest =>
          cases same
          exact single _ _ _ _ rfl rfl
  | case3 => rfl

theorem namedBlank {blank : String} {w : Word} (h : Blank blank w) (text more : String) :
    namedTokens (text ++ blank ++ more) = namedTokens text
      ++ .plain w ⟨text.length, text.length + 1⟩
        :: (namedTokens more).map (Token.moved (.shift (text.length + 1))) := by
  rw [namedTokens, lexBlank h, formStubsSeam, formStubs, formStubsMoved]
  · rw [namedTokens, namedTokens, ← resolveNamesMoved]
    cases h <;> simp [resolveNames, resolveName]
  · cases h <;> simp
  · cases h <;> simp [Token.word?]

end Names

section Groups

def Token.isStub : Token → Bool
  | plain (.stub _) _ => true
  | _ => false

theorem stubWord {t : Token} {name : String} (stub : t.word? = some (.stub name)) :
    t = .plain (.stub name) t.span := by
  cases t with
  | plain w place =>
      cases stub
      rfl
  | command => cases stub

theorem isStubOther {t : Token} (other : ∀ name, t.word? ≠ some (.stub name)) :
    t.isStub = false := by
  unfold Token.isStub
  split
  · exact absurd rfl (other _)
  · rfl

def capturedKind? (captures : Bool) (t : Token) : Option GroupKind :=
  if captures then groupKind? t else none

/-- The groups captured by commands that run on to the end of a list, outermost first. Only a
group that follows a stub, or another captured group, is captured. -/
def openGroups : (captures : Bool) → List Token → List GroupKind
  | _, [] => []
  | captures, t :: rest =>
      match capturedKind? captures t with
      | none => openGroups t.isStub rest
      | some kind =>
          let cut := splitGroup kind.bracket 0 rest
          if cut.2.isEmpty then kind :: openGroups false cut.1 else openGroups true (cut.2.drop 1)
termination_by _ ts => ts.length
decreasing_by
  · simp
  · have := splitGroupLength kind.bracket 0 rest
    simp only [List.length_cons]
    omega
  · have := splitGroupLength kind.bracket 0 rest
    simp only [List.length_drop, List.length_cons]
    omega

variable {as bs : List Token}

theorem splitGroupSeam {b : Bracket} {depth : Nat} {inside after : List Token} {closer : Token}
    (partner : splitGroup b depth as = (inside, closer :: after)) :
    splitGroup b depth (as ++ bs) = (inside, closer :: (after ++ bs)) := by
  induction as generalizing depth inside with
  | nil => cases partner
  | cons t rest ih =>
      have onward {depth : Nat} (cut : (t :: (splitGroup b depth rest).1,
          (splitGroup b depth rest).2) = (inside, closer :: after)) :
          (t :: (splitGroup b depth (rest ++ bs)).1, (splitGroup b depth (rest ++ bs)).2)
            = (inside, closer :: (after ++ bs)) := by
        obtain ⟨rfl, same⟩ := Prod.mk.inj cut
        rw [ih (Prod.ext rfl same)]
      simp only [splitGroup] at partner
      simp only [List.cons_append, splitGroup]
      split
      · rename_i opens
        exact onward (by rwa [if_pos opens] at partner)
      · rename_i opens
        rw [if_neg opens] at partner
        split
        · rename_i closes
          rw [if_pos closes] at partner
          cases depth with
          | zero => cases partner; rfl
          | succ depth => exact onward partner
        · rename_i closes
          exact onward (by rwa [if_neg closes] at partner)

def NoGroup (ts : List Token) : Prop := ∀ t ∈ ts.head?, groupKind? t = none

theorem takeGroupsNone (none : NoGroup as) : takeGroups as = ([], as) := by
  cases as with
  | nil => rw [takeGroups]
  | cons t rest => rw [takeGroups, none t rfl]

theorem takeGroupsClosed {t closer : Token} {rest inside after : List Token} {kind : GroupKind}
    (found : groupKind? t = some kind)
    (partner : splitGroup kind.bracket 0 rest = (inside, closer :: after)) :
    takeGroups (t :: rest)
      = (⟨kind, inside, closer⟩ :: (takeGroups after).1, (takeGroups after).2) := by
  rw [takeGroups, found]
  simp only [partner, List.head?_cons, Option.getD_some, List.drop_one, List.tail_cons]

theorem takeGroupsOpen {t : Token} {rest : List Token} {kind : GroupKind}
    (found : groupKind? t = some kind) : takeGroups (t :: rest) =
      (⟨kind, (splitGroup kind.bracket 0 rest).1, (splitGroup kind.bracket 0 rest).2.head?.getD
        ((splitGroup kind.bracket 0 rest).1.getLastD t)⟩
          :: (takeGroups ((splitGroup kind.bracket 0 rest).2.drop 1)).1,
        (takeGroups ((splitGroup kind.bracket 0 rest).2.drop 1)).2) := by
  rw [takeGroups, found]

theorem openGroupsNone (none : NoGroup as) : openGroups true as = openGroups false as := by
  cases as with
  | nil => simp [openGroups]
  | cons t rest =>
      rw [openGroups, openGroups]
      simp [capturedKind?, none t rfl]

theorem openGroupsClosed {t closer : Token} {rest inside after : List Token} {kind : GroupKind}
    (found : groupKind? t = some kind)
    (partner : splitGroup kind.bracket 0 rest = (inside, closer :: after)) :
    openGroups true (t :: rest) = openGroups true after := by
  rw [openGroups, capturedKind?, if_pos rfl, found]
  simp [partner]

theorem openGroupsOpen {t : Token} {rest inside : List Token} {kind : GroupKind}
    (found : groupKind? t = some kind) (endless : splitGroup kind.bracket 0 rest = (inside, [])) :
    openGroups true (t :: rest) = kind :: openGroups false inside := by
  rw [openGroups, capturedKind?, if_pos rfl, found]
  simp [endless]

theorem openGroupsOther {t : Token} (rest : List Token) :
    openGroups false (t :: rest) = openGroups t.isStub rest := by
  rw [openGroups, capturedKind?, if_neg Bool.false_ne_true]

theorem openGroupsMoved {r : Relocation} (captures : Bool) (ts : List Token) :
    openGroups captures (ts.map (Token.moved r)) = openGroups captures ts := by
  have stub (t : Token) : (t.moved r).isStub = t.isStub := by
    cases t with
    | plain w place => cases w <;> rfl
    | command => rfl
  have same (captures : Bool) (t : Token) :
      capturedKind? captures (t.moved r) = capturedKind? captures t := by
    rw [capturedKind?, capturedKind?, groupKindMoved]
  fun_induction openGroups captures ts with
  | case1 => simp [openGroups]
  | case2 captures t rest none ih =>
      rw [List.map_cons, openGroups, same, none, stub]
      exact ih
  | case3 captures t rest kind found cut endless ih =>
      rw [List.map_cons, openGroups, same, found]
      simp only [splitGroupMoved, List.isEmpty_map]
      rw [if_pos endless, ih]
  | case4 captures t rest kind found cut closed ih =>
      rw [List.map_cons, openGroups, same, found]
      simp only [splitGroupMoved, List.isEmpty_map, ← List.map_drop]
      rw [if_neg closed, ih]

theorem takeGroupsSeam (closed : openGroups true as = []) (none : NoGroup bs) :
    takeGroups (as ++ bs) = ((takeGroups as).1, (takeGroups as).2 ++ bs)
      ∧ openGroups false (takeGroups as).2 = [] := by
  fun_induction takeGroups as with
  | case1 => exact ⟨takeGroupsNone none, by simp [openGroups]⟩
  | case2 t rest other =>
      have stays : NoGroup (t :: rest) := by simpa [NoGroup] using other
      exact ⟨takeGroupsNone (by simpa [NoGroup] using other), by rwa [← openGroupsNone stays]⟩
  | case3 t rest kind found cut last more ih =>
      rcases partner : splitGroup kind.bracket 0 rest with ⟨inside, _ | ⟨closer, after⟩⟩
      · rw [openGroupsOpen found partner] at closed
        cases closed
      · rw [openGroupsClosed found partner] at closed
        simp only [cut, last, more, partner, List.drop_one, List.tail_cons] at ih ⊢
        obtain ⟨whole, rest'⟩ := ih closed
        refine ⟨?_, rest'⟩
        rw [List.cons_append, takeGroupsClosed found (splitGroupSeam partner), whole]
        rfl

theorem captureSeam (closed : openGroups false as = []) (none : NoGroup bs) :
    captureArguments (as ++ bs) = captureArguments as ++ captureArguments bs := by
  fun_induction captureArguments as with
  | case1 => rfl
  | case2 name place rest taken groups ih ih' =>
      obtain ⟨whole, closed'⟩ := takeGroupsSeam (by rwa [openGroupsOther] at closed) none
      have inner : groups = taken.1.map fun g => (g.kind, captureArguments g.inside) := by
        simp [groups]
      rw [List.cons_append, captureStub, whole, ih' closed', inner]
      rfl
  | case3 t rest plain ih =>
      have other (name : String) : t.word? ≠ some (.stub name) := fun stub =>
        plain name t.span (stubWord stub)
      rw [openGroupsOther, isStubOther other] at closed
      rw [List.cons_append, captureOther other, ih closed, List.cons_append]

theorem nestingAppend (as bs : List Token) :
    nesting (as ++ bs) = max (nesting as) (nesting bs) := by
  induction as with
  | nil => simp [nesting]
  | cons t rest ih => simp only [List.cons_append, nesting, ih, Nat.max_assoc]

end Groups

section Code

def GroupsClose (text : String) : Prop := openGroups false (namedTokens text) = []

instance (text : String) : Decidable (GroupsClose text) := inferInstanceAs (Decidable (_ = _))

def captured (text : String) : List Token := captureArguments (namedTokens text)

theorem capturedBlank {blank : String} {w : Word} (h : Blank blank w) {text : String}
    (closed : GroupsClose text) (more : String) :
    captured (text ++ blank ++ more) = captured text
      ++ .plain w ⟨text.length, text.length + 1⟩
        :: (captured more).map (Token.moved (.shift (text.length + 1))) := by
  rw [captured, namedBlank h, captureSeam closed, captureOther, captureArgumentsMoved]
  · rfl
  · cases h <;> simp [Token.word?]
  · cases h <;> simp [NoGroup, groupKind?, Token.opens]

theorem codeTokensCaptured (text : String) : codeTokens text =
    if groupDepth < nesting (captured text) then .error .tooDeep
    else Reader.outside.filter (captured text) := by
  unfold codeTokens commandTokens captured
  simp only
  split <;> rfl

theorem nextLine {s : Reader} (ended : s.opened = none) (place : Span) :
    s.next (.plain .newline place) = (.outside, []) := by
  simp [Reader.next, Token.word?, ended]

theorem codeTokensLine {text : String} (closed : GroupsClose text)
    (shallow : nesting (captured text) ≤ groupDepth)
    (ended : (Reader.outside.after (captured text)).1.opened = none) (more : String) :
    codeTokens (text ++ "\n" ++ more) = (Relocation.shift (text.length + 1)).outcome
      (fun code => (Reader.outside.after (captured text)).2
        ++ code.map (Token.moved (.shift (text.length + 1)))) (codeTokens more) := by
  have deep : groupDepth < nesting (captured (text ++ "\n" ++ more))
      ↔ groupDepth < nesting (captured more) := by
    rw [capturedBlank .newline closed, nestingAppend, nesting, ← movedTokensMap, nestingMoved]
    simp only [Token.nesting]
    omega
  rw [codeTokensCaptured, codeTokensCaptured]
  simp only [deep]
  split
  · rfl
  · rw [capturedBlank .newline closed, filterAppend, filterCons, nextLine ended]
    have further := filterMoved (r := .shift (text.length + 1)) .outside (captured more)
    rw [show Reader.outside.moved _ = .outside from rfl] at further
    rw [further]
    cases Reader.outside.filter (captured more) <;> rfl

end Code
end LiterateMath
