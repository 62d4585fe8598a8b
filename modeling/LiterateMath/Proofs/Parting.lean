import LiterateMath.Proofs.Likeness
import LiterateMath.Proofs.Tiling

/-! The passes from text to captured tokens, backwards. Wherever the captured tokens of a text are
divided, the text itself is divided too, and each part is captured alone as it is in the whole. -/
namespace LiterateMath

section Lexing

theorem lexFromParts {place : Nat} {cs : List Char} (xs : List Token) {ys : List Token}
    (lexed : lexFrom place cs = xs ++ ys) : ∃ as bs, cs = as ++ bs ∧
      lexFrom place as = xs ∧ lexFrom (place + as.length) bs = ys := by
  fun_induction lexFrom place cs generalizing xs with
  | case1 place =>
      obtain ⟨rfl, rfl⟩ := List.append_eq_nil_iff.mp lexed.symm
      exact ⟨[], [], rfl, by rw [lexFrom], by rw [lexFrom]⟩
  | case2 place c rest taken stop ih =>
      cases xs with
      | nil =>
          refine ⟨[], c :: rest, rfl, by rw [lexFrom], ?_⟩
          rw [← show _ = ys from lexed, lexFrom]
          rfl
      | cons x xs =>
          obtain ⟨rfl, later⟩ := List.cons.inj lexed
          obtain ⟨as, bs, cut, first, second⟩ := ih xs later
          have within : taken.2 ≤ rest.length := munchLength c rest
          have whole : rest = rest.take taken.2 ++ as ++ bs := by
            rw [List.append_assoc, ← cut, List.take_append_drop]
          have long : (rest.take taken.2).length = taken.2 := List.length_take_of_le within
          have same : munch c (rest.take taken.2 ++ as) = taken := by
            have reach : (munch c (rest.take taken.2 ++ as ++ bs)).2
                ≤ (rest.take taken.2 ++ as).length := by
              rw [← whole, List.length_append, long]
              exact Nat.le_add_right _ _
            rw [← munchWithin reach, ← whole]
          refine ⟨c :: (rest.take taken.2 ++ as), bs, by rw [List.cons_append, ← whole], ?_, ?_⟩
          · rw [lexFrom, same, List.drop_left' long]
            exact congrArg _ first
          · rw [← second]
            congr 1
            simp only [stop, List.length_cons, List.length_append, long]
            omega

end Lexing

section Names

theorem formStubsParts {ts xs ys : List Token} (formed : formStubs ts = xs ++ ys) :
    ∃ as bs, ts = as ++ bs ∧ formStubs as = xs ∧ formStubs bs = ys := by
  fun_induction formStubs ts generalizing xs with
  | case1 first name last rest ih =>
      cases xs with
      | nil => exact ⟨[], _, rfl, rfl, formed⟩
      | cons x xs =>
          obtain ⟨rfl, later⟩ := List.cons.inj formed
          obtain ⟨as, bs, rfl, rfl, rfl⟩ := ih later
          exact ⟨.plain .backslash first :: .plain (.text name) last :: as, bs, rfl, rfl, rfl⟩
  | case2 t rest single ih =>
      cases xs with
      | nil =>
          refine ⟨[], t :: rest, rfl, rfl, ?_⟩
          rw [← show _ = ys from formed, formStubs]
          exact single
      | cons x xs =>
          obtain ⟨rfl, later⟩ := List.cons.inj formed
          obtain ⟨as, bs, rfl, rfl, rfl⟩ := ih later
          refine ⟨t :: as, bs, rfl, ?_, rfl⟩
          rw [formStubs]
          rintro first name last more rfl rfl
          exact single first name last (more ++ bs) rfl rfl
  | case3 =>
      obtain ⟨rfl, rfl⟩ := List.append_eq_nil_iff.mp formed.symm
      exact ⟨[], [], rfl, rfl, rfl⟩

theorem namedFromParts {place : Nat} {cs : List Char} {xs ys : List Token}
    (named : namedFrom place cs = xs ++ ys) : ∃ as bs, cs = as ++ bs ∧
      namedFrom place as = xs ∧ namedFrom (place + as.length) bs = ys := by
  obtain ⟨us, vs, formed, rfl, rfl⟩ := List.map_eq_append_iff.mp named
  obtain ⟨us, vs, lexed, rfl, rfl⟩ := formStubsParts formed
  obtain ⟨as, bs, rfl, rfl, rfl⟩ := lexFromParts _ lexed
  exact ⟨as, bs, rfl, rfl, rfl⟩

end Names

section Groups

theorem tokenCloses {b : Bracket} {t : Token} (h : t.closes b = true) :
    t.word? = some (.closing b) := by
  unfold Token.closes at h
  split at h
  · obtain rfl := of_decide_eq_true h
    rfl
  · cases h

theorem splitGroupClosed {b : Bracket} {depth : Nat} {ts inside after : List Token} {closer : Token}
    (partner : splitGroup b depth ts = (inside, closer :: after)) :
    ts = inside ++ closer :: after ∧ closer.word? = some (.closing b) ∧
      ∀ other, splitGroup b depth (inside ++ closer :: other) = (inside, closer :: other) := by
  induction ts generalizing depth inside with
  | nil => cases partner
  | cons t rest ih =>
      rw [splitGroupCons] at partner
      cases step : groupStep b depth t with
      | none =>
          simp only [step] at partner
          cases partner
          have closes : closer.closes b = true := by
            unfold groupStep at step
            grind
          refine ⟨rfl, tokenCloses closes, fun other => ?_⟩
          rw [List.nil_append, splitGroupCons, step]
      | some next =>
          simp only [step] at partner
          obtain ⟨rfl, later⟩ := Prod.mk.inj partner
          obtain ⟨whole, closes, same⟩ := ih (Prod.ext rfl later)
          refine ⟨congrArg (t :: ·) whole, closes, fun other => ?_⟩
          rw [List.cons_append, splitGroupCons, step]
          simp only [same]

theorem noGroupNothing : NoGroup [] := by simp [NoGroup]

theorem takeGroupsAll (ts : List Token) : NoGroup (takeGroups ts).2 := by
  fun_induction takeGroups ts with
  | case1 => exact noGroupNothing
  | case2 t rest none => simpa [NoGroup] using none
  | case3 t rest kind found cut last more ih => exact ih

theorem NoGroup.left {as bs : List Token} (none : NoGroup (as ++ bs)) : NoGroup as := by
  cases as with
  | nil => exact noGroupNothing
  | cons t as => exact none

theorem takeGroupsParts (ts : List Token) (more : (takeGroups ts).2 ≠ []) :
    ∃ used, ts = used ++ (takeGroups ts).2 ∧ ∀ other, NoGroup other →
      takeGroups (used ++ other) = ((takeGroups ts).1, other) ∧
        openGroups true (used ++ other) = openGroups false other := by
  fun_induction takeGroups ts with
  | case1 => exact absurd rfl more
  | case2 t rest none =>
      exact ⟨[], rfl, fun other alone => ⟨takeGroupsNone alone, openGroupsNone alone⟩⟩
  | case3 t rest kind found cut last after ih =>
      have leftOver : after.2 ≠ [] := more
      rcases partner : splitGroup kind.bracket 0 rest with ⟨inside, _ | ⟨closer, later⟩⟩
      · have nothing : after = ([], []) := by
          simp only [after, cut, partner, List.drop_nil]
          rw [takeGroups]
        exact absurd (congrArg Prod.snd nothing) leftOver
      · have onward : after = takeGroups later := by simp [after, cut, partner]
        obtain ⟨whole, -, same⟩ := splitGroupClosed partner
        obtain ⟨used, reach, alike⟩ := ih leftOver
        refine ⟨t :: (inside ++ closer :: used), ?_, fun other alone => ?_⟩
        · simp only [cut, partner, List.drop_one, List.tail_cons] at reach
          rw [whole, reach]
          simp [onward]
        · have again := same (used ++ other)
          have first : last = closer := by simp [last, cut, partner]
          obtain ⟨taken, open_⟩ := alike other alone
          rw [List.cons_append, List.append_assoc, List.cons_append, takeGroupsClosed found again,
            openGroupsClosed found again, taken, first]
          exact ⟨by simp [cut, partner, onward], open_⟩

theorem captureParts (ts xs : List Token) {ys : List Token}
    (made : captureArguments ts = xs ++ ys) (more : ys ≠ []) : ∃ as bs, ts = as ++ bs ∧
      captureArguments as = xs ∧ captureArguments bs = ys ∧ openGroups false as = [] := by
  fun_induction captureArguments ts generalizing xs with
  | case1 => exact absurd (List.append_eq_nil_iff.mp made.symm).2 more
  | case2 name place rest taken groups ih ih' =>
      -- The groups go to the part that the stub is in.
      cases xs with
      | nil =>
          refine ⟨[], .plain (.stub name) place :: rest, rfl, by rw [captureArguments], ?_,
            by rw [openGroups]⟩
          rw [← show _ = ys from made, captureArguments]
      | cons x xs =>
          obtain ⟨rfl, later⟩ := List.cons.inj made
          obtain ⟨as, bs, cut, rfl, rfl, closed⟩ := ih' xs later
          have some : (takeGroups rest).2 ≠ [] := by
            rw [show (takeGroups rest).2 = as ++ bs from cut]
            rintro nothing
            exact more (by rw [(List.append_eq_nil_iff.mp nothing).2, captureArguments])
          obtain ⟨used, reach, alike⟩ := takeGroupsParts rest some
          have all := takeGroupsAll rest
          rw [show (takeGroups rest).2 = as ++ bs from cut] at all
          obtain ⟨again, same⟩ := alike as all.left
          refine ⟨.plain (.stub name) place :: (used ++ as), bs, ?_, ?_, rfl, ?_⟩
          · rw [List.cons_append, List.append_assoc, ← cut, ← reach]
          · rw [captureStub, again]
            simp [groups, taken]
          · rw [openGroupsOther]
            exact same.trans closed
  | case3 t rest plain ih =>
      cases xs with
      | nil =>
          refine ⟨[], t :: rest, rfl, by rw [captureArguments], ?_, by rw [openGroups]⟩
          rw [← show _ = ys from made, captureArguments]
          exact plain
      | cons x xs =>
          obtain ⟨rfl, later⟩ := List.cons.inj made
          obtain ⟨as, bs, rfl, rfl, rfl, closed⟩ := ih xs later
          have other (name : String) : t.word? ≠ some (.stub name) := fun stub =>
            plain name t.span (stubWord stub)
          refine ⟨t :: as, bs, rfl, captureOther other as, rfl, ?_⟩
          rw [openGroupsOther, isStubOther other, closed]

theorem takeGroupsEnd (ts : List Token) (closed : openGroups true ts = [])
    (nothing : (takeGroups ts).2 = []) : ∀ t ∈ ts.getLast?, ∃ b, t.word? = some (.closing b) := by
  fun_induction takeGroups ts with
  | case1 => simp
  | case2 => cases nothing
  | case3 t rest kind found cut last more ih =>
      rcases partner : splitGroup kind.bracket 0 rest with ⟨inside, _ | ⟨closer, later⟩⟩
      · rw [openGroupsOpen found partner] at closed
        cases closed
      · rw [openGroupsClosed found partner] at closed
        obtain ⟨rfl, closes, -⟩ := splitGroupClosed partner
        simp only [cut, partner, List.drop_one, List.tail_cons] at ih
        have onward := ih closed (by simpa [more, cut, partner] using nothing)
        rw [← List.cons_append, List.getLast?_append_cons, List.getLast?_cons]
        intro u ends
        cases behind : later.getLast? with
        | none =>
            obtain rfl : closer = u := by simpa [behind] using ends
            exact ⟨_, closes⟩
        | some t' =>
            obtain rfl : t' = u := by simpa [behind] using ends
            exact onward t' behind

theorem captureLast (ts : List Token) {t : Token} (closed : openGroups false ts = [])
    (last : ts.getLast? = some t) (other : ∀ name, t.word? ≠ some (.stub name))
    (bare : ∀ b, t.word? ≠ some (.closing b)) : (captureArguments ts).getLast? = some t := by
  fun_induction captureArguments ts with
  | case1 => cases last
  | case2 name place rest taken groups ih ih' =>
      rw [openGroupsOther] at closed
      cases more : taken.2 with
      | nil =>
          have ends := takeGroupsEnd rest closed more
          rw [List.getLast?_cons] at last
          cases behind : rest.getLast? with
          | none =>
              rw [behind] at last
              cases last
              exact absurd rfl (other name)
          | some u =>
              rw [behind] at last
              cases last
              obtain ⟨b, word⟩ := ends u behind
              exact absurd word (bare b)
      | cons u after =>
          have onward := (takeGroupsSeam closed noGroupNothing).2
          obtain ⟨used, reach, -⟩ := takeGroupsParts rest (by simp [taken] at more; simp [more])
          have same : taken.2.getLast? = some t := by
            rwa [reach, ← List.cons_append, show (takeGroups rest).2 = u :: after from more,
              List.getLast?_append_cons, ← more] at last
          rw [List.getLast?_cons, ← more, ih' onward same]
          rfl
  | case3 u rest plain ih =>
      rw [openGroupsOther] at closed
      cases rest with
      | nil =>
          cases last
          rw [captureArguments]
          rfl
      | cons u' rest =>
          have front (name : String) : u.word? ≠ some (.stub name) := fun stub =>
            plain name u.span (stubWord stub)
          rw [List.getLast?_cons_cons] at last
          rw [isStubOther front] at closed
          rw [List.getLast?_cons, ih closed last]
          rfl

end Groups

section Captured

theorem namedTiles (text : String) : Tiles 0 (namedTokens text) text.length := by
  have tiles := lexFromTiles 0 text.toList
  rw [Nat.zero_add] at tiles
  exact resolveNamesTiles (formStubsTiles tiles)

theorem capturedTiles (text : String) : Tiles 0 (captured text) text.length :=
  captureTiles _ _ (namedTiles text)

theorem namedFromShifted (place : Nat) (text : String) :
    namedFrom place text.toList = (namedTokens text).map (Token.moved (.shift place)) := by
  rw [namedFrom, lexFromZero, formStubsMoved, resolveNamesMoved]
  rfl

theorem capturedParts {text : String} {xs ys : List Token} (made : captured text = xs ++ ys)
    (more : ys ≠ []) : ∃ before after, text = before ++ after ∧ captured before = xs ∧
      (captured after).map (Token.moved (.shift before.length)) = ys ∧ GroupsClose before := by
  obtain ⟨us, vs, named, rfl, rfl, closed⟩ := captureParts _ _ made more
  obtain ⟨as, bs, whole, rfl, rfl⟩ := @namedFromParts 0 text.toList _ _ named
  refine ⟨String.ofList as, String.ofList bs, ?_, ?_, ?_, ?_⟩
  · rw [← String.ofList_append, ← whole, String.ofList_toList]
  · rw [captured, namedTokens, lex, String.toList_ofList]
    rfl
  · have shifted := namedFromShifted (0 + as.length) (String.ofList bs)
    rw [String.toList_ofList] at shifted
    rw [captured, shifted, captureArgumentsMoved]
    simp
  · rw [GroupsClose, namedTokens, lex, String.toList_ofList]
    exact closed

variable {text : String}

theorem lastUnescaped (closed : GroupsClose text)
    (other : (captured text).getLast?.bind Token.word? ≠ some .backslash) : Unescaped text := by
  intro word
  obtain ⟨t, last, word⟩ := Option.bind_eq_some_iff.mp word
  obtain ⟨before, lexed⟩ := List.getLast?_eq_some_iff.mp last
  have form : formStubs [t] = [t] := by
    rw [formStubs, formStubs]
    rintro _ _ _ _ - ⟨⟩
  have named : namedTokens text = resolveNames (formStubs before) ++ [t] := by
    rw [namedTokens, lexed, formStubsSeam (by simp [word]), form, resolveNames, List.map_append]
    cases t with
    | command => cases word
    | plain w place =>
        cases word
        rfl
  have ends := @captureLast _ t closed (by simp [named]) (by simp [word]) (by simp [word])
  exact other (by rw [captured, ends]; exact word)

theorem backslashEnds : EndsWords '\\' := ⟨by decide, by decide, by decide⟩

theorem lastWordFurther (place : Nat) (cs : List Char) :
    (lexFrom place cs).getLast?.bind Token.word? = (lexFrom 0 cs).getLast?.bind Token.word? := by
  rw [lexFromZero, List.getLast?_map]
  cases (lexFrom 0 cs).getLast? with
  | none => rfl
  | some t => exact wordMoved t

theorem namedApart {place : Nat} {cs ds : List Char}
    (unescaped : (lexFrom place cs).getLast?.bind Token.word? ≠ some .backslash)
    (parts : lexFrom place (cs ++ ds) = lexFrom place cs ++ lexFrom (place + cs.length) ds) :
    namedFrom place (cs ++ ds) = namedFrom place cs ++ namedFrom (place + cs.length) ds := by
  rw [namedFrom, parts, formStubsApart unescaped, resolveNames, List.map_append]
  rfl

theorem namedBeforeBackslash {place : Nat} {cs : List Char}
    (unescaped : (lexFrom place cs).getLast?.bind Token.word? ≠ some .backslash) (ds : List Char) :
    namedFrom place (cs ++ '\\' :: ds)
      = namedFrom place cs ++ namedFrom (place + cs.length) ('\\' :: ds) :=
  namedApart unescaped (lexFromSeam backslashEnds fun last => absurd last unescaped)

theorem namedFromClosing (unescaped : Unescaped text) (r : Region) (place : Nat) :
    namedFrom place (text.toList ++ r.closing.toList) = namedFrom place text.toList
      ++ [.plain (.regionClosing r) ⟨place + text.length, place + text.length + 3⟩] := by
  obtain ⟨ds, begins⟩ : ∃ ds, r.closing.toList = '\\' :: ds := by cases r <;> exact ⟨_, rfl⟩
  rw [← closingReads, begins, namedBeforeBackslash, String.length_toList]
  rw [lastWordFurther]
  exact unescaped

theorem capturedAround (closed : GroupsClose text) (unescaped : Unescaped text) (r : Region) :
    captured (r.around text) = .plain (.regionOpening r) ⟨0, 3⟩
      :: ((captured text).map (Token.moved (.shift 3))
        ++ [.plain (.regionClosing r) ⟨3 + text.length, 3 + text.length + 3⟩]) := by
  have named : namedTokens (r.around text) = .plain (.regionOpening r) ⟨0, 3⟩
      :: ((namedTokens text).map (Token.moved (.shift 3))
        ++ [.plain (.regionClosing r) ⟨3 + text.length, 3 + text.length + 3⟩]) := by
    rw [← namedFromShifted, ← namedFromClosing unescaped, ← openingReads r 0]
    simp [Region.around, namedTokens, namedFrom, lex]
  have alone : NoGroup [Token.plain (.regionClosing r) ⟨3 + text.length, 3 + text.length + 3⟩] := by
    simp [NoGroup, groupKind?, Token.opens]
  rw [captured, named, captureOther (by simp [Token.word?]),
    captureSeam ((openGroupsMoved false _).trans closed) alone, captureArgumentsMoved,
    captureOther (by simp [Token.word?]), captureArguments]
  rfl

end Captured
end LiterateMath
