import Mathlib
import LiterateMath.Proofs.Comments

/-! Prose and comments. What stands outside of all regions, and what a comment says, leaves the
code as it is, if the groups that its commands capture are closed in it and its brackets do not
end a group around it. Groups that are not closed run on into the code. -/
namespace LiterateMath

section Words

theorem munchNewline {c : Char} {rest : List Char} (word : (munch c rest).1 = .newline) :
    c = '\n' := by
  have escape (cs : List Char) : (afterBackslash cs).1 ≠ .newline := by
    unfold afterBackslash
    split <;> try simp
    split <;> simp
  unfold munch at word
  split at word
  · exact absurd word (escape rest)
  · split at word
    · rename_i mark
      unfold mark? at mark
      split at mark <;> simp_all
    · split at word <;> cases word

theorem lexNewline {place : Nat} {cs : List Char} {t : Token} (member : t ∈ lexFrom place cs)
    (word : t.word? = some .newline) : '\n' ∈ cs := by
  fun_induction lexFrom place cs with
  | case1 => cases member
  | case2 place c rest taken stop ih =>
      rcases List.mem_cons.mp member with rfl | later
      · have first : taken.1 = .newline := Option.some.inj word
        rw [munchNewline first]
        exact List.mem_cons_self
      · exact List.mem_cons_of_mem c (List.mem_of_mem_drop (ih later))

theorem namedWords {text : String} {t : Token} {w : Word} (member : t ∈ namedTokens text)
    (word : t.word? = some w) (raw : ∀ entry ∈ commandTable, entry.2 ≠ w)
    (other : ∀ name, w ≠ .stub name) : ∃ t' ∈ lex text, t'.word? = some w := by
  have formed (ts : List Token) {t : Token} (member : t ∈ formStubs ts)
      (word : t.word? = some w) : ∃ t' ∈ ts, t'.word? = some w := by
    fun_induction formStubs ts with
    | case1 first name last rest ih =>
        rcases List.mem_cons.mp member with rfl | later
        · exact absurd (Option.some.inj word).symm (other name)
        · obtain ⟨t', member', word'⟩ := ih later
          exact ⟨t', by simp [member'], word'⟩
    | case2 t' rest single ih =>
        rcases List.mem_cons.mp member with rfl | later
        · exact ⟨t, List.mem_cons_self, word⟩
        · obtain ⟨t'', member', word'⟩ := ih later
          exact ⟨t'', List.mem_cons_of_mem t' member', word'⟩
    | case3 => cases member
  obtain ⟨t', member', rfl⟩ := List.mem_map.mp member
  refine formed _ member' ?_
  unfold resolveName at word
  split at word
  · rename_i name place
    cases found : meaning? name with
    | none =>
        rw [found] at word
        exact word
    | some w' =>
        rw [found] at word
        obtain ⟨before, after, split, -⟩ := List.lookup_eq_some_iff.mp found
        exact absurd (Option.some.inj word) (raw (name, w') (by rw [split]; simp))
  · exact word

end Words

section Prose

theorem afterProse {s : Reader} {ts : List Token} (ended : s.opened = none)
    (prose : ∀ t ∈ ts, ∀ region, t.word? ≠ some (.regionOpening region)) :
    (s.after ts).1.opened = none ∧ (s.after ts).2 = [] := by
  induction ts generalizing s with
  | nil => exact ⟨ended, rfl⟩
  | cons t rest ih =>
      have first : (s.next t).1.opened = none ∧ (s.next t).2 = [] := by
        unfold Reader.next
        split
        · exact ⟨ended, rfl⟩
        · rw [ended]
          have word := prose t List.mem_cons_self
          cases found : t.word? with
          | none => exact ⟨rfl, rfl⟩
          | some w =>
              cases w with
              | regionOpening region => exact absurd found (word region)
              | _ => exact ⟨rfl, rfl⟩
      obtain ⟨ended', nothing⟩ := ih first.1 fun t' member => prose t' (List.mem_cons_of_mem t member)
      exact ⟨ended', by rw [Reader.after, first.2, nothing]; rfl⟩

theorem capturedProse {prose : String}
    (outside : ∀ t ∈ lex prose, ∀ region, t.word? ≠ some (.regionOpening region)) :
    ∀ t ∈ captured prose, ∀ region, t.word? ≠ some (.regionOpening region) := by
  intro t member region word
  obtain ⟨t', member', word'⟩ := captureWords member word
  obtain ⟨t'', member'', word''⟩ := namedWords member' word' (by cases region <;> decide) (by simp)
  exact outside t'' member'' region word''

theorem codeTokensProse {prose : String}
    (outside : ∀ t ∈ lex prose, ∀ region, t.word? ≠ some (.regionOpening region))
    (closed : GroupsClose prose) (shallow : nesting (captured prose) ≤ groupDepth)
    (document : String) :
    codeTokens (prose ++ "\n" ++ document) = (Relocation.shift (prose.length + 1)).outcome
      (List.map (Token.moved (.shift (prose.length + 1)))) (codeTokens document) := by
  obtain ⟨ended, nothing⟩ := afterProse (s := .outside) rfl (capturedProse outside)
  rw [codeTokensLine closed shallow ended, nothing]
  rfl

end Prose
section Comments

def Unescaped (text : String) : Prop := (lex text).getLast?.bind Token.word? ≠ some .backslash

def FurtherLines (text : String) : Prop := ∀ c ∈ text.toList.head?, c = '\n'

structure Harmless (before remark : String) : Prop where
  line : '\n' ∉ remark.toList
  closed : GroupsClose remark
  balanced : ∀ kind ∈ openGroups false (namedTokens before),
    groupDepthAfter kind.bracket 0 (namedTokens remark) = some 0
  shallow : (openGroups false (namedTokens before)).length + nesting (captured remark) ≤ groupDepth

def bareNames (text : String) : List Token := (namedTokens text).map (Token.moved .forget)

variable {before remark remark' after : String}

theorem lexFurtherLines (lines : FurtherLines after) (place : Nat) (cs : List Char) :
    lexFrom place (cs ++ after.toList)
      = lexFrom place cs ++ lexFrom (place + cs.length) after.toList := by
  unfold FurtherLines at lines
  cases chars : after.toList with
  | nil => simp [lexFrom]
  | cons c rest =>
      rw [chars] at lines
      obtain rfl := lines c rfl
      exact lexFromSeam newlineEnds fun _ => rfl

theorem startsFurtherLines (lines : FurtherLines after) (place : Nat) :
    lexFrom place after.toList = []
      ∨ ∃ rest, lexFrom place after.toList = .plain .newline ⟨place, place + 1⟩ :: rest := by
  unfold FurtherLines at lines
  cases chars : after.toList with
  | nil => exact .inl (by simp [lexFrom])
  | cons c rest =>
      rw [chars] at lines
      obtain rfl := lines c rfl
      exact .inr ⟨_, by rw [lexFrom]; rfl⟩

theorem formFurtherLines (lines : FurtherLines after) (place : Nat) (ts : List Token) :
    formStubs (ts ++ lexFrom place after.toList)
      = formStubs ts ++ formStubs (lexFrom place after.toList) := by
  obtain nothing | ⟨rest, found⟩ := startsFurtherLines lines place
  · simp [nothing, formStubs]
  · rw [found]
    exact formStubsSeam (by simp [Token.word?]) _ _

theorem bareNamesFrom (place : Nat) (text : String) :
    (resolveNames (formStubs (lexFrom place text.toList))).map (Token.moved .forget)
      = bareNames text := by
  rw [lexFromZero, formStubsMoved, resolveNamesMoved, List.map_map, bareNames, namedTokens, lex]
  exact List.map_congr_left fun t _ => Token.forgetMoved _ t

theorem bareNamesComment (unescaped : Unescaped before) (lines : FurtherLines after) :
    bareNames (before ++ "%" ++ remark ++ after)
      = bareNames before ++ .plain .percent ⟨0, 0⟩ :: (bareNames remark ++ bareNames after) := by
  have chars : (before ++ "%" ++ remark ++ after).toList
      = before.toList ++ '%' :: (remark.toList ++ after.toList) := by simp
  have percent (place : Nat) (ds : List Char) :
      lexFrom place ('%' :: ds) = .plain .percent ⟨place, place + 1⟩ :: lexFrom (place + 1) ds := by
    rw [lexFrom]
    rfl
  rw [bareNames, namedTokens, lex, chars,
    lexFromSeam percentEnds fun escaped => absurd escaped unescaped, percent,
    formStubsSeam (by simp [Token.word?]), formStubs, lexFurtherLines lines,
    formFurtherLines lines]
  · have apart (ts us vs : List Token) (place : Span) :
        (resolveNames (ts ++ .plain .percent place :: (us ++ vs))).map (Token.moved .forget)
          = (resolveNames ts).map (Token.moved .forget) ++ .plain .percent ⟨0, 0⟩
            :: ((resolveNames us).map (Token.moved .forget)
              ++ (resolveNames vs).map (Token.moved .forget)) := by
      simp [resolveNames, resolveName, Relocation.forget]
    rw [apart, bareNamesFrom, bareNamesFrom, bareNamesFrom]
  · simp

theorem capturedBare (text : String) :
    (captured text).map (Token.moved .forget) = captureArguments (bareNames text) := by
  rw [bareNames, captureArgumentsMoved, captured]

theorem nestingBare (text : String) :
    nesting (captured text) = nesting (captureArguments (bareNames text)) := by
  rw [← capturedBare, ← movedTokensMap, nestingMoved]

theorem remarkBare (h : Harmless before remark) :
    Remark (openGroups false (bareNames before)) (bareNames remark) where
  line t member word := by
    obtain ⟨t', member', rfl⟩ := List.mem_map.mp member
    rw [wordMoved] at word
    obtain ⟨t'', member'', word''⟩ := namedWords member' word (by decide) (by simp)
    exact h.line (lexNewline member'' word'')
  closed := by
    rw [bareNames, openGroupsMoved]
    exact h.closed
  balanced kind member := by
    have same (b : Bracket) (depth : Nat) (t : Token) :
        groupStep b depth (t.moved .forget) = groupStep b depth t := by
      rw [groupStep, groupStep, opensMoved, closesMoved]
    rw [bareNames, openGroupsMoved] at member
    rw [bareNames, groupDepthAfter, List.foldlM_map]
    simp only [same]
    exact h.balanced kind member

theorem startsLineBare (lines : FurtherLines after) : StartsLine (bareNames after) := by
  rw [← bareNamesFrom 0]
  obtain nothing | ⟨rest, found⟩ := startsFurtherLines lines 0
  · simp [nothing, formStubs, resolveNames, StartsLine]
  · simp [found, formStubs, resolveNames, resolveName, StartsLine, Token.word?]

theorem codeTokensQuiet (text : String) :
    Relocation.forget.outcome (List.map Token.quiet) (codeTokens text) =
      if groupDepth < nesting (captureArguments (bareNames text)) then .error .tooDeep
      else Reader.outside.filter (quietTokens false (captureArguments (bareNames text))) := by
  rw [codeTokensCaptured, nestingBare, ← capturedBare, ← movedTokensMap, quietMoved]
  split
  · rfl
  · exact filterQuiet .outside (captured text)

theorem codeTokensBare (text : String) :
    Relocation.forget.outcome (List.map (Token.moved .forget)) (codeTokens text) =
      if groupDepth < nesting (captureArguments (bareNames text)) then .error .tooDeep
      else Reader.outside.filter (captureArguments (bareNames text)) := by
  rw [codeTokensCaptured, nestingBare, ← capturedBare]
  split
  · rfl
  · exact (filterMoved .outside (captured text)).symm

theorem commentAlike (unescaped : Unescaped before) (lines : FurtherLines after)
    (h : Harmless before remark) (h' : Harmless before remark') :
    Alike groupDepth (captureArguments (bareNames (before ++ "%" ++ remark ++ after)))
      (captureArguments (bareNames (before ++ "%" ++ remark' ++ after))) := by
  have unheard := remarkUnheard (remarkBare h) (remarkBare h') (startsLineBare lines) ⟨0, 0⟩
  have shallow := h.shallow
  rw [nestingBare, ← openGroupsMoved (r := .forget), ← bareNames] at shallow
  rw [bareNamesComment unescaped lines, bareNamesComment unescaped lines]
  exact ⟨unheard.quiet, by have := unheard.nesting; omega⟩

theorem commentDepth (unescaped : Unescaped before) (lines : FurtherLines after)
    (h : Harmless before remark) (h' : Harmless before remark') :
    groupDepth < nesting (captureArguments (bareNames (before ++ "%" ++ remark ++ after)))
      ↔ groupDepth
        < nesting (captureArguments (bareNames (before ++ "%" ++ remark' ++ after))) := by
  have := (commentAlike unescaped lines h h').nesting
  have := (commentAlike unescaped lines h' h).nesting
  omega

theorem commentQuiet (unescaped : Unescaped before) (lines : FurtherLines after)
    (h : Harmless before remark) (h' : Harmless before remark') :
    Relocation.forget.outcome (List.map Token.quiet)
        (codeTokens (before ++ "%" ++ remark ++ after))
      = Relocation.forget.outcome (List.map Token.quiet)
        (codeTokens (before ++ "%" ++ remark' ++ after)) := by
  rw [codeTokensQuiet, codeTokensQuiet, (commentAlike unescaped lines h h').quiet]
  simp only [commentDepth unescaped lines h h']

theorem filterComment {s : Reader} {ts : List Token} (line : ∀ t ∈ ts, t.word? ≠ some .newline)
    (place : Span) (more : List Token) :
    s.filter (.plain .percent place :: (ts ++ more)) = s.filter (.plain .percent place :: more) := by
  have skipped (s : Reader) (inside : s.inComment = true) :
      s.filter (ts ++ more) = s.filter more := by
    induction ts with
    | nil => rfl
    | cons t rest ih =>
        have next : s.next t = (s, []) := by
          rw [Reader.next, if_pos (by simpa [inside] using line t List.mem_cons_self)]
        rw [List.cons_append, filterCons, next,
          ih fun t' member => line t' (List.mem_cons_of_mem t member)]
        cases s.filter more <;> rfl
  have percent : (s.next (.plain .percent place)).1.inComment = true := by
    obtain ⟨_ | _, opened⟩ := s <;> rfl
  rw [filterCons, filterCons, skipped _ percent]

theorem commentOutside (unescaped : Unescaped before) (outside : GroupsClose before)
    (lines : FurtherLines after) (h : Harmless before remark) (h' : Harmless before remark') :
    Relocation.forget.outcome (List.map (Token.moved .forget))
        (codeTokens (before ++ "%" ++ remark ++ after))
      = Relocation.forget.outcome (List.map (Token.moved .forget))
        (codeTokens (before ++ "%" ++ remark' ++ after)) := by
  have filtered {remark : String} (h : Harmless before remark) :
      Reader.outside.filter (captureArguments (bareNames (before ++ "%" ++ remark ++ after)))
        = Reader.outside.filter (captureArguments (bareNames before)
          ++ .plain .percent ⟨0, 0⟩ :: captureArguments (bareNames after)) := by
    have comment := remarkBare h
    have line : ∀ t ∈ captureArguments (bareNames remark), t.word? ≠ some .newline := by
      intro t member word
      obtain ⟨t', member', word'⟩ := captureWords member word
      exact comment.line t' member' word'
    rw [bareNamesComment unescaped lines, captureSeam (by rw [bareNames, openGroupsMoved]; exact outside)
      (by simp [NoGroup, groupKind?, Token.opens]), captureOther (by simp [Token.word?]),
      captureSeam comment.closed (startsLineNoGroup (startsLineBare lines)), filterAppend,
      filterComment line, ← filterAppend]
  rw [codeTokensBare, codeTokensBare, filtered h, filtered h']
  simp only [commentDepth unescaped lines h h']

end Comments

/-- Prose in which no region begins and all groups close leaves the code as it is, further on.
What a comment says is not code; within a captured group its tokens stay in the group. -/
theorem proseAndCommentsAside :
    (∀ prose document : String,
      (∀ t ∈ lex prose, ∀ region, t.word? ≠ some (.regionOpening region)) →
      GroupsClose prose → nesting (captured prose) ≤ groupDepth →
      codeTokens (prose ++ "\n" ++ document) = (Relocation.shift (prose.length + 1)).outcome
        (List.map (Token.moved (.shift (prose.length + 1)))) (codeTokens document))
    ∧ ∀ before remark remark' after : String, Unescaped before → FurtherLines after →
      Harmless before remark → Harmless before remark' →
      Relocation.forget.outcome (List.map Token.quiet)
          (codeTokens (before ++ "%" ++ remark ++ after))
        = Relocation.forget.outcome (List.map Token.quiet)
          (codeTokens (before ++ "%" ++ remark' ++ after))
      ∧ (GroupsClose before →
        Relocation.forget.outcome (List.map (Token.moved .forget))
            (codeTokens (before ++ "%" ++ remark ++ after))
          = Relocation.forget.outcome (List.map (Token.moved .forget))
            (codeTokens (before ++ "%" ++ remark' ++ after))) :=
  ⟨fun _ document outside closed shallow => codeTokensProse outside closed shallow document,
    fun _ _ _ _ unescaped lines h h' => ⟨commentQuiet unescaped lines h h',
      fun outside => commentOutside unescaped outside lines h h'⟩⟩

theorem emphasisAndRemark :
    codeTokens ("\\e\x7bx\x7d %" ++ "\n" ++ "\\$(1\\$)")
        = .ok [.plain (.number "1") ⟨11, 12⟩, .plain .regionEnd ⟨12, 15⟩]
      ∧ Relocation.forget.outcome (List.map Token.quiet)
          (codeTokens ("\\$(\\f\x7b1" ++ "%" ++ "\x7b\x7d" ++ "\n\x7d\\$)"))
        = Relocation.forget.outcome (List.map Token.quiet)
          (codeTokens ("\\$(\\f\x7b1" ++ "%" ++ "x" ++ "\n\x7d\\$)")) := by
  have prose : lex "\\e\x7bx\x7d %" = [.plain .backslash ⟨0, 1⟩, .plain (.text "e") ⟨1, 2⟩,
      .plain (.opening .brace) ⟨2, 3⟩, .plain (.text "x") ⟨3, 4⟩,
      .plain (.closing .brace) ⟨4, 5⟩, .plain .space ⟨5, 6⟩, .plain .percent ⟨6, 7⟩] := by cbv
  have enclosing : openGroups false (namedTokens "\\$(\\f\x7b1") = [.required] := by cbv
  have unescaped : Unescaped "\\$(\\f\x7b1" := by
    have last : (lex "\\$(\\f\x7b1").getLast?.bind Token.word? = some (.number "1") := by cbv
    rw [Unescaped, last]
    simp
  have remark (text : String) (line : '\n' ∉ text.toList) (closed : GroupsClose text)
      (balanced : groupDepthAfter .brace 0 (namedTokens text) = some 0)
      (flat : nesting (captured text) = 0) : Harmless "\\$(\\f\x7b1" text := by
    refine ⟨line, closed, fun kind member => ?_, ?_⟩
    · rw [enclosing, List.mem_singleton] at member
      rw [member]
      exact balanced
    · rw [enclosing, flat]
      decide
  refine ⟨(proseAndCommentsAside.1 _ _ (by rw [prose]; simp [Token.word?]) (by cbv) (by cbv)).trans
    (by cbv), (proseAndCommentsAside.2 _ _ _ _ unescaped (by simp [FurtherLines]) ?_ ?_).1⟩
  · exact remark _ (by decide) (by cbv) (by cbv) (by cbv)
  · exact remark _ (by decide) (by cbv) (by cbv) (by cbv)

theorem openGroupTakesCode :
    (∀ t ∈ lex "\\f\x7b", ∀ region, t.word? ≠ some (.regionOpening region))
      ∧ codeTokens ("\\f\x7b" ++ "\n" ++ "\\$(1\\$)") ≠ (Relocation.shift 4).outcome
        (List.map (Token.moved (.shift 4))) (codeTokens "\\$(1\\$)")
      ∧ Relocation.forget.outcome (List.map (Token.moved .forget))
          (codeTokens ("%" ++ "\\f\x7b" ++ "\n\\$(1\\$)"))
        ≠ Relocation.forget.outcome (List.map (Token.moved .forget))
          (codeTokens ("%" ++ "x" ++ "\n\\$(1\\$)"))
      ∧ Relocation.forget.outcome (List.map (Token.moved .forget))
          (codeTokens ("\\$(\\f\x7b%" ++ "x" ++ "\n\x7d\\$)"))
        ≠ Relocation.forget.outcome (List.map (Token.moved .forget))
          (codeTokens ("\\$(\\f\x7b%" ++ "" ++ "\n\x7d\\$)")) := by
  have prose : lex "\\f\x7b" = [.plain .backslash ⟨0, 1⟩, .plain (.text "f") ⟨1, 2⟩,
      .plain (.opening .brace) ⟨2, 3⟩] := by cbv
  have code : codeTokens "\\$(1\\$)"
      = .ok [.plain (.number "1") ⟨3, 4⟩, .plain .regionEnd ⟨4, 7⟩] := by cbv
  have below : codeTokens ("\\f\x7b" ++ "\n" ++ "\\$(1\\$)") = .ok [] := by cbv
  have after : codeTokens ("%" ++ "\\f\x7b" ++ "\n\\$(1\\$)") = .ok [] := by cbv
  have after' : codeTokens ("%" ++ "x" ++ "\n\\$(1\\$)")
      = .ok [.plain (.number "1") ⟨6, 7⟩, .plain .regionEnd ⟨7, 10⟩] := by cbv
  have inside : codeTokens ("\\$(\\f\x7b%" ++ "x" ++ "\n\x7d\\$)") = .ok
      [.command "f" [[.plain .percent ⟨6, 7⟩, .plain (.text "x") ⟨7, 8⟩,
        .plain .newline ⟨8, 9⟩]] [] ⟨3, 10⟩, .plain .regionEnd ⟨10, 13⟩] := by cbv
  have inside' : codeTokens ("\\$(\\f\x7b%" ++ "" ++ "\n\x7d\\$)") = .ok
      [.command "f" [[.plain .percent ⟨6, 7⟩, .plain .newline ⟨7, 8⟩]] [] ⟨3, 9⟩,
        .plain .regionEnd ⟨9, 12⟩] := by cbv
  refine ⟨by rw [prose]; simp [Token.word?], by rw [below, code]; simp, by rw [after, after']; simp,
    by rw [inside, inside']; simp⟩

end LiterateMath
