import LiterateMath.Proofs.Blanks
import LiterateMath.Proofs.Prose

/-! Whitespace put into a text. Between two words it is a token of its own and leaves all others
as they are, and a document says the same with it, unless a command would have captured a group
behind it. -/
namespace LiterateMath

section Lexing

theorem takeWhileWithin {p : Char → Bool} {cs ds : List Char}
    (within : ((cs ++ ds).takeWhile p).length ≤ cs.length) :
    (cs ++ ds).takeWhile p = cs.takeWhile p := by
  rw [List.takeWhile_append] at within ⊢
  split
  · rename_i whole
    rw [if_pos whole, List.length_append] at within
    have nothing : ds.takeWhile p = [] := List.length_eq_zero_iff.mp (by omega)
    rw [nothing, List.append_nil]
    exact (List.takeWhile_prefix p).eq_of_length whole |>.symm
  · rfl

theorem afterBackslashWithin {cs ds : List Char}
    (within : (afterBackslash (cs ++ ds)).2 ≤ cs.length) :
    afterBackslash (cs ++ ds) = afterBackslash cs := by
  match cs, ds with
  | cs, [] => rw [List.append_nil]
  | [], d :: ds =>
      rw [List.nil_append] at within ⊢
      unfold afterBackslash at within ⊢
      split at within <;> simp_all
      split at within <;> simp_all
  | [c], d :: ds =>
      by_cases marker : d ≠ '(' ∧ d ≠ '[' ∧ d ≠ ')' ∧ d ≠ ']'
      · exact afterBackslashOne marker c ds
      · have other : c ≠ '$' := by
          rintro rfl
          have which : d = '(' ∨ d = '[' ∨ d = ')' ∨ d = ']' := by tauto
          rcases which with rfl | rfl | rfl | rfl <;> simp [afterBackslash] at within
        rw [List.singleton_append]
        unfold afterBackslash
        split <;> rename_i h <;> cases h <;> first | rfl | contradiction | (split <;> simp_all)
  | c :: e :: rest, ds => exact afterBackslashTwo c e _ _

theorem munchWithin {c : Char} {rest ds : List Char}
    (within : (munch c (rest ++ ds)).2 ≤ rest.length) :
    munch c (rest ++ ds) = munch c rest := by
  unfold munch at within ⊢
  split
  · rename_i backslash
    rw [if_pos backslash] at within
    exact afterBackslashWithin within
  · rename_i backslash
    rw [if_neg backslash] at within
    cases mark : mark? c with
    | some w => rfl
    | none =>
        simp only [mark] at within ⊢
        split
        · rename_i digit
          rw [if_pos digit] at within
          rw [takeWhileWithin within]
        · rename_i digit
          rw [if_neg digit] at within
          rw [takeWhileWithin within]

theorem lexFromStops {place : Nat} {cs : List Char} {t : Token} (member : t ∈ lexFrom place cs) :
    place < t.span.stop := by
  fun_induction lexFrom place cs with
  | case1 => cases member
  | case2 place c rest taken stop ih =>
      rcases List.mem_cons.mp member with rfl | later
      · simp only [Token.span, stop]
        omega
      · have := ih later
        simp only [stop] at this
        omega

theorem lexFromBetween {place : Nat} {cs ds : List Char} (between : cs = [] ∨
      ∃ t ∈ lexFrom place (cs ++ ds), t.span.stop = place + cs.length) :
    lexFrom place (cs ++ ds) = lexFrom place cs ++ lexFrom (place + cs.length) ds := by
  fun_induction lexFrom place cs with
  | case1 => simp
  | case2 place c rest taken stop ih =>
      rcases between with nothing | ⟨t, member, ends⟩
      · cases nothing
      rw [List.cons_append, lexFrom] at member ⊢
      have within : (munch c (rest ++ ds)).2 ≤ rest.length := by
        rcases List.mem_cons.mp member with rfl | later
        · simp only [Token.span, List.length_cons] at ends
          omega
        · have := lexFromStops later
          simp only [List.length_cons] at ends
          omega
      have same : munch c (rest ++ ds) = taken := munchWithin within
      rw [same] at within member ⊢
      have reach : stop + (rest.drop taken.2).length = place + (c :: rest).length := by
        simp only [stop, List.length_drop, List.length_cons]
        omega
      rw [List.drop_append_of_le_length within] at member ⊢
      have onward : rest.drop taken.2 = [] ∨
          ∃ t ∈ lexFrom stop (rest.drop taken.2 ++ ds), t.span.stop
            = stop + (rest.drop taken.2).length := by
        rcases List.mem_cons.mp member with rfl | later
        · simp only [Token.span, List.length_cons] at ends
          exact .inl (List.drop_eq_nil_of_le (by omega))
        · exact .inr ⟨t, later, by rw [reach, ends]⟩
      rw [ih onward, reach]
      rfl

end Lexing

section Names

theorem formStubsApart {as : List Token}
    (unescaped : as.getLast?.bind Token.word? ≠ some .backslash) (bs : List Token) :
    formStubs (as ++ bs) = formStubs as ++ formStubs bs := by
  have later {t : Token} {rest : List Token}
      (unescaped : (t :: rest).getLast?.bind Token.word? ≠ some .backslash) :
      rest.getLast?.bind Token.word? ≠ some .backslash := by
    cases rest with
    | nil => simp
    | cons => simpa [List.getLast?_cons_cons] using unescaped
  fun_induction formStubs as with
  | case1 first name last rest ih =>
      simp only [List.cons_append, formStubs, ih (later (later unescaped))]
  | case2 t rest single ih =>
      rw [List.cons_append, formStubs, ih (later unescaped), List.cons_append]
      rintro first name last rest' rfl same
      cases rest with
      | nil => exact unescaped rfl
      | cons b rest =>
          cases same
          exact single _ _ _ _ rfl rfl
  | case3 => rfl

def Between (before after : String) : Prop :=
  ∃ t ∈ lex (before ++ after), t.span.stop = before.length

variable {before after blank : String} {w : Word}

theorem bareNamesBetween (between : Between before after) (unescaped : Unescaped before) :
    bareNames (before ++ after) = bareNames before ++ bareNames after := by
  obtain ⟨t, member, ends⟩ := between
  have parts : lex (before ++ after) = lex before ++ lexFrom before.length after.toList := by
    rw [lex, String.toList_append] at member ⊢
    rw [lexFromBetween (.inr ⟨t, member, by rw [ends, String.length_toList, Nat.zero_add]⟩),
      String.length_toList, Nat.zero_add, lex]
  rw [← bareNamesFrom before.length after, bareNames, namedTokens, parts, formStubsApart unescaped]
  simp only [resolveNames, List.map_append]
  rfl

theorem bareNamesBlank (h : Blank blank w) :
    bareNames (before ++ blank ++ after)
      = bareNames before ++ .plain w ⟨0, 0⟩ :: bareNames after := by
  rw [bareNames, namedBlank h, List.map_append, List.map_cons, List.map_map]
  simp only [Function.comp_def, Token.forgetMoved]
  rfl

end Names

section Reading

def standing (text : String) : Standing := Standing.after ⟨false, false⟩ (bareNames text)

variable {before after blank : String}

/-- A space between two words, or the end of a line outside of comments, changes nothing in what
a document says, if no group is captured behind it. -/
theorem blankMeansNothing (between : Between before after) (unescaped : Unescaped before)
    (apart : (standing before).captures = true → NoGroup (bareNames after))
    (white : blank = " " ∨ blank = "\n" ∧ (standing before).inComment = false)
    (path : Option String) :
    (⟨before ++ blank ++ after, path⟩ : Document).reading
      = (⟨before ++ after, path⟩ : Document).reading := by
  obtain ⟨w, is, isBlank⟩ : ∃ w, Blank blank w
      ∧ isBlank (standing before).inComment (.plain w ⟨0, 0⟩) = true := by
    rcases white with rfl | ⟨rfl, outside⟩
    · exact ⟨.space, .space, rfl⟩
    · exact ⟨.newline, .newline, by rw [outside]; rfl⟩
  obtain ⟨squeezed, deep⟩ := blankCaptured isBlank apart
  rw [← bareNamesBetween between unescaped, ← bareNamesBlank is] at squeezed deep
  have bare (text : String) : squeeze false (captured text)
      = squeeze false (captureArguments (bareNames text)) := by
    rw [← capturedBare, ← movedTokensMap, squeezeMoved]
  rw [readingSqueezed, readingSqueezed, nestingBare, nestingBare, bare, bare, squeezed, deep]

theorem sumSpaced :
    let before := "\\$(\\frac\x7b1"
    let after := "+2\x7d\x7b3\x7d\\$)"
    (⟨before ++ " " ++ after, none⟩ : Document).reading
        = (⟨before ++ after, none⟩ : Document).reading
      ∧ (⟨before ++ "\n" ++ after, none⟩ : Document).reading
        = (⟨before ++ after, none⟩ : Document).reading
      ∧ (⟨before ++ after, none⟩ : Document).reading = .ok [.expression (.binary
          (.operator .division)
          (.binary (.operator .addition) (.literal (.integer 1) (some ⟨0, 0⟩))
            (.literal (.integer 2) (some ⟨0, 0⟩)) none)
          (.literal (.integer 3) (some ⟨0, 0⟩)) (some ⟨0, 0⟩))] := by
  intro before after
  have words : lex (before ++ after) = [.plain (.regionOpening .inline) ⟨0, 3⟩,
      .plain .backslash ⟨3, 4⟩, .plain (.text "frac") ⟨4, 8⟩, .plain (.opening .brace) ⟨8, 9⟩,
      .plain (.number "1") ⟨9, 10⟩, .plain (.sign .plus) ⟨10, 11⟩,
      .plain (.number "2") ⟨11, 12⟩, .plain (.closing .brace) ⟨12, 13⟩,
      .plain (.opening .brace) ⟨13, 14⟩, .plain (.number "3") ⟨14, 15⟩,
      .plain (.closing .brace) ⟨15, 16⟩, .plain (.regionClosing .inline) ⟨16, 19⟩] := by cbv
  have between : Between before after :=
    ⟨.plain (.number "1") ⟨9, 10⟩, by rw [words]; simp, by cbv⟩
  have last : (lex before).getLast?.bind Token.word? = some (.number "1") := by cbv
  have unescaped : Unescaped before := by
    rw [Unescaped, last]
    simp
  have inside : standing before = ⟨false, false⟩ := by cbv
  have apart : (standing before).captures = true → NoGroup (bareNames after) := by
    rw [inside]
    simp
  exact ⟨blankMeansNothing between unescaped apart (.inl rfl) none,
    blankMeansNothing between unescaped apart (.inr ⟨rfl, by rw [inside]⟩) none, by cbv⟩

theorem groupBehindSpace :
    let before := "\\$(\\frac"
    let after := "\x7b1\x7d\x7b2\x7d\\$)"
    Between before after ∧ Unescaped before ∧ (standing before).inComment = false
      ∧ (Reader.outside.after (captured before)).1.opened = some (.inline, ⟨0, 3⟩)
      ∧ (∃ statements, (⟨before ++ after, none⟩ : Document).parse = .ok statements)
      ∧ (⟨before ++ " " ++ after, none⟩ : Document).parse
        = .error (.malformed (.unknownCommand "frac") (some ⟨3, 8⟩)) := by
  intro before after
  have words : lex (before ++ after) = [.plain (.regionOpening .inline) ⟨0, 3⟩,
      .plain .backslash ⟨3, 4⟩, .plain (.text "frac") ⟨4, 8⟩, .plain (.opening .brace) ⟨8, 9⟩,
      .plain (.number "1") ⟨9, 10⟩, .plain (.closing .brace) ⟨10, 11⟩,
      .plain (.opening .brace) ⟨11, 12⟩, .plain (.number "2") ⟨12, 13⟩,
      .plain (.closing .brace) ⟨13, 14⟩, .plain (.regionClosing .inline) ⟨14, 17⟩] := by cbv
  have last : (lex before).getLast?.bind Token.word? = some (.text "frac") := by cbv
  have between : Between before after :=
    ⟨.plain (.text "frac") ⟨4, 8⟩, by rw [words]; simp, by cbv⟩
  refine ⟨between, ?_, by cbv, by cbv, ?_, by cbv⟩
  · rw [Unescaped, last]
    simp
  · exact ⟨[.expression (.binary (.operator .division)
      (.literal (.integer 1) (some ⟨9, 10⟩)) (.literal (.integer 2) (some ⟨12, 13⟩))
      (some ⟨3, 14⟩))], by cbv⟩

end Reading
end LiterateMath
