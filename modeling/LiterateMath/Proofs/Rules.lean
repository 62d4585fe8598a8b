import LiterateMath.Proofs.Extracts

/-! The rules that words follow, and the lexer against them. Each rule matches some texts and makes
a word of them, and no text is matched by two of them. What the lexer takes at a place is the
longest text there that any rule matches, so words stand side by side over the whole text. -/
namespace LiterateMath

inductive Rule where
  | fixed (spelling : List Char) (word : Word)
  | numberSet
  | blank
  | number
  | text
  deriving DecidableEq

namespace Rule

def fixedSpellings : List (List Char × Word) :=
  [(['\\', '$', '('], .regionOpening .inline), (['\\', '$', '['], .regionOpening .display),
   (['\\', '$', ')'], .regionClosing .inline), (['\\', '$', ']'], .regionClosing .display),
   (['\\', '('], .escape .leftParen), (['\\', ')'], .escape .rightParen),
   (['\\', '['], .escape .leftSquare), (['\\', ']'], .escape .rightSquare),
   (['\\', '\x7b'], .opening .escapedBrace), (['\\', '\x7d'], .closing .escapedBrace),
   (['\\', '#'], .escape .hash), (['\\', '\\'], .escape .backslash),
   (['\\', '%'], .escape .percent), (['\\'], .backslash),
   (['('], .opening .paren), ([')'], .closing .paren),
   (['\x7b'], .opening .brace), (['\x7d'], .closing .brace),
   (['['], .opening .square), ([']'], .closing .square),
   ([','], .comma), ([':'], .colon), (['='], .equals), (['_'], .underscore),
   (['^'], .sign .caret), (['%'], .percent), (['.'], .point),
   (['+'], .sign .plus), (['-'], .sign .minus), (['*'], .sign .star), (['/'], .sign .slash),
   (['\n'], .newline)]

def all : List Rule :=
  fixedSpellings.map (fun entry => fixed entry.1 entry.2) ++ [numberSet, blank, number, text]

def marks : List Char :=
  ['\\', '(', ')', '\x7b', '\x7d', '[', ']', ',', ':', '=', '_', '^', '%', '.', '+', '-', '*', '/',
   '\n', '\t', '\r', ' ']

def isTextual (c : Char) : Bool := !c.isDigit && !marks.contains c

def word? (rule : Rule) (cs : List Char) : Option Word :=
  match rule with
  | fixed spelling word => if cs = spelling then some word else none
  | numberSet =>
      match cs with
      | ['\\', c] => (NumberSet.ofLetter? c).map .numberSet
      | _ => none
  | blank => if cs = [' '] ∨ cs = ['\t'] ∨ cs = ['\r'] then some .space else none
  | number =>
      if cs ≠ [] ∧ cs.all Char.isDigit then some (.number (String.ofList cs)) else none
  | text => if cs ≠ [] ∧ cs.all isTextual then some (.text (String.ofList cs)) else none

def accepts (rule : Rule) (cs : List Char) : Prop := ∃ w, rule.word? cs = some w

variable {rule : Rule} {cs : List Char}

theorem ruleListed : rule ∈ all ↔ (∃ entry ∈ fixedSpellings, rule = fixed entry.1 entry.2) ∨
    rule = numberSet ∨ rule = blank ∨ rule = number ∨ rule = text := by
  simp [all, eq_comm]

theorem fixedAccepts {spelling : List Char} {word : Word} :
    (fixed spelling word).accepts cs ↔ cs = spelling := by
  simp [accepts, word?]

theorem numberSetAccepts : numberSet.accepts cs ↔ ∃ s : NumberSet, cs = ['\\', s.letter] := by
  constructor
  · rintro ⟨w, found⟩
    simp only [word?] at found
    split at found
    · rename_i c
      obtain ⟨s, known, -⟩ := Option.map_eq_some_iff.mp found
      have letter : s.letter = c := by simpa using List.find?_some known
      exact ⟨s, by rw [letter]⟩
    · cases found
  · rintro ⟨s, rfl⟩
    exact ⟨.numberSet s, by simp [word?, NumberSet.ofLetterLetter]⟩

theorem blankAccepts : blank.accepts cs ↔ cs = [' '] ∨ cs = ['\t'] ∨ cs = ['\r'] := by
  simp [accepts, word?]

theorem numberAccepts : number.accepts cs ↔ cs ≠ [] ∧ ∀ c ∈ cs, c.isDigit = true := by
  simp [accepts, word?]

theorem textAccepts : text.accepts cs ↔ cs ≠ [] ∧ ∀ c ∈ cs, isTextual c = true := by
  simp [accepts, word?]

theorem markListed {c : Char} : c ∈ marks ↔ (mark? c).isSome = true := by
  unfold mark?
  split <;> simp_all [marks]

theorem textualOrdinary : isTextual = isOrdinary := by
  funext c
  have marked : marks.contains c = (mark? c).isSome := by
    rw [Bool.eq_iff_iff, List.contains_iff_mem, markListed]
  rw [isTextual, isOrdinary, marked, Option.not_isSome]

def only (cs : List Char) : Rule :=
  match fixedSpellings.find? (fun entry => entry.1 = cs) with
  | some entry => fixed entry.1 entry.2
  | none =>
      match cs with
      | '\\' :: _ => numberSet
      | c :: _ => if c.isDigit then number else if isTextual c then text else blank
      | [] => blank

theorem onlyFixed {entry : List Char × Word} (member : entry ∈ fixedSpellings) :
    only entry.1 = fixed entry.1 entry.2 := by
  have distinct : (fixedSpellings.map Prod.fst).Nodup := by decide
  obtain ⟨found, first⟩ : ∃ found,
      fixedSpellings.find? (fun other => other.1 = entry.1) = some found :=
    Option.isSome_iff_exists.mp (List.find?_isSome.mpr ⟨entry, member, by simp⟩)
  have same : found = entry := List.inj_on_of_nodup_map distinct
    (List.mem_of_find?_eq_some first) member (by simpa using List.find?_some first)
  simp only [only, first, same]

theorem onlyUnmarked {c : Char} (unmarked : c ∉ marks) :
    only (c :: cs) = if c.isDigit then number else if isTextual c then text else blank := by
  have marked : fixedSpellings.all (fun entry => entry.1.head?.all marks.contains) = true := rfl
  have spelled : fixedSpellings.find? (fun entry => entry.1 = c :: cs) = none := by
    refine List.find?_eq_none.mpr fun entry member same => unmarked ?_
    have first := List.all_eq_true.mp marked entry member
    rw [of_decide_eq_true same] at first
    exact List.contains_iff_mem.mp first
  simp only [only, spelled]
  split
  case h_1 same =>
    cases same
    exact absurd (by decide) unmarked
  case h_2 same =>
    cases same
    rfl
  case h_3 same => cases same

theorem onlyAccepts (listed : rule ∈ all) (fits : rule.accepts cs) : rule = only cs := by
  rcases ruleListed.mp listed with ⟨entry, member, rfl⟩ | rfl | rfl | rfl | rfl
  · rw [fixedAccepts.mp fits, onlyFixed member]
  · obtain ⟨s, rfl⟩ := numberSetAccepts.mp fits
    cases s <;> rfl
  · rcases blankAccepts.mp fits with rfl | rfl | rfl <;> rfl
  · obtain ⟨filled, digits⟩ := numberAccepts.mp fits
    obtain ⟨c, rest, rfl⟩ := List.exists_cons_of_ne_nil filled
    have digit := digits c List.mem_cons_self
    have unmarked : c ∉ marks := by simp [markListed, digitUnmarked digit]
    rw [onlyUnmarked unmarked, if_pos digit]
  · obtain ⟨filled, letters⟩ := textAccepts.mp fits
    obtain ⟨c, rest, rfl⟩ := List.exists_cons_of_ne_nil filled
    have textual := letters c List.mem_cons_self
    obtain ⟨digit, unmarked⟩ : c.isDigit = false ∧ c ∉ marks := by
      simpa [isTextual] using textual
    rw [onlyUnmarked unmarked, if_neg (by simp [digit]), if_pos textual]

theorem rulesExclude (cs : List Char) :
    all.Pairwise fun rule other => ¬ (rule.accepts cs ∧ other.accepts cs) := by
  have distinct : all.Nodup := by decide
  refine distinct.imp_of_mem fun listed listed' differ fits => differ ?_
  rw [onlyAccepts listed fits.1, onlyAccepts listed' fits.2]

end Rule

section Munching

open Rule

variable {c : Char} {rest : List Char}

theorem fixedMatches {spelling : List Char} {w : Word} (entry : (spelling, w) ∈ fixedSpellings) :
    ∃ rule ∈ Rule.all, rule.word? spelling = some w :=
  ⟨.fixed spelling w, List.mem_append_left _ (List.mem_map_of_mem entry), by simp [word?]⟩

theorem takeRun (p : Char → Bool) (c : Char) (rest : List Char) :
    (c :: rest).take ((rest.takeWhile p).length + 1) = c :: rest.takeWhile p := by
  rw [List.take_succ_cons, ← List.prefix_iff_eq_take.mp (List.takeWhile_prefix p)]

theorem munchMatches (c : Char) (rest : List Char) : ∃ rule ∈ Rule.all,
    rule.word? ((c :: rest).take ((munch c rest).2 + 1)) = some (munch c rest).1 := by
  unfold munch
  split
  · rename_i backslash
    subst backslash
    unfold afterBackslash
    split
    case h_14 =>
      split
      · rename_i s known
        exact ⟨.numberSet, by simp [Rule.all], by simp [word?, known]⟩
      · exact fixedMatches (by simp [fixedSpellings])
    all_goals exact fixedMatches (by simp [fixedSpellings])
  · split
    · rename_i w mark
      unfold mark? at mark
      split at mark <;> cases mark <;>
        first
          | exact ⟨.blank, by simp [Rule.all], rfl⟩
          | exact fixedMatches (by simp [fixedSpellings])
    · rename_i unmarked
      split
      · rename_i digit
        refine ⟨.number, by simp [Rule.all], ?_⟩
        rw [takeRun]
        simp [word?, digit]
      · rename_i digit
        refine ⟨.text, by simp [Rule.all], ?_⟩
        have ordinary : isOrdinary c = true := by simp [isOrdinary, digit, unmarked]
        rw [takeRun]
        simp [word?, textualOrdinary, ordinary]

theorem fixedTaken : ∀ entry ∈ fixedSpellings, ∀ c rest tail,
    entry.1 ++ tail = c :: rest → entry.1.length ≤ (munch c rest).2 + 1 := by
  simp only [fixedSpellings, List.forall_mem_cons, List.not_mem_nil,
    false_imp_iff, implies_true, and_true]
  and_intros
  all_goals
    rintro c rest tail ⟨⟩
    simp [munch, afterBackslash]

theorem unmarkedPlain (unmarked : mark? c = none) : c ≠ '\\' := by
  rintro rfl
  cases unmarked

theorem munchDigits (digit : c.isDigit = true) :
    (munch c rest).2 = (rest.takeWhile Char.isDigit).length := by
  have unmarked := digitUnmarked digit
  simp [munch, unmarkedPlain unmarked, unmarked, digit]

theorem munchLetters (ordinary : isOrdinary c = true) :
    (munch c rest).2 = (rest.takeWhile isOrdinary).length := by
  obtain ⟨digit, unmarked⟩ : c.isDigit = false ∧ mark? c = none := by
    simpa [isOrdinary] using ordinary
  simp [munch, unmarkedPlain unmarked, unmarked, digit]

theorem runLongest {p : Char → Bool} {cs : List Char} (filled : cs ≠ [])
    (each : ∀ d ∈ cs, p d = true) (begins : cs <+: c :: rest)
    (taken : p c = true → (munch c rest).2 = (rest.takeWhile p).length) :
    cs.length ≤ (munch c rest).2 + 1 := by
  obtain ⟨d, run, rfl⟩ := List.exists_cons_of_ne_nil filled
  obtain ⟨tail, whole⟩ := begins
  rw [List.cons_append] at whole
  obtain ⟨rfl, rfl⟩ := List.cons.inj whole
  obtain ⟨first, later⟩ := List.forall_mem_cons.mp each
  rw [taken first, List.takeWhile_append_of_pos later, List.length_append, List.length_cons]
  omega

theorem munchLongest {rule : Rule} {cs : List Char} (listed : rule ∈ Rule.all)
    (begins : cs <+: c :: rest) (fits : rule.accepts cs) : cs.length ≤ (munch c rest).2 + 1 := by
  rcases ruleListed.mp listed with ⟨entry, member, rfl⟩ | rfl | rfl | rfl | rfl
  · obtain rfl := fixedAccepts.mp fits
    obtain ⟨tail, whole⟩ := begins
    exact fixedTaken entry member c rest tail whole
  · obtain ⟨s, rfl⟩ := numberSetAccepts.mp fits
    obtain ⟨tail, whole⟩ := begins
    cases whole
    cases s <;> exact Nat.le_refl 2
  · have one : cs.length = 1 := by rcases blankAccepts.mp fits with rfl | rfl | rfl <;> rfl
    omega
  · obtain ⟨filled, digits⟩ := numberAccepts.mp fits
    exact runLongest filled digits begins munchDigits
  · obtain ⟨filled, letters⟩ := textAccepts.mp fits
    rw [textualOrdinary] at letters
    exact runLongest filled letters begins munchLetters

structure LongestMatch (cs : List Char) (length : Nat) (w : Word) : Prop where
  matched : ∃ rule ∈ Rule.all, rule.word? (cs.take length) = some w
  alone : Rule.all.Pairwise fun rule other =>
    ¬ (rule.accepts (cs.take length) ∧ other.accepts (cs.take length))
  longest : ∀ rule ∈ Rule.all, ∀ ds, ds <+: cs → rule.accepts ds → ds.length ≤ length

theorem munchLongestMatch (c : Char) (rest : List Char) :
    LongestMatch (c :: rest) ((munch c rest).2 + 1) (munch c rest).1 where
  matched := munchMatches c rest
  alone := rulesExclude _
  longest _ listed _ begins fits := munchLongest listed begins fits

theorem runWord {cs : List Char} {length : Nat} {w : Word} (found : LongestMatch cs length w)
    {s : String} (run : w = .text s ∨ w = .number s) : s = String.ofList (cs.take length) := by
  obtain ⟨rule, listed, made⟩ := found.matched
  rcases ruleListed.mp listed with ⟨entry, member, rfl⟩ | rfl | rfl | rfl | rfl
  · have each : ∀ entry ∈ fixedSpellings, ∀ s, entry.2 ≠ .text s ∧ entry.2 ≠ .number s := by
      simp [fixedSpellings]
    obtain ⟨-, rfl⟩ := by simpa [word?] using made
    rcases run with same | same
    · exact absurd same (each entry member s).1
    · exact absurd same (each entry member s).2
  · simp only [word?] at made
    split at made
    · obtain ⟨n, -, rfl⟩ := Option.map_eq_some_iff.mp made
      simp at run
    · cases made
  · obtain ⟨-, rfl⟩ := by simpa [word?] using made
    simp at run
  · obtain ⟨-, rfl⟩ := by simpa [word?] using made
    simpa [eq_comm] using run
  · obtain ⟨-, rfl⟩ := by simpa [word?] using made
    simpa [eq_comm] using run

theorem runFirst {s : String} (run : (munch c rest).1 = .text s ∨ (munch c rest).1 = .number s) :
    c ∈ s.toList := by
  rw [runWord (munchLongestMatch c rest) run]
  simp

theorem munchText {s : String} (word : (munch c rest).1 = .text s) : isOrdinary c = true := by
  have lexed := munchLexed c rest
  rw [word] at lexed
  exact lexed.2 c (runFirst (.inl word))

theorem munchNumber {s : String} (word : (munch c rest).1 = .number s) : c.isDigit = true := by
  have lexed := munchLexed c rest
  rw [word] at lexed
  exact lexed.2 c (runFirst (.inr word))

theorem runApart {p : Char → Bool} {taken : Nat} {d : Char} {more : List Char}
    (stops : taken = (rest.takeWhile p).length) (next : rest.drop taken = d :: more) :
    p d = false := by
  have behind : rest.dropWhile p = d :: more :=
    calc rest.dropWhile p = (rest.takeWhile p ++ rest.dropWhile p).drop taken :=
          (List.drop_left' stops.symm).symm
      _ = d :: more := by rw [List.takeWhile_append_dropWhile, next]
  simpa [behind] using List.head?_dropWhile_not p rest

theorem munchApart {d : Char} {more : List Char} (next : rest.drop (munch c rest).2 = d :: more)
    (s s' : String) : ¬ ((munch c rest).1 = .text s ∧ (munch d more).1 = .text s') ∧
      ¬ ((munch c rest).1 = .number s ∧ (munch d more).1 = .number s') := by
  constructor
  · rintro ⟨first, second⟩
    have stops := runApart (munchLetters (munchText first)) next
    exact Bool.false_ne_true (stops.symm.trans (munchText second))
  · rintro ⟨first, second⟩
    have stops := runApart (munchDigits (munchNumber first)) next
    exact Bool.false_ne_true (stops.symm.trans (munchNumber second))

end Munching

section Tokens

variable {text : String} {t : Token}

def Token.Apart (t u : Token) : Prop := ∀ s s',
  ¬ (t.word? = some (.text s) ∧ u.word? = some (.text s')) ∧
    ¬ (t.word? = some (.number s) ∧ u.word? = some (.number s'))

theorem lexedMunch (member : t ∈ lex text) : ∃ c rest,
    text.toList.drop t.span.start = c :: rest ∧
      t = .plain (munch c rest).1 ⟨t.span.start, t.span.start + 1 + (munch c rest).2⟩ := by
  obtain ⟨xs, ys, lexed⟩ := List.append_of_mem member
  obtain ⟨as, bs, chars, -, later⟩ := lexFromParts xs lexed
  cases bs with
  | nil => simp [lexFrom] at later
  | cons c rest =>
      rw [lexFrom] at later
      obtain ⟨rfl, -⟩ := List.cons.inj later
      refine ⟨c, rest, ?_, rfl⟩
      rw [chars, Token.span, Nat.zero_add]
      exact List.drop_left

theorem lexFromApart (place : Nat) (cs : List Char) :
    (lexFrom place cs).IsChain Token.Apart := by
  fun_induction lexFrom place cs with
  | case1 => exact .nil
  | case2 place c rest taken stop ih =>
      cases left : rest.drop taken.2 with
      | nil =>
          rw [lexFrom]
          exact .singleton _
      | cons d more =>
          rw [left, lexFrom] at ih
          rw [lexFrom]
          refine .cons_cons (fun s s' => ?_) ih
          simpa [Token.word?] using munchApart left s s'

structure Lossless (text : String) : Prop where
  tiles : Tiles 0 (lex text) text.length
  longest : ∀ t ∈ lex text, ∃ w, t = .plain w t.span ∧
    LongestMatch (text.toList.drop t.span.start) (t.span.stop - t.span.start) w
  reads : ∀ t ∈ lex text, ∀ s, t.word? = some (.text s) ∨ t.word? = some (.number s) →
    s = textUnder text t.span
  apart : (lex text).IsChain Token.Apart

theorem lexLossless (text : String) : Lossless text := by
  have longest (t : Token) (member : t ∈ lex text) : ∃ w, t = .plain w t.span ∧
      LongestMatch (text.toList.drop t.span.start) (t.span.stop - t.span.start) w := by
    obtain ⟨c, rest, behind, same⟩ := lexedMunch member
    have long : t.span.stop - t.span.start = (munch c rest).2 + 1 := by
      rw [same]
      simp only [Token.span]
      omega
    rw [behind, long]
    exact ⟨(munch c rest).1, by rw [same]; rfl, munchLongestMatch c rest⟩
  refine ⟨?_, longest, ?_, lexFromApart 0 text.toList⟩
  · have tiles := lexFromTiles 0 text.toList
    rwa [Nat.zero_add, String.length_toList] at tiles
  · intro t member s word
    obtain ⟨w, same, found⟩ := longest t member
    rw [same] at word
    exact runWord found (by simpa [Token.word?] using word)

def BeginsBlank (text : String) : Prop :=
  ∃ d ∈ text.toList.head?, d ∈ [' ', '\t', '\r', '\n']

theorem lexApart (before : String) {after : String} (blank : BeginsBlank after) :
    lex (before ++ after)
      = lex before ++ (lex after).map (Token.moved (.shift before.length)) := by
  obtain ⟨d, begins, blank⟩ := blank
  obtain ⟨ds, chars⟩ := List.head?_eq_some_iff.mp begins
  obtain ⟨ends, escape⟩ : EndsWords d ∧ afterBackslash (d :: ds) = afterBackslash [] := by
    simp only [List.mem_cons, List.not_mem_nil, or_false] at blank
    rcases blank with rfl | rfl | rfl | rfl <;>
      exact ⟨⟨by decide, by decide, by decide⟩, rfl⟩
  rw [lex, String.toList_append, chars, lexFromSeam ends fun _ => escape, Nat.zero_add,
    lexFromZero before.toList.length, String.length_toList, lex, lex, chars]

/-- The lexer loses nothing of any text, and does not look past a blank. -/
theorem lexingLossless : (∀ text, Lossless text) ∧ ∀ before after, BeginsBlank after →
    lex (before ++ after)
      = lex before ++ (lex after).map (Token.moved (.shift before.length)) :=
  ⟨lexLossless, fun before _ blank => lexApart before blank⟩

-- Neither the dollar sign nor the tab makes a marker of the region of the backslash before it.
theorem brokenMarkerLossless :
    BeginsBlank "\t\\N$" ∧ lex ("1\\$" ++ "\t\\N$")
      = [.plain (.number "1") ⟨0, 1⟩, .plain .backslash ⟨1, 2⟩, .plain (.text "$") ⟨2, 3⟩,
        .plain .space ⟨3, 4⟩, .plain (.numberSet .naturals) ⟨4, 6⟩, .plain (.text "$") ⟨6, 7⟩] := by
  have blank : BeginsBlank "\t\\N$" := ⟨'\t', rfl, by decide⟩
  exact ⟨blank, (lexingLossless.2 "1\\$" _ blank).trans (by cbv)⟩

end Tokens
end LiterateMath
