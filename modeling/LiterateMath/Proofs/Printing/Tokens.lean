import LiterateMath.Proofs.Prose
import LiterateMath.Proofs.Slicing

/-! What the tokens of a slice are like. Text is ordinary characters and is no keyword, numbers
are digits, and no pass over a document changes that. -/
namespace LiterateMath

def Letters (s : String) : Prop := s.toList ≠ [] ∧ ∀ c ∈ s.toList, isOrdinary c = true

def Digits (s : String) : Prop := s.toList ≠ [] ∧ ∀ c ∈ s.toList, c.isDigit = true

theorem lettersNoDigits {s : String} (h : Letters s) : s.toList.all Char.isDigit = false := by
  obtain ⟨c, run, same⟩ := List.exists_cons_of_ne_nil h.1
  have first := h.2 c (by simp [same])
  simp only [isOrdinary, Bool.and_eq_true, Bool.not_eq_eq_eq_not, Bool.not_true] at first
  simp [same, first.1]

namespace Word

def lexed : Word → Prop
  | text s => Letters s
  | number s => Digits s
  | _ => True

def fixed : Word → Bool
  | text _ | number _ => false
  | _ => true

theorem fixedLexed {w : Word} (h : w.fixed = true) : w.lexed := by
  cases w with
  | text => cases h
  | number => cases h
  | _ => trivial

def proper (w : Word) : Prop := w.lexed ∧ ∀ s, w = text s → Keyword.ofText? s = none

theorem fixedProper {w : Word} (h : w.fixed = true) : w.proper :=
  ⟨fixedLexed h, by rintro s rfl; cases h⟩

end Word

section Words

mutual

def Token.words : Token → List Word
  | .plain w _ => [w]
  | .command _ required optional _ => groupWords required ++ groupWords optional

def tokenWords : List Token → List Word
  | [] => []
  | t :: rest => t.words ++ tokenWords rest

def groupWords : List (List Token) → List Word
  | [] => []
  | g :: rest => tokenWords g ++ groupWords rest

end

theorem tokenWordsMap (ts : List Token) : tokenWords ts = ts.flatMap Token.words := by
  induction ts with
  | nil => rfl
  | cons t rest ih => rw [tokenWords, ih, List.flatMap_cons]

theorem groupWordsMap (groups : List (List Token)) :
    groupWords groups = groups.flatMap tokenWords := by
  induction groups with
  | nil => rfl
  | cons g rest ih => rw [groupWords, ih, List.flatMap_cons]

def Lexed (ts : List Token) : Prop := ∀ t ∈ ts, ∀ w ∈ t.words, w.lexed

theorem lexedWords {ts : List Token} : Lexed ts ↔ ∀ w ∈ tokenWords ts, w.lexed := by
  rw [tokenWordsMap]
  constructor
  · intro h w member
    obtain ⟨t, inside, word⟩ := List.mem_flatMap.mp member
    exact h t inside w word
  · intro h t inside w word
    exact h w (List.mem_flatMap.mpr ⟨t, inside, word⟩)

theorem Lexed.part {ts us : List Token} (h : Lexed ts) (part : ∀ t ∈ us, t ∈ ts) : Lexed us :=
  fun t member => h t (part t member)

theorem Lexed.cons {t : Token} {ts : List Token} (first : ∀ w ∈ t.words, w.lexed)
    (rest : Lexed ts) : Lexed (t :: ts) := by
  intro t' member
  rcases List.mem_cons.mp member with rfl | later
  · exact first
  · exact rest t' later

end Words

section Passes

theorem afterBackslashFixed (cs : List Char) : (afterBackslash cs).1.fixed = true := by
  unfold afterBackslash
  split <;> try rfl
  split <;> rfl

theorem munchLexed (c : Char) (rest : List Char) : (munch c rest).1.lexed := by
  unfold munch
  split
  · exact Word.fixedLexed (afterBackslashFixed rest)
  · split
    · rename_i w mark
      refine Word.fixedLexed ?_
      unfold mark? at mark
      split at mark <;> cases mark <;> rfl
    · rename_i unmarked
      split
      · rename_i digit
        refine ⟨by simp, fun c' member => ?_⟩
        rw [String.toList_ofList] at member
        rcases List.mem_cons.mp member with rfl | later
        · exact digit
        · exact List.all_eq_true.mp (List.all_takeWhile) c' later
      · rename_i noDigit
        refine ⟨by simp, fun c' member => ?_⟩
        rw [String.toList_ofList] at member
        rcases List.mem_cons.mp member with rfl | later
        · simp [isOrdinary, noDigit, unmarked]
        · exact List.all_eq_true.mp (List.all_takeWhile) c' later

theorem lexFromLexed (place : Nat) (cs : List Char) : Lexed (lexFrom place cs) := by
  fun_induction lexFrom place cs with
  | case1 => simp [Lexed]
  | case2 place c rest taken stop ih =>
      exact ih.cons (by simpa [Token.words] using munchLexed c rest)

theorem formStubsLexed {ts : List Token} (h : Lexed ts) : Lexed (formStubs ts) := by
  fun_induction formStubs ts with
  | case1 first name last rest ih =>
      exact (ih (h.part (by simp +contextual))).cons (by simp [Token.words, Word.lexed])
  | case2 t rest single ih =>
      exact (ih (h.part (by simp +contextual))).cons (h t List.mem_cons_self)
  | case3 => exact h

theorem resolveNamesLexed {ts : List Token} (h : Lexed ts) : Lexed (resolveNames ts) := by
  have meanings : ∀ entry ∈ commandTable, entry.2.fixed = true := by decide
  intro t member
  obtain ⟨t', inside, rfl⟩ := List.mem_map.mp member
  unfold resolveName
  split
  · rename_i name place
    intro w word
    obtain rfl := List.mem_singleton.mp word
    cases found : meaning? name with
    | none => trivial
    | some w =>
        obtain ⟨before, after, split, -⟩ := List.lookup_eq_some_iff.mp found
        exact Word.fixedLexed (meanings (name, w) (by rw [split]; simp))
  · exact h t' inside

theorem takeGroupsPart {ts : List Token} {g : Group} (member : g ∈ (takeGroups ts).1) :
    ∀ t ∈ g.inside, t ∈ ts := by
  fun_induction takeGroups ts with
  | case1 => cases member
  | case2 => cases member
  | case3 t rest kind found cut last more ih =>
      have whole := splitGroupAppend kind.bracket 0 rest
      intro t' inside
      rcases List.mem_cons.mp member with rfl | later
      · refine List.mem_cons_of_mem t ?_
        rw [← whole]
        exact List.mem_append_left _ inside
      · refine List.mem_cons_of_mem t ?_
        rw [← whole]
        exact List.mem_append_right _ (List.mem_of_mem_drop (ih later t' inside))

theorem captureLexed {ts : List Token} (h : Lexed ts) : Lexed (captureArguments ts) := by
  fun_induction captureArguments ts with
  | case1 => exact h
  | case2 name place rest taken groups ih ih' =>
      have rest' : Lexed rest := h.part (by simp +contextual)
      have later := ih' (rest'.part fun t member => (takeGroupsRest rest).mem member)
      refine later.cons fun w member => ?_
      have inner (kind : GroupKind) : ∀ w ∈ groupWords (groupsOf kind groups), w.lexed := by
        intro w word
        rw [groupWordsMap] at word
        obtain ⟨inside, kept, word⟩ := List.mem_flatMap.mp word
        obtain ⟨⟨kind', inside'⟩, chosen, rfl⟩ := List.mem_map.mp kept
        obtain ⟨g, -, same⟩ := List.mem_map.mp (List.mem_filter.mp chosen).1
        cases same
        exact lexedWords.mp (ih g (rest'.part (takeGroupsPart g.property))) w word
      cases last : taken.1.getLast?.map Group.last with
      | none =>
          rw [last] at member
          obtain rfl := List.mem_singleton.mp member
          trivial
      | some last' =>
          rw [last] at member
          rcases List.mem_append.mp member with required | optional
          · exact inner .required w required
          · exact inner .optional w optional
  | case3 t rest other ih =>
      exact (ih (h.part (by simp +contextual))).cons (h t List.mem_cons_self)

theorem nextLexed (s : Reader) {t : Token} (h : ∀ w ∈ t.words, w.lexed) : Lexed (s.next t).2 := by
  intro t' member
  obtain ⟨nothing, -⟩ | ⟨o, -, -, same⟩ | same := nextCases s t
  · rw [nothing] at member
    cases member
  · rw [same] at member
    obtain rfl := List.mem_singleton.mp member
    exact h
  · rw [same] at member
    obtain rfl := List.mem_singleton.mp member
    simp [Token.words, Word.lexed]

theorem afterLexed {s : Reader} {ts : List Token} (h : Lexed ts) : Lexed (s.after ts).2 := by
  induction ts generalizing s with
  | nil => exact h
  | cons t rest ih =>
      intro t' member
      rcases List.mem_append.mp member with first | later
      · exact nextLexed s (h t List.mem_cons_self) t' first
      · exact ih (h.part (by simp +contextual)) t' later

theorem codeTokensLexed {text : String} {code : List Token} (reads : codeTokens text = .ok code) :
    Lexed code := by
  rw [codeTokensCaptured] at reads
  split at reads
  · cases reads
  · obtain ⟨-, rfl⟩ := filterOk.mp reads
    exact afterLexed (captureLexed (resolveNamesLexed (formStubsLexed (lexFromLexed 0 _))))

end Passes

section Parts

variable {α : Type}

inductive Parted : List α → List (List α) → Prop
  | whole (part : List α) : Parted part [part]
  | cut {rest : List α} {parts : List (List α)} (part : List α) (sep : α) :
      Parted rest parts → Parted (part ++ sep :: rest) (part :: parts)

variable {as : List α} {parts : List (List α)}

theorem Parted.extend (parted : Parted as parts) (a : α) :
    Parted (a :: as) (parts.modifyHead (a :: ·)) := by
  cases parted with
  | whole => exact .whole (a :: as)
  | cut part sep later => exact .cut (a :: part) sep later

theorem Parted.stretch (parted : Parted as parts) {part : List α} (member : part ∈ parts) :
    ∃ us vs, as = us ++ (part ++ vs) := by
  induction parted with
  | whole part' =>
      obtain rfl := List.mem_singleton.mp member
      exact ⟨[], [], (List.append_nil part).symm⟩
  | cut part' sep _ ih =>
      rcases List.mem_cons.mp member with rfl | later
      · exact ⟨[], _, rfl⟩
      · obtain ⟨us, vs, rfl⟩ := ih later
        exact ⟨part' ++ sep :: us, vs, by simp⟩

theorem Parted.part (parted : Parted as parts) {part : List α} (member : part ∈ parts) :
    part ⊆ as := by
  obtain ⟨us, vs, rfl⟩ := parted.stretch member
  simp

theorem Parted.single {part : List α} (parted : Parted as [part]) : part = as := by
  cases parted with
  | whole => rfl
  | cut _ _ later => cases later

theorem Parted.sublist (parted : Parted as parts) : parts.flatten.Sublist as := by
  induction parted with
  | whole part => simp
  | cut part sep _ ih => exact (List.Sublist.refl part).append (ih.cons sep)

end Parts

section Slices

def Token.proper : Token → Prop
  | .plain w _ => w.proper
  | t => ∀ w ∈ t.words, w.lexed

theorem asKeywordProper {t : Token} (h : ∀ w ∈ t.words, w.lexed) : (asKeyword t).proper := by
  unfold asKeyword
  split
  · rename_i letters place
    have sound := h (.text letters) (by simp [Token.words])
    split
    · exact Word.fixedProper rfl
    · rename_i other
      refine ⟨sound, ?_⟩
      rintro s ⟨⟩
      exact other
  · rename_i other
    cases t with
    | plain w place =>
        refine ⟨h w (by simp [Token.words]), ?_⟩
        rintro s rfl
        exact absurd rfl (other s place)
    | command => exact h

theorem normalizeProper {ts : List Token} (h : Lexed ts) : ∀ t ∈ normalize ts, t.proper := by
  intro t member
  obtain ⟨t', kept, rfl⟩ := List.mem_map.mp member
  exact asKeywordProper (h t' (List.mem_filter.mp kept).1)

theorem modifyHeadMember {α : Type} {a : α} {part : List α} {parts : List (List α)}
    (member : part ∈ parts.modifyHead (a :: ·)) :
    part ∈ parts ∨ ∃ first ∈ parts, part = a :: first := by
  cases parts with
  | nil => cases member
  | cons first others =>
      rcases List.mem_cons.mp member with rfl | later
      · exact .inr ⟨first, List.mem_cons_self, rfl⟩
      · exact .inl (List.mem_cons_of_mem first later)

theorem splitTopParted {α : Type} [Lexical α] (w : Word) (depth : Int) (as : List α) :
    Parted as (splitTop w depth as) := by
  induction as generalizing depth with
  | nil => exact .whole []
  | cons a rest ih =>
      rw [splitTop]
      split
      · exact .cut [] a (ih depth)
      · exact (ih _).extend a

theorem splitRegionsParted (ts : List Token) : Parted ts (splitRegions ts) := by
  induction ts with
  | nil => exact .whole []
  | cons t rest ih =>
      rw [splitRegions]
      split
      · exact .cut [] t ih
      · exact ih.extend t

theorem splitTopPart {α : Type} [Lexical α] {w : Word} {depth : Int} {as part : List α}
    (member : part ∈ splitTop w depth as) : part ⊆ as := (splitTopParted w depth as).part member

theorem sliceProper {code slice : List Token} (h : Lexed code) (member : slice ∈ intoSlices code) :
    ∀ t ∈ slice, t.proper := by
  rw [slicesLooped] at member
  obtain ⟨region, found, part⟩ := List.mem_flatMap.mp (List.mem_filter.mp member).1
  exact fun t inside =>
    normalizeProper h t ((splitRegionsParted _).part found (splitTopPart part inside))

end Slices
end LiterateMath
