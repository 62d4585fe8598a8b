import LiterateMath.Proofs.Stretches

/-! Separators. A comma separates where as many brackets are closed before it as are opened, and
the end of a region separates whatever is still open. Slices are what stands between. -/
namespace LiterateMath

open Lexical

section Depth

def openingCount (ts : List Token) : Nat := ts.countP fun t => (openingBracket? t).isSome

def closingCount (ts : List Token) : Nat := ts.countP fun t => (closingBracket? t).isSome

theorem depthStepBrackets (t : Token) :
    depthStep t = (openingCount [t] : Int) - (closingCount [t] : Int) := by
  simp only [depthStep, openingCount, closingCount, openingBracket?, closingBracket?,
    List.countP_singleton]
  cases word? t with
  | none => rfl
  | some w => cases w <;> rfl

def Separates (ts : List Token) (position : Nat) : Prop :=
  ts[position]?.bind Token.word? = some .comma
    ∧ openingCount (ts.take position) = closingCount (ts.take position)

instance (ts : List Token) (position : Nat) : Decidable (Separates ts position) :=
  inferInstanceAs (Decidable (_ ∧ _))

theorem separatesNext (before rest : List Token) (t : Token) :
    Separates (before ++ t :: rest) before.length
      ↔ t.word? = some .comma ∧ (openingCount before : Int) - (closingCount before : Int) = 0 := by
  simp [Separates, Int.sub_eq_zero]

end Depth

section Pieces

def pieces (ts : List Token) : List (List (Token × Nat)) :=
  ts.zipIdx.splitOnP fun p => Separates ts p.2

theorem splitTopPieces (before rest : List Token) :
    splitTop .comma ((openingCount before : Int) - (closingCount before : Int)) rest
      = ((rest.zipIdx before.length).splitOnP fun p => Separates (before ++ rest) p.2).map
          (List.map Prod.fst) := by
  induction rest generalizing before with
  | nil => rfl
  | cons t rest ih =>
      have onward := ih (before ++ [t])
      have depth : ((openingCount (before ++ [t]) : Nat) : Int)
          - ((closingCount (before ++ [t]) : Nat) : Int)
          = (openingCount before : Int) - (closingCount before : Int) + depthStep t := by
        rw [depthStepBrackets]
        simp only [openingCount, closingCount, List.countP_append, Int.natCast_add]
        omega
      rw [depth, List.length_append, List.length_singleton, List.append_assoc,
        List.singleton_append] at onward
      rw [List.zipIdx_cons, List.splitOnP_cons_eq_if_modifyHead, splitTop]
      by_cases here : word? t = some .comma
          ∧ (openingCount before : Int) - (closingCount before : Int) = 0
      · have level : depthStep t = 0 := by simp [depthStep, here.1]
        rw [level, Int.add_zero] at onward
        rw [if_pos here, if_pos (decide_eq_true ((separatesNext before rest t).mpr here)), onward]
        rfl
      · have stays : ¬ Separates (before ++ t :: rest) before.length :=
          fun separates => here ((separatesNext before rest t).mp separates)
        rw [if_neg here, if_neg (by simpa using stays), onward]
        cases (rest.zipIdx (before.length + 1)).splitOnP _ <;> rfl

theorem flattenSplit {α : Type} (p : α → Bool) (xs : List α) :
    (xs.splitOnP p).flatten = xs.filter fun x => !p x := by
  induction xs with
  | nil => rfl
  | cons x rest ih =>
      obtain ⟨first, others, split⟩ := List.exists_cons_of_ne_nil (List.splitOnP_ne_nil p rest)
      rw [split] at ih
      rw [List.splitOnP_cons_eq_if_modifyHead, split]
      cases separates : p x <;> simp [separates, ← ih]

theorem piecesPositions (ts : List Token) : (pieces ts).flatten.map Prod.snd
    = (List.range ts.length).filter fun position => ¬ Separates ts position := by
  have positions : ts.zipIdx.map Prod.snd = List.range ts.length := by
    rw [List.zipIdx_map_snd, List.range_eq_range']
  rw [pieces, flattenSplit, ← positions, List.filter_map]
  simp [Function.comp_def]

end Pieces

section Slices

variable {ts : List Token}

def numberedSlices (ts : List Token) : List (List (Token × Nat)) :=
  (pieces ts).filter fun piece => !piece.isEmpty

theorem slicesNumbered (inside : ∀ t ∈ ts, t.word? ≠ some .regionEnd) :
    intoSlices ts = (numberedSlices (normalize ts)).map (List.map Prod.fst) := by
  have inside' : ∀ t ∈ normalize ts, t.word? ≠ some .regionEnd := by
    intro t member
    obtain ⟨u, kept, rfl⟩ := List.mem_map.mp member
    have word := inside u (List.mem_filter.mp kept).1
    unfold asKeyword
    split
    · split <;> simp [Token.word?]
    · exact word
  have cut : splitTop .comma 0 (normalize ts) = (pieces (normalize ts)).map (List.map Prod.fst) :=
    splitTopPieces [] (normalize ts)
  rw [slicesLooped, slicesOf, splitRegionsNone inside', List.flatMap_singleton, cut, numberedSlices,
    List.filter_map]
  simp [Function.comp_def]

theorem slicePositions {position : Nat} (within : position < ts.length) :
    ((numberedSlices ts).flatten.map Prod.snd).count position
      = if Separates ts position then 0 else 1 := by
  rw [numberedSlices, List.flatten_filter_not_isEmpty, piecesPositions]
  split
  · rename_i separates
    exact List.count_eq_zero.mpr (by simp [separates])
  · rename_i stays
    rw [List.count_filter (by simpa using stays)]
    exact List.count_eq_one_of_mem List.nodup_range (List.mem_range.mpr within)

theorem normalizeVisible {t : Token} (member : t ∈ normalize ts) : isWhitespace t = false := by
  obtain ⟨u, kept, rfl⟩ := List.mem_map.mp member
  have visible : isWhitespace u = false := by simpa using (List.mem_filter.mp kept).2
  unfold asKeyword
  split
  · split <;> rfl
  · exact visible

/-- Regions are cut into slices each for itself; within a region a slice is what stands, not
empty, between commas before which the brackets are level. -/
theorem slicesSeparated :
    (∀ (before after : List Token) (place : Span),
      intoSlices (before ++ .plain .regionEnd place :: after)
        = intoSlices before ++ intoSlices after) ∧
    ∀ ts : List Token, (∀ t ∈ ts, t.word? ≠ some .regionEnd) →
      intoSlices ts = (numberedSlices (normalize ts)).map (List.map Prod.fst) ∧
      (∀ position < (normalize ts).length,
        ((numberedSlices (normalize ts)).flatten.map Prod.snd).count position
          = if Separates (normalize ts) position then 0 else 1) ∧
      ∀ slice ∈ intoSlices ts, slice ≠ [] ∧ ∀ t ∈ slice, isWhitespace t = false := by
  refine ⟨intoSlicesEnd, fun ts inside => ?_⟩
  refine ⟨slicesNumbered inside, fun position within => slicePositions within, ?_⟩
  intro slice member
  rw [slicesLooped] at member
  obtain ⟨us, vs, stretch⟩ := sliceStretch member
  refine ⟨(sliceSliced member).filled, fun t inSlice => @normalizeVisible ts t ?_⟩
  rw [stretch]
  simp [inSlice]

theorem strayCloserSeparated :
    let ts := lex "2),3(,4"
    (∀ t ∈ ts, t.word? ≠ some .regionEnd) ∧
      intoSlices ts = (numberedSlices (normalize ts)).map (List.map Prod.fst) ∧
      (numberedSlices (normalize ts)).map (List.map Prod.snd) = [[0, 1, 2, 3, 4], [6]] ∧
      intoSlices (ts ++ .plain .regionEnd ⟨7, 7⟩ :: ts) = intoSlices ts ++ intoSlices ts := by
  intro ts
  have read : lex "2),3(,4" = [.plain (.number "2") ⟨0, 1⟩, .plain (.closing .paren) ⟨1, 2⟩,
      .plain .comma ⟨2, 3⟩, .plain (.number "3") ⟨3, 4⟩, .plain (.opening .paren) ⟨4, 5⟩,
      .plain .comma ⟨5, 6⟩, .plain (.number "4") ⟨6, 7⟩] := by cbv
  have inside : ∀ t ∈ ts, t.word? ≠ some .regionEnd := by
    simp only [ts, read]
    simp [Token.word?]
  refine ⟨inside, (slicesSeparated.2 ts inside).1, ?_, slicesSeparated.1 ts ts _⟩
  simp only [ts, read]
  cbv

end Slices
end LiterateMath
