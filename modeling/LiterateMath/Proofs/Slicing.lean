import LiterateMath.Slice

/-! Slices in two passes. Code falls into regions, and each region into what stands between the
commas outside of its brackets. -/
namespace LiterateMath

def splitRegions : List Token → List (List Token)
  | [] => [[]]
  | t :: rest =>
      if t.word? = some .regionEnd then [] :: splitRegions rest
      else (splitRegions rest).modifyHead (t :: ·)

def slicesOf (ts : List Token) : List (List Token) :=
  ((splitRegions ts).flatMap (splitTop .comma 0)).filter fun slice => !slice.isEmpty

theorem splitRegionsNonempty (ts : List Token) : splitRegions ts ≠ [] := by
  induction ts with
  | nil => simp [splitRegions]
  | cons t rest ih =>
      rw [splitRegions]
      split
      · simp
      · simpa using ih

theorem sliceFromSplit {ts first : List Token} {more : List (List Token)}
    (regions : splitRegions ts = first :: more) (depth : Int) (current : List Token) :
    sliceFrom depth current ts = (splitTop .comma depth first).modifyHead (current.reverse ++ ·)
      ++ more.flatMap (splitTop .comma 0) := by
  induction ts generalizing first more depth current with
  | nil =>
      cases regions
      simp [sliceFrom, splitTop]
  | cons t rest ih =>
      obtain ⟨first', more', found⟩ := List.exists_cons_of_ne_nil (splitRegionsNonempty rest)
      have onward := ih found
      have fresh (depth : Int) : sliceFrom depth [] rest
          = splitTop .comma depth first' ++ more'.flatMap (splitTop .comma 0) := by
        rw [onward]
        cases splitTop .comma depth first' <;> rfl
      rw [splitRegions, found] at regions
      by_cases ends : t.word? = some .regionEnd
      · rw [if_pos ends] at regions
        cases regions
        rw [sliceFrom, if_pos ends, fresh]
        simp [splitTop]
      · rw [if_neg ends] at regions
        cases regions
        by_cases separates : t.word? = some .comma ∧ depth = 0
        · have here : Lexical.word? t = some .comma ∧ depth = 0 := separates
          rw [sliceFrom, if_neg ends, if_pos separates, fresh, splitTop, if_pos here]
          simp
        · have elsewhere : ¬(Lexical.word? t = some .comma ∧ depth = 0) := separates
          rw [sliceFrom, if_neg ends, if_neg separates, onward, splitTop, if_neg elsewhere,
            List.modifyHead_modifyHead]
          congr 2
          funext part
          simp

theorem slicesLooped (ts : List Token) : intoSlices ts = slicesOf (normalize ts) := by
  obtain ⟨first, more, found⟩ := List.exists_cons_of_ne_nil (splitRegionsNonempty (normalize ts))
  have whole : sliceFrom 0 [] (normalize ts)
      = (splitRegions (normalize ts)).flatMap (splitTop .comma 0) := by
    rw [sliceFromSplit found, found, List.flatMap_cons]
    cases splitTop .comma 0 first <;> rfl
  rw [intoSlices, whole, slicesOf]

end LiterateMath
