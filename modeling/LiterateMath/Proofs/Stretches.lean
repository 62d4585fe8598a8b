import LiterateMath.Proofs.Composition
import LiterateMath.Proofs.Printing.Lexing
import LiterateMath.Proofs.Printing.Tokens

/-! Stretches of code. A slice is a stretch of the code tokens, and it is read off a stretch of the
tokens of the text, at both ends of which the same region is open. -/
namespace LiterateMath

open Lexical

section Slices

theorem splitTopAgain {α : Type} [Lexical α] (w : Word) (depth : Int) (as : List α) :
    ∃ first others, splitTop w depth as = first :: others ∧ splitTop w depth first = [first] ∧
      ∀ part ∈ others, splitTop w 0 part = [part] := by
  induction as generalizing depth with
  | nil => exact ⟨[], [], rfl, rfl, nofun⟩
  | cons a rest ih =>
      by_cases here : word? a = some w ∧ depth = 0
      · obtain ⟨first, others, split, alone, later⟩ := ih 0
        refine ⟨[], first :: others, ?_, rfl, List.forall_mem_cons.mpr ⟨alone, later⟩⟩
        rw [splitTop, if_pos here, here.2, split]
      · obtain ⟨first, others, split, alone, later⟩ := ih (depth + depthStep a)
        refine ⟨a :: first, others, ?_, ?_, later⟩
        · rw [splitTop, if_neg here, split]
          rfl
        · rw [splitTop, if_neg here, alone]
          rfl

theorem splitRegionsInside {ts part : List Token} (member : part ∈ splitRegions ts) :
    ∀ t ∈ part, t.word? ≠ some .regionEnd := by
  induction ts generalizing part with
  | nil =>
      obtain rfl := List.mem_singleton.mp member
      exact nofun
  | cons t rest ih =>
      rw [splitRegions] at member
      split at member
      · rcases List.mem_cons.mp member with rfl | later
        · exact nofun
        · exact ih later
      · rename_i other
        obtain same | ⟨first, found, rfl⟩ := modifyHeadMember member
        · exact ih same
        · exact List.forall_mem_cons.mpr ⟨other, ih found⟩

structure Sliced (slice : List Token) : Prop where
  filled : slice ≠ []
  inside : ∀ t ∈ slice, t.word? ≠ some .regionEnd
  single : splitTop .comma 0 slice = [slice]

theorem sliceSliced {code slice : List Token} (member : slice ∈ slicesOf code) : Sliced slice := by
  obtain ⟨found, filled⟩ := List.mem_filter.mp member
  obtain ⟨region, inCode, part⟩ := List.mem_flatMap.mp found
  obtain ⟨first, others, split, alone, later⟩ := splitTopAgain .comma 0 region
  refine ⟨by simpa using filled, fun t inSlice =>
    splitRegionsInside inCode t (splitTopPart part inSlice), ?_⟩
  rw [split] at part
  rcases List.mem_cons.mp part with rfl | inside
  · exact alone
  · exact later slice inside

theorem sliceStretch {code slice : List Token} (member : slice ∈ slicesOf code) :
    ∃ us vs, code = us ++ (slice ++ vs) := by
  obtain ⟨region, inCode, part⟩ := List.mem_flatMap.mp (List.mem_filter.mp member).1
  obtain ⟨us, vs, whole⟩ := (splitRegionsParted code).stretch inCode
  obtain ⟨us', vs', within⟩ := (splitTopParted .comma 0 region).stretch part
  exact ⟨us ++ us', vs' ++ vs, by rw [whole, within]; simp⟩

theorem slicesSublist (code : List Token) : (slicesOf code).flatten.Sublist code := by
  have within (regions : List (List Token)) :
      (regions.flatMap (splitTop .comma 0)).flatten.Sublist regions.flatten := by
    induction regions with
    | nil => exact .slnil
    | cons region rest ih =>
        rw [List.flatMap_cons, List.flatten_append, List.flatten_cons]
        exact (splitTopParted .comma 0 region).sublist.append ih
  rw [slicesOf, List.flatten_filter_not_isEmpty]
  exact (within _).trans (splitRegionsParted code).sublist

theorem Sliced.alone {slice : List Token} (sliced : Sliced slice) (place : Span) :
    slicesOf (slice ++ [.plain .regionEnd place]) = [slice] := by
  have nothing : splitRegions [] = [[]] := rfl
  rw [slicesOf, splitRegionsEnd, nothing, splitRegionsNone sliced.inside]
  simp [sliced.single, splitTop, sliced.filled]

end Slices

section Readers

def Reader.code (s : Reader) (ts : List Token) : List Token := normalize (s.after ts).2

theorem codeAppend (s : Reader) (as bs : List Token) :
    s.code (as ++ bs) = s.code as ++ (s.after as).1.code bs := by
  rw [Reader.code, afterAppend, normalizeAppend]
  rfl

theorem codeCons (s : Reader) (t : Token) (rest : List Token) :
    s.code (t :: rest) = normalize (s.next t).2 ++ (s.next t).1.code rest := by
  rw [Reader.code, Reader.after, normalizeAppend]
  rfl

theorem asKeywordSpan (t : Token) : (asKeyword t).span = t.span := by
  unfold asKeyword
  split
  · split <;> rfl
  · rfl

theorem nextOne (s : Reader) (t : Token) :
    normalize (s.next t).2 = [] ∨ ∃ u, normalize (s.next t).2 = [u] ∧ u.span = t.span := by
  obtain ⟨nothing, -⟩ | ⟨o, -, -, same⟩ | same := nextCases s t
  · exact .inl (by rw [nothing]; rfl)
  · cases white : isWhitespace t with
    | true => exact .inl (by simp [same, normalize, white])
    | false => exact .inr ⟨asKeyword t, by simp [same, normalize, white], asKeywordSpan t⟩
  · exact .inr ⟨.plain .regionEnd t.span, by rw [same]; rfl, rfl⟩

theorem codeSpans (s : Reader) (ts : List Token) :
    ((s.code ts).map Token.span).Sublist (ts.map Token.span) := by
  induction ts generalizing s with
  | nil => exact .slnil
  | cons t rest ih =>
      rw [codeCons, List.map_append, List.map_cons]
      obtain nothing | ⟨u, kept, same⟩ := nextOne s t
      · rw [nothing]
        exact (ih _).cons t.span
      · rw [kept, ← same]
        exact (ih _).cons_cons u.span

theorem nextKept {s : Reader} {t u : Token} (kept : normalize (s.next t).2 = [u])
    (inside : u.word? ≠ some .regionEnd) :
    ∃ o, s = ⟨false, some o⟩ ∧ (s.next t).1 = s ∧ u = asKeyword t := by
  obtain ⟨nothing, -⟩ | ⟨o, opened, heard, same⟩ | same := nextCases s t
  · rw [nothing] at kept
    cases kept
  · rw [same, normalize, List.filter_singleton] at kept
    cases white : isWhitespace t with
    | true => simp [white] at kept
    | false =>
        have heard : s.inComment = false := by
          refine heard.resolve_right fun newline => ?_
          simp [isWhitespace, newline] at white
        have state : s = ⟨false, some o⟩ := by rw [← heard, ← opened]
        exact ⟨o, state, by rw [same, state], by simpa [white] using kept.symm⟩
  · rw [same] at kept
    cases kept
    exact absurd rfl inside

theorem afterInside {s : Reader} {ts : List Token} {o : Region × Span} (opened : s.opened = some o)
    (inside : ∀ t ∈ s.code ts, t.word? ≠ some .regionEnd) : (s.after ts).1.opened = some o := by
  induction ts generalizing s with
  | nil => exact opened
  | cons t rest ih =>
      simp only [codeCons, List.mem_append] at inside
      refine ih ?_ fun u member => inside u (.inr member)
      obtain ⟨-, stays⟩ | ⟨o', opened', -, same⟩ | same := nextCases s t
      · exact stays o opened
      · rw [same]
        exact opened' ▸ opened
      · rw [same] at inside
        exact absurd rfl (inside (.plain .regionEnd t.span) (.inl List.mem_cons_self))

theorem codeParts {s : Reader} {ts us vs : List Token} {u : Token}
    (code : s.code ts = us ++ u :: vs) : ∃ as t bs, ts = as ++ t :: bs ∧ s.code as = us ∧
      normalize ((s.after as).1.next t).2 = [u] ∧ ((s.after as).1.next t).1.code bs = vs := by
  induction ts generalizing s us with
  | nil => simp [Reader.code, Reader.after, normalize] at code
  | cons t rest ih =>
      rw [codeCons] at code
      obtain nothing | ⟨first, kept, -⟩ := nextOne s t
      · rw [nothing] at code
        obtain ⟨as, t', bs, rfl, before, found, later⟩ := ih code
        refine ⟨t :: as, t', bs, rfl, ?_, found, later⟩
        rw [codeCons, nothing, before]
        rfl
      · rw [kept] at code
        cases us with
        | nil =>
            obtain ⟨rfl, later⟩ := List.cons.inj code
            exact ⟨[], t, rest, rfl, rfl, kept, later⟩
        | cons u' us =>
            obtain ⟨rfl, onward⟩ := List.cons.inj code
            obtain ⟨as, t', bs, rfl, before, found, later⟩ := ih onward
            refine ⟨t :: as, t', bs, rfl, ?_, found, later⟩
            rw [codeCons, kept, before]
            rfl

structure ReadOff (o : Region × Span) (within slice : List Token) : Prop where
  code : Reader.code ⟨false, some o⟩ within = slice
  stays : (Reader.after ⟨false, some o⟩ within).1 = ⟨false, some o⟩
  place : spanOf within = spanOf slice
  last : ∀ t ∈ within.getLast?, asKeyword t ∈ slice

theorem codeStretch {s : Reader} {ts us slice vs : List Token}
    (code : s.code ts = us ++ (slice ++ vs)) (filled : slice ≠ [])
    (inside : ∀ t ∈ slice, t.word? ≠ some .regionEnd) :
    ∃ before within after o, ts = before ++ (within ++ after) ∧
      (s.after before).1 = ⟨false, some o⟩ ∧ ReadOff o within slice := by
  obtain ⟨u, rest, rfl⟩ := List.exists_cons_of_ne_nil filled
  obtain ⟨before, t, behind, rfl, -, found, later⟩ := codeParts code
  obtain ⟨o, state, stays, rfl⟩ := nextKept found (inside u List.mem_cons_self)
  rw [stays, state] at later
  rw [state] at found stays
  rcases List.eq_nil_or_concat' rest with rfl | ⟨middle, last, rfl⟩
  · refine ⟨before, [t], behind, o, rfl, state, ⟨?_, stays, ?_, by simp⟩⟩
    · rw [codeCons, found]
      rfl
    · simp [spanOf, Lexical.span, asKeywordSpan]
  · have onward : Reader.code ⟨false, some o⟩ behind = middle ++ last :: vs := by
      rw [later]
      simp
    obtain ⟨between, t', after, rfl, mid, found', -⟩ := codeParts onward
    have endless := inside last (by simp)
    obtain ⟨o', state', stays', rfl⟩ := nextKept found' endless
    have same : (Reader.after ⟨false, some o⟩ between).1.opened = some o := by
      refine afterInside rfl fun t member => inside t ?_
      rw [mid] at member
      simp [member]
    rw [state'] at same stays' found'
    obtain rfl : o' = o := Option.some.inj same
    refine ⟨before, t :: (between ++ [t']), after, o', by simp, state, ⟨?_, ?_, ?_, ?_⟩⟩
    · rw [codeCons, found, stays, codeAppend, mid, state', codeCons, found']
      rfl
    · rw [Reader.after, stays, afterAppend, state', Reader.after, stays']
      rfl
    · simp [spanOf, Lexical.span, asKeywordSpan]
    · rw [← List.cons_append, List.getLast?_concat]
      simp

def Reader.region (s : Reader) : Bool × Option Region := (s.inComment, s.opened.map Prod.fst)

theorem nextRegion {s s' : Reader} (same : s.region = s'.region) (t : Token) :
    (s.next t).2 = (s'.next t).2 ∧ (s.next t).1.region = (s'.next t).1.region := by
  obtain ⟨inComment, opened⟩ := s
  obtain ⟨inComment', opened'⟩ := s'
  obtain ⟨rfl, regions⟩ := Prod.mk.inj same
  cases opened with
  | none =>
      obtain rfl : opened' = none := by simpa using regions.symm
      exact ⟨rfl, rfl⟩
  | some o =>
      obtain ⟨o', rfl, within⟩ := Option.map_eq_some_iff.mp regions.symm
      obtain ⟨region, place⟩ := o
      obtain ⟨region', place'⟩ := o'
      obtain rfl : region' = region := within
      unfold Reader.next
      simp only
      split
      · exact ⟨rfl, rfl⟩
      · cases t.word? with
        | none => exact ⟨rfl, rfl⟩
        | some w =>
            cases w with
            | regionClosing r =>
                simp only
                split <;> exact ⟨rfl, rfl⟩
            | _ => exact ⟨rfl, rfl⟩

theorem codeRegion {s s' : Reader} (same : s.region = s'.region) (ts : List Token) :
    s.code ts = s'.code ts ∧ (s.after ts).1.region = (s'.after ts).1.region := by
  induction ts generalizing s s' with
  | nil => exact ⟨rfl, same⟩
  | cons t rest ih =>
      obtain ⟨kept, onward⟩ := nextRegion same t
      obtain ⟨later, ends⟩ := ih onward
      exact ⟨by rw [codeCons, codeCons, kept, later], ends⟩

theorem afterMoved {r : Relocation} (s : Reader) (ts : List Token) :
    (s.moved r).after (ts.map (Token.moved r))
      = ((s.after ts).1.moved r, (s.after ts).2.map (Token.moved r)) := by
  induction ts generalizing s with
  | nil => rfl
  | cons t rest ih =>
      simp only [List.map_cons, Reader.after, nextMoved (tokenMoves r), ih, List.map_append]

theorem codeMoved {r : Relocation} (s : Reader) (ts : List Token) :
    (s.moved r).code (ts.map (Token.moved r)) = (s.code ts).map (Token.moved r) := by
  rw [Reader.code, afterMoved, normalizeMoved (tokenMoves r)]
  rfl

end Readers
end LiterateMath
