import LiterateMath.Proofs.Courses
import LiterateMath.Proofs.Parting
import LiterateMath.Proofs.Strays
import LiterateMath.Proofs.Stretches

/-! The text under a statement. Statements stand one after the other in the text, and what stands
under one of them, put between the markers of its region, says that statement again. -/
namespace LiterateMath

section Alone

variable {r : Relocation} {slice : List Token}

theorem slicedMoved : Sliced (slice.map (Token.moved r)) ↔ Sliced slice := by
  have single : splitTop .comma 0 (slice.map (Token.moved r)) = [slice.map (Token.moved r)]
      ↔ splitTop .comma 0 slice = [slice] := by
    rw [splitTopMoved (tokenMoves r)]
    refine ⟨fun same => ?_, fun same => by rw [same]; rfl⟩
    obtain ⟨part, split, -⟩ := List.map_eq_singleton_iff.mp same
    have whole := splitTopParted .comma 0 slice
    rw [split] at whole ⊢
    rw [whole.single]
  constructor
  · exact fun ⟨filled, inside, alone⟩ =>
      ⟨by simpa using filled, by simpa [wordMoved] using inside, single.mp alone⟩
  · exact fun ⟨filled, inside, alone⟩ =>
      ⟨by simpa using filled, by simpa [wordMoved] using inside, single.mpr alone⟩

def Reader.within (region : Region) : Reader := ⟨false, some (region, ⟨0, 0⟩)⟩

variable {region : Region} {text : String}

theorem withinShifted {s : Reader} (same : s.region = (Reader.within region).region) (offset : Nat)
    (ts : List Token) :
    s.code (ts.map (Token.moved (.shift offset)))
        = ((Reader.within region).code ts).map (Token.moved (.shift offset))
      ∧ (s.after (ts.map (Token.moved (.shift offset)))).1.region
        = ((Reader.within region).after ts).1.region := by
  obtain ⟨code, ends⟩ := codeRegion
    (same.trans (show _ = ((Reader.within region).moved (.shift offset)).region from rfl))
    (ts.map (Token.moved (.shift offset)))
  rw [code, ends, codeMoved, afterMoved]
  refine ⟨rfl, ?_⟩
  simp only [Reader.region, Reader.moved, Option.map_map]
  rfl

theorem closingEnds {s : Reader} (same : s.region = (Reader.within region).region) (place : Span) :
    s.next (.plain (.regionClosing region) place) = (.outside, [.plain .regionEnd place]) := by
  obtain ⟨inComment, opened⟩ := s
  obtain ⟨rfl, opened⟩ := Prod.mk.inj same
  obtain ⟨⟨_, marker⟩, rfl, rfl⟩ := Option.map_eq_some_iff.mp opened
  simp [Reader.next, Reader.within, Token.word?, Token.span]

structure StandsAlone (region : Region) (text : String) : Prop where
  closed : GroupsClose text
  unescaped : Unescaped text
  shallow : nesting (captured text) ≤ groupDepth
  ended : ((Reader.within region).after (captured text)).1.region = (Reader.within region).region
  sliced : Sliced ((Reader.within region).code (captured text))

theorem parseAround (alone : StandsAlone region text) {u : Statement}
    (read : parseStatement ((Reader.within region).code (captured text)) = .ok u)
    (path : Option String) :
    (⟨region.around text, path⟩ : Document).parse = .ok [u.moved (.shift 3)] := by
  have whole := capturedAround alone.closed alone.unescaped region
  have shallow := alone.shallow
  have level : nesting (captured (region.around text)) ≤ groupDepth := by
    rw [whole, nesting, nestingAppend, ← movedTokensMap, nestingMoved]
    simp only [nesting, Token.nesting]
    omega
  have opens : Reader.next .outside (.plain (.regionOpening region) ⟨0, 3⟩)
      = (⟨false, some (region, ⟨0, 3⟩)⟩, []) := rfl
  obtain ⟨code, ends⟩ := @withinShifted region ⟨false, some (region, ⟨0, 3⟩)⟩ rfl 3 (captured text)
  have closes := closingEnds (ends.trans alone.ended) ⟨3 + text.length, 3 + text.length + 3⟩
  obtain ⟨opened, found⟩ : (Reader.outside.after (captured (region.around text))).1.opened = none ∧
      Reader.outside.code (captured (region.around text))
        = ((Reader.within region).code (captured text)).map (Token.moved (.shift 3))
          ++ [.plain .regionEnd ⟨3 + text.length, 3 + text.length + 3⟩] := by
    rw [whole]
    constructor
    · rw [Reader.after, opens, afterAppend]
      simp only [Reader.after, closes]
      rfl
    · rw [codeCons, opens, codeAppend, code, codeCons, closes]
      rfl
  have reads : codeTokens (region.around text)
      = .ok (Reader.outside.after (captured (region.around text))).2 := by
    rw [codeTokensCaptured, if_neg (Nat.not_lt.mpr level)]
    exact filterOk.mpr ⟨opened, rfl⟩
  have slices : intoSlices (Reader.outside.after (captured (region.around text))).2
      = [((Reader.within region).code (captured text)).map (Token.moved (.shift 3))] := by
    rw [← (slicedMoved.mpr alone.sliced).alone ⟨3 + text.length, 3 + text.length + 3⟩, ← found,
      slicesLooped]
    rfl
  rw [Document.parse, reads, bindOk, slices, List.mapM_cons, parseStatementMoved, read]
  rfl

end Alone

section Spans

variable {text : String}

def regionAt (text : String) (place : Nat) : Option Region :=
  (Reader.outside.after ((captured text).takeWhile fun t => t.span.stop ≤ place)).1.opened.map
    Prod.fst

def textUnder (text : String) (p : Span) : String :=
  String.ofList ((text.toList.drop p.start).take (p.stop - p.start))

theorem textUnderMiddle (before middle after : String) :
    textUnder (before ++ (middle ++ after)) ⟨before.length, before.length + middle.length⟩
      = middle := by
  have chars : (before ++ (middle ++ after)).toList
      = before.toList ++ (middle.toList ++ after.toList) := by simp
  rw [textUnder, chars, List.drop_left' String.length_toList, Nat.add_sub_cancel_left,
    List.take_left' String.length_toList, String.ofList_toList]

theorem stretchUnescaped {slice : List Token} {offset : Nat} (clean : Clean slice)
    (last : ∀ t ∈ ((captured text).map (Token.moved (.shift offset))).getLast?,
      asKeyword t ∈ slice) (closed : GroupsClose text) : Unescaped text := by
  refine lastUnescaped closed fun word => ?_
  obtain ⟨t, final, word⟩ := Option.bind_eq_some_iff.mp word
  refine clean _ (last (t.moved (.shift offset)) (by simp [final])) ?_
  cases t with
  | command => cases word
  | plain w place =>
      cases word
      rfl

theorem sliceStandsAlone {code slice : List Token} (reads : codeTokens text = .ok code)
    (member : slice ∈ intoSlices code) (clean : Clean slice) :
    ∃ before middle after region, text = before ++ (middle ++ after) ∧ 0 < middle.length ∧
      spanOf slice = some ⟨before.length, before.length + middle.length⟩ ∧
      regionAt text before.length = some region ∧ StandsAlone region middle ∧
      slice = ((Reader.within region).code (captured middle)).map
        (Token.moved (.shift before.length)) := by
  rw [codeTokensCaptured] at reads
  split at reads
  · cases reads
  rename_i shallow
  obtain ⟨ended, rfl⟩ := filterOk.mp reads
  rw [slicesLooped] at member
  have sliced := sliceSliced member
  obtain ⟨us, vs, stretch⟩ := sliceStretch member
  obtain ⟨behind, within, ahead, ⟨region, marker⟩, whole, state, stretched⟩ :=
    @codeStretch .outside (captured text) us slice vs stretch sliced.filled sliced.inside
  have filled : within ≠ [] := by
    rintro rfl
    exact sliced.filled stretched.code.symm
  have more : ahead ≠ [] := by
    rintro rfl
    rw [whole, List.append_nil, afterAppend, state, stretched.stays] at ended
    cases ended
  obtain ⟨before, rest, rfl, rfl, made, -⟩ := capturedParts whole (by simp [filled])
  obtain ⟨mid, late, same, rfl, rfl⟩ := List.map_eq_append_iff.mp made
  obtain ⟨middle, after, rfl, rfl, -, closed⟩ := capturedParts same (by simpa using more)
  have tiles := (capturedTiles middle).shifted before.length
  rw [Nat.zero_add, Nat.add_comm] at tiles
  obtain ⟨code, ends⟩ := @withinShifted region ⟨false, some (region, marker)⟩ rfl before.length
    (captured middle)
  rw [stretched.stays] at ends
  rw [stretched.code] at code
  have level : nesting (captured middle) ≤ groupDepth := by
    rw [whole, nestingAppend, nestingAppend, ← movedTokensMap, nestingMoved] at shallow
    omega
  have front : regionAt (before ++ (middle ++ after)) before.length = some region := by
    rw [regionAt, whole, tilesBefore (capturedTiles before) tiles filled, state]
    rfl
  have long := tiles.advance filled
  exact ⟨before, middle, after, region, rfl, by omega,
    stretched.place.symm.trans (tiles.spanOf filled), front,
    ⟨closed, stretchUnescaped clean stretched.last closed, level, ends.symm,
      slicedMoved.mp (code ▸ sliced)⟩, code⟩

structure Extracted (text : String) (s : Statement) (p : Span) : Prop where
  placed : s.place = some p
  filled : p.start < p.stop
  inText : p.stop ≤ text.length
  again : ∃ (region : Region) (u : Statement), regionAt text p.start = some region ∧
    s = u.moved (.shift p.start) ∧ ∀ path,
      (⟨region.around (textUnder text p), path⟩ : Document).parse = .ok [u.moved (.shift 3)]

theorem sliceExtracted {code slice : List Token} {s : Statement}
    (reads : codeTokens text = .ok code) (member : slice ∈ intoSlices code)
    (read : parseStatement slice = .ok s) :
    ∃ p, spanOf slice = some p ∧ Extracted text s p := by
  obtain ⟨before, middle, after, region, rfl, long, place, front, alone, same⟩ :=
    sliceStandsAlone reads member (statementClean read)
  have placed := (parsedPlace read).trans place
  rw [same, parseStatementMoved] at read
  cases base : parseStatement ((Reader.within region).code (captured middle)) with
  | error failure =>
      rw [base] at read
      cases read
  | ok u =>
      rw [base] at read
      cases read
      have inText : before.length + middle.length ≤ (before ++ (middle ++ after)).length := by
        simp only [String.length_append]
        omega
      refine ⟨_, place, placed, Nat.lt_add_of_pos_right long, inText, region, u, front, rfl, ?_⟩
      rw [textUnderMiddle]
      exact parseAround alone base

theorem slicesAscend {code : List Token} (reads : codeTokens text = .ok code) :
    (intoSlices code).Pairwise fun slice slice' =>
      ∀ t ∈ slice, ∀ t' ∈ slice', t.span.stop ≤ t'.span.start := by
  rw [codeTokensCaptured] at reads
  split at reads
  · cases reads
  obtain ⟨-, rfl⟩ := filterOk.mp reads
  have fewer := ((slicesSublist _).map Token.span).trans (codeSpans .outside (captured text))
  have ascend := (capturedTiles text).ascend.sublist fewer
  rw [List.pairwise_map, List.pairwise_flatten] at ascend
  rw [slicesLooped]
  exact ascend.2

theorem spanOfAscend {slice slice' : List Token} {p q : Span} (first : spanOf slice = some p)
    (second : spanOf slice' = some q)
    (ascend : ∀ t ∈ slice, ∀ t' ∈ slice', t.span.stop ≤ t'.span.start) : p.stop ≤ q.start := by
  cases slice with
  | nil => cases first
  | cons t rest =>
      cases slice' with
      | nil => cases second
      | cons t' rest' =>
          cases first
          cases second
          exact ascend _ (List.getLast_mem (List.cons_ne_nil t rest)) t' List.mem_cons_self

/-- The statements of a document that is read stand one after the other in its text, and what stands
under one of them says it again, alone in its region. -/
theorem statementsStandApart {d : Document} {statements : List Statement}
    (parsed : d.parse = .ok statements) :
    ∃ places : List Span, List.Forall₂ (Extracted d.text) statements places ∧
      places.Pairwise fun p q => p.stop ≤ q.start := by
  obtain ⟨code, reads, each⟩ := bindIsOk.mp parsed
  refine ⟨(intoSlices code).filterMap spanOf, ?_, ?_⟩
  · have extracted {slice : List Token} {s : Statement} (member : slice ∈ intoSlices code)
        (read : parseStatement slice = .ok s) := sliceExtracted reads member read
    replace each := mapMEach each
    clear parsed
    generalize intoSlices code = slices at each extracted
    induction each with
    | nil => exact .nil
    | @cons slice s slices statements read _ ih =>
        obtain ⟨p, place, found⟩ := extracted List.mem_cons_self read
        rw [List.filterMap_cons, place]
        exact .cons found (ih fun member => extracted (List.mem_cons_of_mem slice member))
  · rw [List.pairwise_filterMap]
    exact (slicesAscend reads).imp fun ascend p first q second => spanOfAscend first second ascend

def halfAndThree : Document := ⟨"Set \\$( x = 2, % or 3\n1 / 2\\$) and \\$[3\\$]", none⟩

theorem halfAndThreeApart :
    let half := Expr.binary (.operator .division) (.literal (.integer 1) (some ⟨22, 23⟩))
      (.literal (.integer 2) (some ⟨26, 27⟩)) (some ⟨22, 27⟩)
    let statements : List Statement :=
      [.valueDeclaration (.text "x") (.literal (.integer 2) (some ⟨12, 13⟩)) (some ⟨8, 13⟩),
        .expression half, .expression (.literal (.integer 3) (some ⟨38, 39⟩))]
    halfAndThree.parse = .ok statements ∧
      ∃ places : List Span, List.Forall₂ (Extracted halfAndThree.text) statements places ∧
        places.Pairwise fun p q => p.stop ≤ q.start := by
  intro half statements
  have parsed : halfAndThree.parse = .ok statements := by cbv
  exact ⟨parsed, statementsStandApart parsed⟩

end Spans
end LiterateMath
