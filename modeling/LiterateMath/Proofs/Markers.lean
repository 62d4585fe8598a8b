import LiterateMath.Proofs.Blanks
import LiterateMath.Proofs.Printing.Gathering
import LiterateMath.Proofs.Prose

/-! Region markers. Without comments a list of tokens is prose up to an opening marker, code up to
the first closing marker of the same kind, and so on; the filter keeps that code. Comments may be
dropped before or on the way. -/
namespace LiterateMath

section Comments

variable {s : Reader} {t : Token}

theorem nextHeard (heard : ¬ (s.inComment && t.word? ≠ some .newline) = true) :
    s.next t = (⟨false, s.opened⟩ : Reader).next t := by
  rw [Reader.next, if_neg heard, Reader.next, if_neg (by simp)]

theorem filterDropped (inComment : Bool) (opened : Option (Region × Span)) (ts : List Token) :
    (⟨false, opened⟩ : Reader).filter (dropComments inComment ts)
      = (⟨inComment, opened⟩ : Reader).filter ts := by
  induction ts generalizing inComment opened with
  | nil => cases opened <;> rfl
  | cons t rest ih =>
      rw [dropComments, filterCons]
      split
      · rename_i unheard
        have within : inComment = true := (Bool.and_eq_true _ _ ▸ unheard).1
        have stays : (⟨inComment, opened⟩ : Reader).next t = (⟨inComment, opened⟩, []) := by
          rw [Reader.next, if_pos unheard]
        rw [stays, within, ih]
        cases (⟨true, opened⟩ : Reader).filter rest <;> rfl
      rename_i heard
      rw [nextHeard heard]
      split
      · rename_i percent
        have begins : (⟨false, opened⟩ : Reader).next t = (⟨true, opened⟩, []) := by
          simp [Reader.next, percent]
        rw [begins, ih]
        cases (⟨true, opened⟩ : Reader).filter rest <;> rfl
      · rename_i percent
        have quiet := nextComment ⟨false, opened⟩ t
        have silent : commentAfter false t = false := by simpa [commentAfter] using percent
        rw [silent] at quiet
        obtain ⟨opened', kept, here⟩ : ∃ opened' kept,
            (⟨false, opened⟩ : Reader).next t = (⟨false, opened'⟩, kept) :=
          ⟨_, _, Prod.ext (congrArg₂ Reader.mk quiet rfl) rfl⟩
        rw [filterCons, here, ih]

end Comments

section Cutting

def opensRegion (t : Token) : Bool :=
  match t.word? with
  | some (.regionOpening _) => true
  | _ => false

def closesRegion (region : Region) (t : Token) : Bool := t.word? = some (.regionClosing region)

def isMarker (t : Token) : Bool :=
  match t.word? with
  | some (.regionOpening _) | some (.regionClosing _) => true
  | _ => false

/-- A list cut from its front into prose, an opening marker, code and a closing marker, again and
again: the code of each region with the place of its closing marker, and the place of the marker
of a region that is left open. -/
inductive Cut : List Token → List (List Token × Span) → Option Span → Prop where
  | prose {prose : List Token} : (∀ t ∈ prose, opensRegion t = false) → Cut prose [] none
  | unclosed {prose code : List Token} {opener : Token} {region : Region} :
      (∀ t ∈ prose, opensRegion t = false) → opener.word? = some (.regionOpening region) →
      (∀ t ∈ code, closesRegion region t = false) →
      Cut (prose ++ opener :: code) [] (some opener.span)
  | region {prose code rest : List Token} {opener closer : Token} {region : Region}
      {regions : List (List Token × Span)} {unclosed : Option Span} :
      (∀ t ∈ prose, opensRegion t = false) → opener.word? = some (.regionOpening region) →
      (∀ t ∈ code, closesRegion region t = false) →
      closer.word? = some (.regionClosing region) → Cut rest regions unclosed →
      Cut (prose ++ opener :: (code ++ closer :: rest)) ((code, closer.span) :: regions) unclosed

theorem opensRegionWord {t : Token} (opens : opensRegion t = true) :
    ∃ region, t.word? = some (.regionOpening region) := by
  unfold opensRegion at opens
  split at opens
  · rename_i region word
    exact ⟨region, word⟩
  · cases opens

theorem opensRegionMarker {t : Token} {region : Region}
    (word : t.word? = some (.regionOpening region)) : opensRegion t = true := by
  rw [opensRegion, word]

theorem cutAtAll (test : Token → Bool) (ts : List Token) :
    (∀ t ∈ ts, test t = false) ∨ ∃ before t after, ts = before ++ t :: after ∧
      (∀ u ∈ before, test u = false) ∧ test t = true := by
  induction ts with
  | nil => exact .inl nofun
  | cons t rest ih =>
      cases here : test t with
      | true => exact .inr ⟨[], t, rest, rfl, nofun, here⟩
      | false =>
          obtain none | ⟨before, u, after, rfl, none, found⟩ := ih
          · exact .inl (List.forall_mem_cons.mpr ⟨here, none⟩)
          · exact .inr ⟨t :: before, u, after, rfl, List.forall_mem_cons.mpr ⟨here, none⟩, found⟩

theorem cutExists (ts : List Token) : ∃ regions unclosed, Cut ts regions unclosed := by
  induction length : ts.length using Nat.strongRecOn generalizing ts with
  | ind n ih =>
      obtain prose | ⟨prose, opener, rest, rfl, outside, opens⟩ := cutAtAll opensRegion ts
      · exact ⟨[], none, .prose prose⟩
      obtain ⟨region, word⟩ := opensRegionWord opens
      obtain code | ⟨code, closer, after, rfl, inside, closes⟩ :=
        cutAtAll (closesRegion region) rest
      · exact ⟨[], some opener.span, .unclosed outside word code⟩
      simp only [List.length_append, List.length_cons] at length
      obtain ⟨regions, unclosed, later⟩ := ih after.length (by omega) after rfl
      exact ⟨_, unclosed, .region outside word inside (of_decide_eq_true closes) later⟩

theorem cutSame {test : Token → Bool} {before before' after after' : List Token} {t t' : Token}
    (none : ∀ u ∈ before, test u = false) (here : test t = true)
    (none' : ∀ u ∈ before', test u = false) (here' : test t' = true)
    (same : before ++ t :: after = before' ++ t' :: after') :
    before = before' ∧ t = t' ∧ after = after' := by
  have cut : cutAt test (before ++ t :: after) = _ := cutAtFirst none here
  rw [same, cutAtFirst none' here'] at cut
  cases cut
  exact ⟨rfl, rfl, rfl⟩

theorem cutAtNowhere {test : Token → Bool} {before after : List Token} {t : Token}
    (none : ∀ u ∈ before ++ t :: after, test u = false) : test t = false :=
  none t (by simp)

theorem cutUnique {ts ts' : List Token} {regions regions' : List (List Token × Span)}
    {unclosed unclosed' : Option Span} (cut : Cut ts regions unclosed)
    (cut' : Cut ts' regions' unclosed') (same : ts = ts') :
    regions = regions' ∧ unclosed = unclosed' := by
  induction cut generalizing ts' regions' unclosed' with
  | prose outside =>
      cases cut' with
      | prose => exact ⟨rfl, rfl⟩
      | unclosed _ word =>
          rw [same] at outside
          cases (cutAtNowhere outside).symm.trans (opensRegionMarker word)
      | region _ word =>
          rw [same] at outside
          cases (cutAtNowhere outside).symm.trans (opensRegionMarker word)
  | unclosed outside word inside =>
      cases cut' with
      | prose outside' =>
          rw [← same] at outside'
          cases (cutAtNowhere outside').symm.trans (opensRegionMarker word)
      | unclosed outside' word' =>
          obtain ⟨-, rfl, -⟩ := cutSame outside (opensRegionMarker word) outside'
            (opensRegionMarker word') same
          exact ⟨rfl, rfl⟩
      | region outside' word' _ closes =>
          obtain ⟨-, rfl, rfl⟩ := cutSame outside (opensRegionMarker word) outside'
            (opensRegionMarker word') same
          obtain rfl := Word.regionOpening.inj (Option.some.inj (word.symm.trans word'))
          cases (cutAtNowhere inside).symm.trans (decide_eq_true closes)
  | region outside word inside closes _ ih =>
      cases cut' with
      | prose outside' =>
          rw [← same] at outside'
          cases (cutAtNowhere outside').symm.trans (opensRegionMarker word)
      | unclosed outside' word' inside' =>
          obtain ⟨-, rfl, rfl⟩ := cutSame outside (opensRegionMarker word) outside'
            (opensRegionMarker word') same
          obtain rfl := Word.regionOpening.inj (Option.some.inj (word.symm.trans word'))
          cases (cutAtNowhere inside').symm.trans (decide_eq_true closes)
      | region outside' word' inside' closes' later =>
          obtain ⟨-, rfl, same'⟩ := cutSame outside (opensRegionMarker word) outside'
            (opensRegionMarker word') same
          obtain rfl := Word.regionOpening.inj (Option.some.inj (word.symm.trans word'))
          obtain ⟨rfl, rfl, rest⟩ := cutSame inside (decide_eq_true closes) inside'
            (decide_eq_true closes') same'
          obtain ⟨rfl, rfl⟩ := ih later rest
          exact ⟨rfl, rfl⟩

end Cutting

section Keeping

variable {ts : List Token}

theorem afterUncommented {s : Reader} (quiet : s.inComment = false)
    (plain : ∀ t ∈ ts, t.word? ≠ some .percent) : (s.after ts).1.inComment = false := by
  induction ts generalizing s with
  | nil => exact quiet
  | cons t rest ih =>
      refine ih ?_ fun u member => plain u (List.mem_cons_of_mem t member)
      rw [nextComment, quiet]
      simpa [commentAfter] using plain t List.mem_cons_self

theorem afterOutside (plain : ∀ t ∈ ts, t.word? ≠ some .percent)
    (prose : ∀ t ∈ ts, opensRegion t = false) : Reader.outside.after ts = (.outside, []) := by
  obtain ⟨ended, nothing⟩ := @afterProse .outside _ rfl fun t member region word => by
    cases (prose t member).symm.trans (opensRegionMarker word)
  exact Prod.ext (congrArg₂ Reader.mk (afterUncommented rfl plain) ended) nothing

theorem afterRegion {region : Region} {place : Span} (plain : ∀ t ∈ ts, t.word? ≠ some .percent)
    (inside : ∀ t ∈ ts, closesRegion region t = false) :
    (⟨false, some (region, place)⟩ : Reader).after ts
      = (⟨false, some (region, place)⟩, ts.filter fun t => !isMarker t) := by
  induction ts with
  | nil => rfl
  | cons t rest ih =>
      obtain ⟨plain, plain'⟩ := List.forall_mem_cons.mp plain
      obtain ⟨inside, inside'⟩ := List.forall_mem_cons.mp inside
      have one : (⟨false, some (region, place)⟩ : Reader).next t
          = (⟨false, some (region, place)⟩, [t].filter fun t => !isMarker t) := by
        simp only [Reader.next, Bool.false_and, Bool.false_eq_true, if_false, isMarker,
          List.filter_singleton]
        cases word : t.word? with
        | none => rfl
        | some w =>
            cases w with
            | percent => exact absurd word plain
            | regionClosing region' =>
                have other : region' ≠ region := by
                  rintro rfl
                  simp [closesRegion, word] at inside
                simp [other]
            | _ => rfl
      rw [Reader.after, one, ih plain' inside', ← List.filter_append, List.singleton_append]

def keptOf (region : List Token × Span) : List Token :=
  region.1.filter (fun t => !isMarker t) ++ [.plain .regionEnd region.2]

theorem nextOpener {t : Token} {region : Region} (word : t.word? = some (.regionOpening region)) :
    Reader.outside.next t = (⟨false, some (region, t.span)⟩, []) := by
  simp [Reader.next, Reader.outside, word]

theorem nextCloser {t : Token} {region : Region} {place : Span}
    (word : t.word? = some (.regionClosing region)) :
    (⟨false, some (region, place)⟩ : Reader).next t = (.outside, [.plain .regionEnd t.span]) := by
  simp [Reader.next, Reader.outside, word]

def outcomeOf (regions : List (List Token × Span)) : Option Span → Parsed (List Token)
  | none => .ok (regions.flatMap keptOf)
  | some marker => .error (.malformed .regionNeverClosed (some marker))

theorem filterCut {regions : List (List Token × Span)} {unclosed : Option Span}
    (cut : Cut ts regions unclosed) (plain : ∀ t ∈ ts, t.word? ≠ some .percent) :
    Reader.outside.filter ts = outcomeOf regions unclosed := by
  induction cut with
  | prose outside =>
      have passed := afterOutside plain outside
      exact filterOk.mpr (by rw [passed]; exact ⟨rfl, rfl⟩)
  | @unclosed prose code opener region outside word inside =>
      simp only [List.mem_append, List.mem_cons] at plain
      have passed := afterOutside (fun t member => plain t (.inl member)) outside
      have kept := filterAppend ⟨false, some (region, opener.span)⟩ code []
      rw [List.append_nil,
        afterRegion (fun t member => plain t (.inr (.inr member))) inside] at kept
      rw [filterAppend, passed, filterCons, nextOpener word, kept]
      rfl
  | @region prose code rest opener closer region regions unclosed outside word inside closes _ ih =>
      simp only [List.mem_append, List.mem_cons] at plain
      have passed := afterOutside (fun t member => plain t (.inl member)) outside
      have kept := @afterRegion code region opener.span
        (fun t member => plain t (.inr (.inr (.inl member)))) inside
      rw [filterAppend, passed, filterCons, nextOpener word, filterAppend, kept, filterCons,
        nextCloser closes, ih fun t member => plain t (.inr (.inr (.inr (.inr member))))]
      cases unclosed with
      | some marker => rfl
      | none => simp [Except.map, keptOf, outcomeOf]

/-- Comments may be dropped before the filter or in it. Without comments there is one way to cut a
list at its region markers; kept is the code of each region but for markers, with a mark at its end,
and what fails is a list whose last region is not closed. -/
theorem regionsKept :
    (∀ ts : List Token,
      filterRegions false none (dropComments false ts) = filterRegions false none ts) ∧
    ∀ ts : List Token, (∀ t ∈ ts, t.word? ≠ some .percent) → ∃ regions unclosed,
      (∀ regions' unclosed', Cut ts regions' unclosed'
        ↔ regions' = regions ∧ unclosed' = unclosed) ∧
      filterRegions false none ts = outcomeOf regions unclosed := by
  refine ⟨filterDropped false none, fun ts plain => ?_⟩
  obtain ⟨regions, unclosed, cut⟩ := cutExists ts
  refine ⟨regions, unclosed, fun regions' unclosed' => ⟨fun cut' => ?_, ?_⟩, filterCut cut plain⟩
  · exact cutUnique cut' cut rfl
  · rintro ⟨rfl, rfl⟩
    exact cut

theorem markersInsideDropped :
    let ts := lex "x\\$(1\\$[\\$]2\\$)y\\$[3\\$)"
    (∀ t ∈ ts, t.word? ≠ some .percent) ∧
      filterRegions false none (dropComments false ts) = filterRegions false none ts ∧
      ∃ regions unclosed, Cut ts regions unclosed ∧ regions.flatMap keptOf
          = [.plain (.number "1") ⟨4, 5⟩, .plain (.number "2") ⟨11, 12⟩,
              .plain .regionEnd ⟨12, 15⟩] ∧
        filterRegions false none ts = .error (.malformed .regionNeverClosed (some ⟨16, 19⟩)) := by
  intro ts
  have read : lex "x\\$(1\\$[\\$]2\\$)y\\$[3\\$)"
        = [.plain (.text "x") ⟨0, 1⟩, .plain (.regionOpening .inline) ⟨1, 4⟩,
      .plain (.number "1") ⟨4, 5⟩, .plain (.regionOpening .display) ⟨5, 8⟩,
      .plain (.regionClosing .display) ⟨8, 11⟩, .plain (.number "2") ⟨11, 12⟩,
      .plain (.regionClosing .inline) ⟨12, 15⟩, .plain (.text "y") ⟨15, 16⟩,
      .plain (.regionOpening .display) ⟨16, 19⟩, .plain (.number "3") ⟨19, 20⟩,
      .plain (.regionClosing .inline) ⟨20, 23⟩] := by cbv
  have plain : ∀ t ∈ ts, t.word? ≠ some .percent := by
    simp only [ts, read]
    simp [Token.word?]
  obtain ⟨regions, unclosed, one, kept⟩ := regionsKept.2 ts plain
  have cut : Cut ts [([.plain (.number "1") ⟨4, 5⟩, .plain (.regionOpening .display) ⟨5, 8⟩,
      .plain (.regionClosing .display) ⟨8, 11⟩, .plain (.number "2") ⟨11, 12⟩], ⟨12, 15⟩)]
      (some ⟨16, 19⟩) := by
    simp only [ts, read]
    exact @Cut.region [_] [_, _, _, _] _ _ _ _ _ _ (by decide) rfl (by decide) rfl
      (@Cut.unclosed [_] _ _ _ (by decide) rfl (by decide))
  obtain ⟨rfl, rfl⟩ := (one _ _).mp cut
  exact ⟨plain, regionsKept.1 ts, _, _, cut, by cbv, kept⟩

end Keeping
end LiterateMath
