import LiterateMath.Proofs.Capturing
import LiterateMath.Proofs.Fraction

/-! Words that only set a size. Put before brackets in which no group is captured they stay where
they are through every pass, together with their bracket, until commands are spelled out; then
nothing is left of them. -/
namespace LiterateMath

section Relation

def takesSizing (t : Token) : Bool :=
  match t.word? with
  | some (.opening b) | some (.closing b) => b = .paren || b = .escapedBrace
  | _ => false

structure SizingFor (p : Span) (s t : Token) : Prop where
  sizing : isSizing s = true
  bracket : takesSizing t = true
  start : s.span.start = t.span.start
  within : p.start ≤ t.span.start ∧ t.span.stop ≤ p.stop

inductive Sized (p : Span) : List Token → List Token → Prop where
  | nothing : Sized p [] []
  | token {xs ys : List Token} (t : Token) : Sized p xs ys → Sized p (t :: xs) (t :: ys)
  | word {s t : Token} {xs ys : List Token} : SizingFor p s t → Sized p xs ys →
      Sized p (t :: xs) (s :: t :: ys)
  | command {name : String} {required required' optional optional' : List (List Token)}
      {place : Span} {xs ys : List Token} : required.length = required'.length →
      (∀ pair ∈ required.zip required', Sized p pair.1 pair.2) →
      optional.length = optional'.length →
      (∀ pair ∈ optional.zip optional', Sized p pair.1 pair.2) → Sized p xs ys →
      Sized p (.command name required optional place :: xs)
        (.command name required' optional' place :: ys)

variable {p : Span} {s t : Token} {xs ys : List Token}

theorem Sized.refl (ts : List Token) : Sized p ts ts := by
  induction ts with
  | nil => exact .nothing
  | cons t rest ih => exact .token t ih

theorem Sized.append {xs' ys' : List Token} (first : Sized p xs ys) (second : Sized p xs' ys') :
    Sized p (xs ++ xs') (ys ++ ys') := by
  induction first with
  | nothing => exact second
  | token t _ ih => exact .token t ih
  | word sizes _ ih => exact .word sizes ih
  | command many each many' each' _ _ _ ih => exact .command many each many' each' ih

theorem zippedForall {α β : Type} {R : α → β → Prop} {as : List α} {bs : List β}
    (many : as.length = bs.length) (each : ∀ pair ∈ as.zip bs, R pair.1 pair.2) :
    List.Forall₂ R as bs :=
  List.forall₂_iff_zip.mpr ⟨many, fun member => each _ member⟩

theorem Sized.ofGroups {name : String} {required required' optional optional' : List (List Token)}
    {place : Span} (first : List.Forall₂ (Sized p) required required')
    (second : List.Forall₂ (Sized p) optional optional') (later : Sized p xs ys) :
    Sized p (.command name required optional place :: xs)
      (.command name required' optional' place :: ys) :=
  .command first.length_eq (fun _ member => (List.forall₂_iff_zip.mp first).2 member)
    second.length_eq (fun _ member => (List.forall₂_iff_zip.mp second).2 member) later

theorem takesSizingWord (bracket : takesSizing t = true) : ∃ b, (b = .paren ∨ b = .escapedBrace) ∧
    (t.word? = some (.opening b) ∨ t.word? = some (.closing b)) := by
  unfold takesSizing at bracket
  split at bracket
  · rename_i b word
    exact ⟨b, by simpa using bracket, .inl word⟩
  · rename_i b word
    exact ⟨b, by simpa using bracket, .inr word⟩
  · cases bracket

theorem sizingWord (sizing : isSizing s = true) : ∃ name, s.word? = some (.stub name) := by
  rw [isSizing, Bool.or_eq_true, decide_eq_true_eq, decide_eq_true_eq] at sizing
  exact sizing.elim (⟨_, ·⟩) (⟨_, ·⟩)

theorem SizingFor.stub (sizes : SizingFor p s t) (stub : ∃ name, t.word? = some (.stub name)) :
    False := by
  obtain ⟨name, stub⟩ := stub
  have bracket := sizes.bracket
  rw [takesSizing, stub] at bracket
  cases bracket

theorem Sized.last {other other' : Token} (sized : Sized p xs ys)
    (same : other.span = other'.span) : (xs.getLastD other).span = (ys.getLastD other').span := by
  induction sized generalizing other other' with
  | nothing => exact same
  | token t _ ih =>
      simp only [List.getLastD_cons]
      exact ih rfl
  | word _ _ ih =>
      simp only [List.getLastD_cons]
      exact ih rfl
  | command _ _ _ _ _ _ _ ih =>
      simp only [List.getLastD_cons]
      exact ih rfl

theorem spanOfCons (t : Token) (rest : List Token) :
    spanOf (t :: rest) = some ⟨t.span.start, (rest.getLastD t).span.stop⟩ := by
  rw [spanOf, List.getLast_eq_getLastD]
  rfl

theorem Sized.place (sized : Sized p xs ys) : spanOf xs = spanOf ys := by
  cases sized with
  | nothing => rfl
  | token t later => rw [spanOfCons, spanOfCons, later.last rfl]
  | word sizes later =>
      rw [spanOfCons, spanOfCons, List.getLastD_cons, sizes.start, later.last rfl]
  | @command name required required' optional optional' place _ _ _ _ _ _ later =>
      have same : (Token.command name required optional place).span
          = (Token.command name required' optional' place).span := rfl
      rw [spanOfCons, spanOfCons, later.last same, same]

end Relation

section Capturing

variable {p : Span} {s t : Token} {xs ys : List Token} {kind : GroupKind}

theorem takesSizingStep {b : Bracket} (other : b ≠ .paren ∧ b ≠ .escapedBrace)
    (bracket : takesSizing t = true) (depth : Nat) : groupStep b depth t = some depth := by
  obtain ⟨c, round, word⟩ := takesSizingWord bracket
  have different : c ≠ b := by
    rintro rfl
    exact round.elim other.1 other.2
  cases t with
  | command => simp [Token.word?] at word
  | plain w place =>
      rcases word with word | word <;> cases word <;>
        simp [groupStep, Token.opens, Token.closes, different]

theorem sizingStep (sizing : isSizing s = true) (b : Bracket) (depth : Nat) :
    groupStep b depth s = some depth := by
  obtain ⟨name, word⟩ := sizingWord sizing
  rw [stubWord word]
  rfl

theorem groupBracket : kind.bracket ≠ .paren ∧ kind.bracket ≠ .escapedBrace := by
  cases kind <;> simp [GroupKind.bracket]

theorem splitGroupPast {b : Bracket} {depth : Nat} (step : groupStep b depth t = some depth)
    (rest : List Token) : splitGroup b depth (t :: rest)
      = (t :: (splitGroup b depth rest).1, (splitGroup b depth rest).2) := by
  rw [splitGroupCons, step]

theorem splitGroupSized {b : Bracket} (other : b ≠ .paren ∧ b ≠ .escapedBrace) (depth : Nat)
    (sized : Sized p xs ys) :
    Sized p (splitGroup b depth xs).1 (splitGroup b depth ys).1 ∧
      ((splitGroup b depth xs).2 = [] ∧ (splitGroup b depth ys).2 = [] ∨
        ∃ closer after after', (splitGroup b depth xs).2 = closer :: after ∧
          (splitGroup b depth ys).2 = closer :: after' ∧ Sized p after after') := by
  induction sized generalizing depth with
  | nothing => exact ⟨.nothing, .inl ⟨rfl, rfl⟩⟩
  | @token xs ys t later ih =>
      rw [splitGroupCons, splitGroupCons]
      cases groupStep b depth t with
      | none => exact ⟨.nothing, .inr ⟨t, xs, ys, rfl, rfl, later⟩⟩
      | some next =>
          obtain ⟨inside, outside⟩ := ih next
          exact ⟨.token t inside, outside⟩
  | word sizes _ ih =>
      rw [splitGroupPast (takesSizingStep other sizes.bracket depth),
        splitGroupPast (sizingStep sizes.sizing b depth),
        splitGroupPast (takesSizingStep other sizes.bracket depth)]
      obtain ⟨inside, outside⟩ := ih depth
      exact ⟨.word sizes inside, outside⟩
  | @command name required required' optional optional' place _ _ many each many' each' _ _ _ ih =>
      have step (required optional : List (List Token)) :
          groupStep b depth (.command name required optional place) = some depth := rfl
      rw [splitGroupPast (step required optional), splitGroupPast (step required' optional')]
      obtain ⟨inside, outside⟩ := ih depth
      exact ⟨.command many each many' each' inside, outside⟩

structure GroupSized (p : Span) (g h : Group) : Prop where
  kind : g.kind = h.kind
  inside : Sized p g.inside h.inside
  last : g.last.span = h.last.span

theorem Sized.noGroup (sized : Sized p xs ys) (none : NoGroup xs) : NoGroup ys := by
  cases sized with
  | nothing => exact none
  | token t _ => exact none
  | word sizes _ =>
      obtain ⟨name, word⟩ := sizingWord sizes.sizing
      rw [NoGroup, stubWord word]
      simp [groupKind?, Token.opens]
  | command => simp [NoGroup, groupKind?, Token.opens]

theorem takesSizingNoGroup (bracket : takesSizing t = true) : groupKind? t = none := by
  cases found : groupKind? t with
  | none => rfl
  | some kind =>
      rw [takesSizing, groupKindWord.mp found] at bracket
      cases kind <;> cases bracket

theorem takeGroupsSized (sized : Sized p xs ys) :
    List.Forall₂ (GroupSized p) (takeGroups xs).1 (takeGroups ys).1
      ∧ Sized p (takeGroups xs).2 (takeGroups ys).2 := by
  fun_induction takeGroups xs generalizing ys with
  | case1 =>
      cases sized
      exact ⟨by simp [takeGroups], by simpa [takeGroups] using .nothing⟩
  | case2 t rest none =>
      have front : NoGroup (t :: rest) := by simpa [NoGroup] using none
      rw [takeGroupsNone (sized.noGroup front)]
      exact ⟨.nil, sized⟩
  | case3 t rest kind found cut last more =>
      rename_i ih
      cases sized with
      | command => simp [groupKind?, Token.opens] at found
      | word sizes _ => simp [takesSizingNoGroup sizes.bracket] at found
      | @token _ rest' _ later =>
          have other := @groupBracket kind
          obtain ⟨inside, ⟨endless, endless'⟩ | ⟨closer, after, after', ends, ends', outside⟩⟩ :=
            splitGroupSized other 0 later
          · have last' := inside.last (show t.span = t.span from rfl)
            have ended : Sized p (cut.2.drop 1) [] := by
              rw [endless]
              exact .nothing
            obtain ⟨groups, remains⟩ := ih ended
            rw [takeGroupsOpen found, endless']
            refine ⟨.cons ⟨rfl, inside, ?_⟩ groups, remains⟩
            simpa [last, cut, endless] using last'
          · have beyond : Sized p (cut.2.drop 1) after' := by
              rw [ends]
              exact outside
            obtain ⟨groups, remains⟩ := ih beyond
            rw [takeGroupsOpen found, ends']
            refine ⟨.cons ⟨rfl, inside, ?_⟩ groups, remains⟩
            simp [last, cut, ends]

theorem groupsOfSized {gs hs : List Group} (kind : GroupKind)
    (same : List.Forall₂ (fun g h => g.kind = h.kind
      ∧ Sized p (captureArguments g.inside) (captureArguments h.inside)) gs hs) :
    List.Forall₂ (Sized p) (capturedGroups kind gs) (capturedGroups kind hs) := by
  induction same with
  | nil => exact .nil
  | @cons g h gs hs first _ ih =>
      obtain ⟨kind', inside⟩ := first
      simp only [capturedGroups, groupsOf, List.map_cons, List.filter_cons, kind'] at ih ⊢
      split
      · exact .cons inside ih
      · exact ih

theorem lastSized {gs hs : List Group} (same : List.Forall₂ (GroupSized p) gs hs) :
    gs.getLast?.map (fun g => g.last.span) = hs.getLast?.map fun h => h.last.span := by
  have spans : gs.map (fun g => g.last.span) = hs.map fun h => h.last.span := by
    induction same with
    | nil => rfl
    | cons first _ ih => rw [List.map_cons, List.map_cons, first.last, ih]
  rw [← List.getLast?_map, ← List.getLast?_map, spans]

theorem commandSized {gs hs : List Group} (name : String) (place : Span)
    (same : List.Forall₂ (GroupSized p) gs hs)
    (inside : List.Forall₂ (fun g h => g.kind = h.kind
      ∧ Sized p (captureArguments g.inside) (captureArguments h.inside)) gs hs)
    (later : Sized p xs ys) :
    Sized p (commandOf name place gs :: xs) (commandOf name place hs :: ys) := by
  have last := lastSized same
  have required := groupsOfSized .required inside
  have optional := groupsOfSized .optional inside
  simp only [capturedGroups] at required optional
  cases same with
  | nil => exact .token _ later
  | cons first rest =>
      simp only [commandOf, withGroups, List.getLast?_cons, Option.map_some, Option.some.injEq]
        at last ⊢
      rw [last]
      exact .ofGroups required optional later

theorem captureSized (sized : Sized p xs ys) :
    Sized p (captureArguments xs) (captureArguments ys) := by
  fun_induction captureArguments xs generalizing ys with
  | case1 =>
      cases sized
      rw [captureArguments]
      exact .nothing
  | case2 name place rest taken groups ih =>
      rename_i ih'
      cases sized with
      | word sizes _ => exact (sizes.stub ⟨name, rfl⟩).elim
      | @token _ rest' _ later =>
          obtain ⟨same, remains⟩ := takeGroupsSized later
          have inside : List.Forall₂ (fun g h => g.kind = h.kind
              ∧ Sized p (captureArguments g.inside) (captureArguments h.inside))
              (takeGroups rest).1 (takeGroups rest').1 := by
            obtain ⟨many, each⟩ := List.forall₂_iff_zip.mp same
            refine List.forall₂_iff_zip.mpr ⟨many, fun {g h} member => ?_⟩
            have paired := each member
            exact ⟨paired.kind, ih ⟨g, (List.of_mem_zip member).1⟩ paired.inside⟩
          have made := commandSized name place same inside (ih' remains)
          have inner : groups = taken.1.map fun g => (g.kind, captureArguments g.inside) := by
            simp [groups]
          rw [captureStub, inner]
          exact made
  | case3 t rest plain ih =>
      have other (name : String) : t.word? ≠ some (.stub name) := fun stub =>
        plain name t.span (stubWord stub)
      cases sized with
      | token _ later =>
          rw [captureOther other]
          exact .token t (ih later)
      | @word s _ _ rest' sizes later =>
          obtain ⟨name, stub⟩ := sizingWord sizes.sizing
          have alone : NoGroup (t :: rest') := by
            simpa [NoGroup] using takesSizingNoGroup sizes.bracket
          have whole : captureArguments (s :: t :: rest') = s :: t :: captureArguments rest' := by
            rw [stubWord stub, captureStub, takeGroupsNone alone, captureOther other]
            rfl
          rw [whole]
          exact .word sizes (ih later)
      | command many each many' each' later =>
          rw [captureOther (by simp [Token.word?])]
          exact .command many each many' each' (ih later)

end Capturing

section Passes

variable {p : Span} {s t : Token} {w : Word} {xs ys : List Token}

def Word.passive : Word → Bool
  | space | newline | percent | regionOpening _ | regionClosing _ | regionEnd => false
  | comma | colon | equals | keyword _ | text _ => false
  | _ => true

theorem sizingPassive (sizing : isSizing s = true) :
    ∃ w, s = .plain w s.span ∧ w.passive = true ∧ depthStep s = 0 := by
  obtain ⟨name, word⟩ := sizingWord sizing
  refine ⟨_, stubWord word, rfl, ?_⟩
  rw [stubWord word]
  rfl

theorem takesSizingPassive (bracket : takesSizing t = true) :
    ∃ w, t = .plain w t.span ∧ w.passive = true := by
  obtain ⟨b, -, word⟩ := takesSizingWord bracket
  cases t with
  | command => simp [Token.word?] at word
  | plain w place => rcases word with word | word <;> cases word <;> exact ⟨_, rfl, rfl⟩

theorem nextPassive (passive : w.passive = true) (place : Span) (r : Reader) :
    r.next (.plain w place)
      = (r, if r.inComment || r.opened.isNone then [] else [.plain w place]) := by
  obtain ⟨_ | _, _ | _⟩ := r <;> cases w <;>
    simp_all [Reader.next, Reader.outside, Word.passive, Token.word?]

theorem nextCommand (name : String) (required optional : List (List Token)) (place : Span)
    (r : Reader) : r.next (.command name required optional place)
      = (r, if r.inComment || r.opened.isNone then [] else [.command name required optional place])
    := by
  obtain ⟨_ | _, _ | _⟩ := r <;> simp [Reader.next, Reader.outside, Token.word?]

theorem dropCommentsPassive (passive : w.passive = true) (inComment : Bool) (place : Span)
    (rest : List Token) : dropComments inComment (.plain w place :: rest)
      = (if inComment then [] else [.plain w place]) ++ dropComments inComment rest := by
  cases inComment <;> cases w <;> simp_all [dropComments, Word.passive, Token.word?]

theorem normalizePassive (passive : w.passive = true) (place : Span) (rest : List Token) :
    normalize (.plain w place :: rest) = .plain w place :: normalize rest := by
  cases w <;> simp_all [normalize, isWhitespace, asKeyword, Word.passive, Token.word?]

theorem nestingZipped {gs hs : List (List Token)} (many : gs.length = hs.length)
    (same : ∀ pair ∈ gs.zip hs, nesting pair.1 = nesting pair.2) :
    nestingGroups gs = nestingGroups hs := by
  have paired : List.Forall₂ (fun g h => nesting g = nesting h) gs hs := zippedForall many same
  clear many same
  induction paired with
  | nil => rfl
  | cons first _ ih => rw [nestingGroups, nestingGroups, first, ih]

theorem nestingSized (sized : Sized p xs ys) : nesting xs = nesting ys := by
  induction sized with
  | nothing => rfl
  | token t _ ih => rw [nesting, nesting, ih]
  | word sizes _ ih =>
      obtain ⟨w, sizing, -⟩ := sizingPassive sizes.sizing
      rw [nesting, nesting, nesting, ih, sizing, Token.nesting, Nat.zero_max]
  | command many _ many' _ _ same same' ih =>
      rw [nesting, nesting, Token.nesting, Token.nesting, nestingZipped many same,
        nestingZipped many' same', ih]

theorem afterSized (sized : Sized p xs ys) (r : Reader) :
    (r.after xs).1 = (r.after ys).1 ∧ Sized p (r.after xs).2 (r.after ys).2 := by
  induction sized generalizing r with
  | nothing => exact ⟨rfl, .nothing⟩
  | token t _ ih =>
      obtain ⟨state, code⟩ := ih (r.next t).1
      exact ⟨state, (Sized.refl _).append code⟩
  | word sizes _ ih =>
      obtain ⟨w, sizing, passive, -⟩ := sizingPassive sizes.sizing
      obtain ⟨w', bracket, passive'⟩ := takesSizingPassive sizes.bracket
      obtain ⟨state, code⟩ := ih r
      rw [sizing, bracket] at sizes ⊢
      simp only [Reader.after, nextPassive passive, nextPassive passive']
      refine ⟨state, ?_⟩
      split
      · exact code
      · exact .word sizes code
  | @command name required required' optional optional' place _ _ many each many' each' _ _ _ ih =>
      obtain ⟨state, code⟩ := ih r
      simp only [Reader.after, nextCommand]
      refine ⟨state, ?_⟩
      split
      · exact code
      · exact .command many each many' each' code

theorem dropCommentsSized (sized : Sized p xs ys) (inComment : Bool) :
    Sized p (dropComments inComment xs) (dropComments inComment ys) := by
  induction sized generalizing inComment with
  | nothing => exact .nothing
  | token t _ ih =>
      rw [dropComments, dropComments]
      split
      · exact ih true
      · split
        · exact ih true
        · exact .token t (ih false)
  | word sizes _ ih =>
      obtain ⟨w, sizing, passive, -⟩ := sizingPassive sizes.sizing
      obtain ⟨w', bracket, passive'⟩ := takesSizingPassive sizes.bracket
      rw [sizing, bracket] at sizes ⊢
      rw [dropCommentsPassive passive', dropCommentsPassive passive, dropCommentsPassive passive']
      split
      · exact ih _
      · exact .word sizes (ih _)
  | command many each many' each' _ _ _ ih =>
      cases inComment with
      | true => exact ih true
      | false => exact .command many each many' each' (ih false)

theorem normalizeSized (sized : Sized p xs ys) : Sized p (normalize xs) (normalize ys) := by
  induction sized with
  | nothing => exact .nothing
  | @token xs ys t _ ih =>
      have first (ts : List Token) : normalize (t :: ts) = normalize [t] ++ normalize ts :=
        normalizeAppend [t] ts
      rw [first, first ys]
      exact (Sized.refl _).append ih
  | word sizes _ ih =>
      obtain ⟨w, sizing, passive, -⟩ := sizingPassive sizes.sizing
      obtain ⟨w', bracket, passive'⟩ := takesSizingPassive sizes.bracket
      rw [sizing, bracket] at sizes ⊢
      rw [normalizePassive passive', normalizePassive passive, normalizePassive passive']
      exact .word sizes ih
  | command many each many' each' _ _ _ ih => exact .command many each many' each' ih

end Passes

section Slices

variable {p : Span} {s t : Token} {xs ys : List Token}

theorem headSized {xss yss : List (List Token)} {f g : List Token → List Token}
    (heads : ∀ xs ys, Sized p xs ys → Sized p (f xs) (g ys))
    (same : List.Forall₂ (Sized p) xss yss) :
    List.Forall₂ (Sized p) (xss.modifyHead f) (yss.modifyHead g) := by
  cases same with
  | nil => exact .nil
  | cons first rest => exact .cons (heads _ _ first) rest

theorem splitTopPassive {w : Word} (passive : w.passive = true) (place : Span) (depth : Int)
    (rest : List Token) : splitTop .comma depth (.plain w place :: rest)
      = (splitTop .comma (depth + depthStep (Token.plain w place)) rest).modifyHead
          (.plain w place :: ·) := by
  have other : ¬ (Lexical.word? (Token.plain w place) = some .comma ∧ depth = 0) := by
    rintro ⟨⟨⟩, -⟩
    cases passive
  rw [splitTop, if_neg other]

theorem splitTopSized (sized : Sized p xs ys) (depth : Int) :
    List.Forall₂ (Sized p) (splitTop .comma depth xs) (splitTop .comma depth ys) := by
  induction sized generalizing depth with
  | nothing => exact .cons .nothing .nil
  | token t _ ih =>
      rw [splitTop, splitTop]
      split
      · exact .cons .nothing (ih depth)
      · exact headSized (fun _ _ => .token t) (ih _)
  | word sizes _ ih =>
      obtain ⟨w, sizing, passive, level⟩ := sizingPassive sizes.sizing
      obtain ⟨w', bracket, passive'⟩ := takesSizingPassive sizes.bracket
      rw [sizing, bracket] at sizes ⊢
      rw [sizing] at level
      rw [splitTopPassive passive', splitTopPassive passive, splitTopPassive passive', level,
        Int.add_zero, List.modifyHead_modifyHead]
      exact headSized (fun _ _ => .word sizes) (ih _)
  | command many each many' each' _ _ _ ih =>
      exact headSized (fun _ _ => .command many each many' each') (ih _)

theorem splitRegionsSized (sized : Sized p xs ys) :
    List.Forall₂ (Sized p) (splitRegions xs) (splitRegions ys) := by
  induction sized with
  | nothing => exact .cons .nothing .nil
  | token t _ ih =>
      rw [splitRegions, splitRegions]
      split
      · exact .cons .nothing ih
      · exact headSized (fun _ _ => .token t) ih
  | word sizes _ ih =>
      obtain ⟨w, sizing, passive, -⟩ := sizingPassive sizes.sizing
      obtain ⟨w', bracket, passive'⟩ := takesSizingPassive sizes.bracket
      have inside {w : Word} (passive : w.passive = true) (place : Span) (rest : List Token) :
          splitRegions (.plain w place :: rest)
            = (splitRegions rest).modifyHead (.plain w place :: ·) := by
        rw [splitRegions, if_neg]
        rintro ⟨⟩
        cases passive
      rw [sizing, bracket] at sizes ⊢
      rw [inside passive', inside passive, inside passive', List.modifyHead_modifyHead]
      exact headSized (fun _ _ => .word sizes) ih
  | command many each many' each' _ _ _ ih =>
      exact headSized (fun _ _ => .command many each many' each') ih

theorem Sized.empty (sized : Sized p xs ys) : xs.isEmpty = ys.isEmpty := by
  cases sized with
  | nothing | token | word | command => rfl

theorem slicesSized (sized : Sized p xs ys) :
    List.Forall₂ (Sized p) (slicesOf xs) (slicesOf ys) := by
  have regions {xss yss : List (List Token)} (same : List.Forall₂ (Sized p) xss yss) :
      List.Forall₂ (Sized p) (xss.flatMap (splitTop .comma 0))
        (yss.flatMap (splitTop .comma 0)) := by
    induction same with
    | nil => exact .nil
    | cons first _ ih => exact List.rel_append (splitTopSized first 0) ih
  have filled {xss yss : List (List Token)} (same : List.Forall₂ (Sized p) xss yss) :
      List.Forall₂ (Sized p) (xss.filter fun slice => !slice.isEmpty)
        (yss.filter fun slice => !slice.isEmpty) := by
    induction same with
    | nil => exact .nil
    | cons first _ ih =>
        rw [List.filter_cons, List.filter_cons, first.empty]
        split
        · exact .cons first ih
        · exact ih
  exact filled (regions (splitRegionsSized sized))

end Slices

section Lowering

variable {p : Span} {s t : Token} {xs ys : List Token}

theorem lowerSingle (limit : Nat) (t : Token) : lowerCommands (limit + 1) [t]
    = lowerToken (fun inside => lowerCommands limit (groupCode inside)) t := by
  rw [lowerCommands, List.mapM_cons]
  cases lowerToken (fun inside => lowerCommands limit (groupCode inside)) t with
  | error failure => rfl
  | ok out => simp

theorem lowerTokenSized {lower : List Token → Parsed (List Token)}
    (more : ∀ xs ys out, Sized p xs ys → lower xs = .ok out → lower ys = .ok out)
    {name : String} {required required' optional optional' : List (List Token)} {place : Span}
    (same : List.Forall₂ (Sized p) required required')
    (same' : List.Forall₂ (Sized p) optional optional') {out : List Token}
    (read : lowerToken lower (.command name required optional place) = .ok out) :
    lowerToken lower (.command name required' optional' place) = .ok out := by
  simp only [lowerToken] at read ⊢
  split at read
  · rename_i isFrac
    rw [if_pos isFrac]
    split at read
    · obtain ⟨a, first, read⟩ := bindIsOk.mp read
      obtain ⟨b, second, made⟩ := bindIsOk.mp read
      cases made
      cases same' with | nil
      cases same with | cons numerator same
      cases same with | cons denominator same
      cases same with | nil
      simp [more _ _ _ numerator first, more _ _ _ denominator second]
    · cases read
  · rename_i notFrac
    rw [if_neg notFrac]
    split at read
    · rename_i isSqrt
      rw [if_pos isSqrt]
      split at read
      · obtain ⟨a, first, made⟩ := bindIsOk.mp read
        cases made
        cases same' with | nil
        cases same with | cons radicand same
        cases same with | nil
        simp [more _ _ _ radicand first]
      · obtain ⟨a, first, read⟩ := bindIsOk.mp read
        obtain ⟨b, second, made⟩ := bindIsOk.mp read
        cases made
        cases same' with | cons index same'
        cases same' with | nil
        cases same with | cons radicand same
        cases same with | nil
        simp [more _ _ _ index first, more _ _ _ radicand second]
      · cases read
    · cases read

theorem lowerSized {limit : Nat} (sized : Sized p xs ys) {lowered : List Token}
    (read : lowerCommands limit xs = .ok lowered) : lowerCommands limit ys = .ok lowered := by
  induction limit generalizing xs ys lowered with
  | zero => cases read
  | succ limit ih =>
      induction sized generalizing lowered with
      | nothing => exact read
      | token t _ ih' =>
          obtain ⟨as, bs, first, later, rfl⟩ := lowerCons.mp read
          exact lowerCons.mpr ⟨as, bs, first, ih' later, rfl⟩
      | @word s t _ _ sizes _ ih' =>
          obtain ⟨as, bs, first, later, rfl⟩ := lowerCons.mp read
          have gone : lowerCommands (limit + 1) [s] = .ok [] := by
            obtain ⟨w, sizing, -⟩ := sizingPassive sizes.sizing
            rw [lowerSingle, sizing, lowerToken, ← sizing, if_pos sizes.sizing]
          exact lowerCons.mpr
            ⟨[], as ++ bs, gone, lowerCons.mpr ⟨as, bs, first, ih' later, rfl⟩, rfl⟩
      | command many each many' each' _ _ _ ih' =>
          obtain ⟨as, bs, first, later, rfl⟩ := lowerCons.mp read
          refine lowerCons.mpr ⟨as, bs, ?_, ih' later, rfl⟩
          rw [lowerSingle] at first ⊢
          refine lowerTokenSized (fun xs ys out sized => ?_) (zippedForall many each)
            (zippedForall many' each') first
          exact ih (normalizeSized (dropCommentsSized sized false))

end Lowering

section Values

variable {p : Span} {s t : Token} {xs ys : List Token}

theorem cutAtKeywordPassive {w : Word} (passive : w.passive = true) (k : Keyword) (pending : Nat)
    (place : Span) (rest : List Token) : cutAtKeyword k pending (.plain w place :: rest)
      = (cutAtKeyword k pending rest).map fun cut => (.plain w place :: cut.1, cut.2) := by
  refine cutAtKeywordOther fun k' word => ?_
  cases word
  cases passive

theorem cutAtKeywordSized {k : Keyword} {pending : Nat} {before after : List Token}
    (sized : Sized p xs ys) (cut : cutAtKeyword k pending xs = some (before, after)) :
    ∃ before' after', cutAtKeyword k pending ys = some (before', after') ∧
      Sized p before before' ∧ Sized p after after' := by
  induction sized generalizing pending before with
  | nothing => cases cut
  | @token xs ys t later ih =>
      obtain ⟨next, passes⟩ | ⟨-, cuts⟩ | fails := cutAtKeywordCons k pending t
      · rw [passes] at cut
        obtain ⟨⟨before, after⟩, found, made⟩ := Option.map_eq_some_iff.mp cut
        cases made
        obtain ⟨before', after', cut', first, second⟩ := ih found
        exact ⟨t :: before', after', by rw [passes, cut']; rfl, .token t first, second⟩
      · rw [cuts] at cut
        cases cut
        exact ⟨[], ys, cuts ys, .nothing, later⟩
      · rw [fails] at cut
        cases cut
  | word sizes _ ih =>
      obtain ⟨w, sizing, passive, -⟩ := sizingPassive sizes.sizing
      obtain ⟨w', bracket, passive'⟩ := takesSizingPassive sizes.bracket
      rw [sizing, bracket] at sizes ⊢
      rw [bracket, cutAtKeywordPassive passive'] at cut
      obtain ⟨⟨before, after⟩, found, made⟩ := Option.map_eq_some_iff.mp cut
      cases made
      obtain ⟨before', after', cut', first, second⟩ := ih found
      refine ⟨_ :: _ :: before', after', ?_, .word sizes first, second⟩
      rw [cutAtKeywordPassive passive, cutAtKeywordPassive passive', cut']
      rfl
  | @command name required required' optional optional' place _ _ many each many' each' _ _ _ ih =>
      have passes (required optional : List (List Token)) (rest : List Token) :
          cutAtKeyword k pending (.command name required optional place :: rest)
            = (cutAtKeyword k pending rest).map fun cut =>
                (.command name required optional place :: cut.1, cut.2) :=
        cutAtKeywordOther nofun
      rw [passes] at cut
      obtain ⟨⟨before, after⟩, found, made⟩ := Option.map_eq_some_iff.mp cut
      cases made
      obtain ⟨before', after', cut', first, second⟩ := ih found
      refine ⟨_ :: before', after', ?_, .command many each many' each' first, second⟩
      rw [passes, cut']
      rfl

theorem Sized.filled (sized : Sized p xs ys) (filled : xs ≠ []) : ys ≠ [] := by
  intro nothing
  exact filled (List.isEmpty_iff.mp (sized.empty.trans (List.isEmpty_iff.mpr nothing)))

theorem toPiecesSized (sized : Sized p xs ys) {ps : List Piece} (made : toPieces xs = .ok ps) :
    toPieces ys = .ok ps := by
  obtain ⟨lowered, read, names⟩ := toPiecesOk.mp made
  exact toPiecesOk.mpr ⟨lowered, lowerSized sized read, names⟩

theorem passiveUnconditional {w : Word} (passive : w.passive = true) (place : Span) :
    startsConditional (Token.plain w place) = false := by
  refine decide_eq_false fun word => ?_
  cases word
  cases passive

theorem Sized.starts {t' : Token} (sized : Sized p (t :: xs) (t' :: ys)) :
    startsConditional t' = startsConditional t := by
  cases sized with
  | token => rfl
  | word sizes _ =>
      obtain ⟨w, sizing, passive, -⟩ := sizingPassive sizes.sizing
      obtain ⟨w', bracket, passive'⟩ := takesSizingPassive sizes.bracket
      rw [sizing, bracket, passiveUnconditional passive, passiveUnconditional passive']
  | command => rfl

theorem valueSized {limit : Nat} (sized : Sized p xs ys) {e : Expr}
    (read : parseValue limit xs = .ok e) : parseValue limit ys = .ok e := by
  induction limit generalizing xs ys e with
  | zero => cases read
  | succ limit ih =>
      obtain ⟨t, rest, rfl, reading⟩ := parseValueOk read
      obtain ⟨t', rest', rfl⟩ := List.exists_cons_of_ne_nil (sized.filled (by simp))
      obtain ⟨starts, conditional⟩ | ⟨starts, ps, qs, made, -, -⟩ := reading
      · have later : t' = t ∧ Sized p rest rest' := by
          cases sized with
          | token _ later => exact ⟨rfl, later⟩
          | word sizes _ =>
              obtain ⟨w, bracket, passive⟩ := takesSizingPassive sizes.bracket
              rw [bracket, passiveUnconditional passive] at starts
              cases starts
          | command => cases starts
        have place := sized.place
        obtain ⟨rfl, later⟩ := later
        obtain ⟨condition, more, ifTrue, ifFalse, c, yes, no, cut, cut', ⟨some, some', some''⟩,
          first, second, third, rfl⟩ := parseConditionalOk.mp conditional
        obtain ⟨condition', more', again, sized₁, later⟩ := cutAtKeywordSized later cut
        obtain ⟨ifTrue', ifFalse', again', sized₂, sized₃⟩ := cutAtKeywordSized later cut'
        rw [parseValueConditional starts]
        exact parseConditionalOk.mpr ⟨condition', more', ifTrue', ifFalse', c, yes, no, again,
          again', ⟨sized₁.filled some, sized₂.filled some', sized₃.filled some''⟩,
          ih sized₁ first, ih sized₂ second, ih sized₃ third, by rw [place]⟩
      · rw [parseValueAssembled starts made] at read
        rw [parseValueAssembled (sized.starts.trans starts) (toPiecesSized sized made)]
        exact read

end Values
end LiterateMath
