import LiterateMath.Proofs.Parting

/-! What commands capture, collected again. Apart from the brackets around the captured groups
every token of a text is found once among its captured tokens, at some depth. -/
namespace LiterateMath

section Relation

structure WrittenGroup where
  kind : GroupKind
  opener : Token
  inside : List Token
  closer : Option Token
  captured : List Token
  kept : List Token

/-- A list that is groups up to a rest. Only brackets of its own kind count toward the end of a
group, and a group without partner takes all there is. -/
inductive Grouped : List Token → List WrittenGroup → List Token → Prop where
  | none {rest : List Token} : NoGroup rest → Grouped rest [] rest
  | closed {kind : GroupKind} {opener closer : Token} {inside after captured kept rest : List Token}
      {gs : List WrittenGroup} :
      opener.word? = some (.opening kind.bracket) →
      groupDepthAfter kind.bracket 0 inside = some 0 →
      closer.word? = some (.closing kind.bracket) → Grouped after gs rest →
      Grouped (opener :: (inside ++ closer :: after))
        (⟨kind, opener, inside, some closer, captured, kept⟩ :: gs) rest
  | unclosed {kind : GroupKind} {opener : Token} {inside captured kept : List Token} :
      opener.word? = some (.opening kind.bracket) →
      groupDepthAfter kind.bracket 0 inside ≠ none →
      Grouped (opener :: inside) [⟨kind, opener, inside, none, captured, kept⟩] []

def lastOf (gs : List WrittenGroup) (stub : Token) (written : List Token) : Token :=
  (gs.getLast?.bind WrittenGroup.closer).getD (written.getLastD stub)

def heldGroups (kind : GroupKind) (gs : List WrittenGroup) : List (List Token) :=
  groupsOf kind (gs.map fun g => (g.kind, g.captured))

/-- What is captured of a list, and which of its tokens are no brackets around captured groups. -/
inductive CapturedFrom : List Token → List Token → List Token → Prop where
  | nothing : CapturedFrom [] [] []
  | token {t : Token} {rest captured kept : List Token} : (t.isStub = true → NoGroup rest) →
      CapturedFrom rest captured kept → CapturedFrom (t :: rest) (t :: captured) (t :: kept)
  | command {name : String} {place : Span} {written rest captured kept : List Token}
      {gs : List WrittenGroup} : Grouped written gs rest → gs ≠ [] →
      (∀ g ∈ gs, CapturedFrom g.inside g.captured g.kept) → CapturedFrom rest captured kept →
      CapturedFrom (.plain (.stub name) place :: written)
        (.command name (heldGroups .required gs) (heldGroups .optional gs)
          (place.through (lastOf gs (.plain (.stub name) place) written).span) :: captured)
        (.plain (.stub name) place :: (gs.flatMap WrittenGroup.kept ++ kept))

end Relation

section Groups

variable {b : Bracket} {depth : Nat} {t : Token} {ts rest inside after : List Token}
  {kind : GroupKind} {gs : List WrittenGroup}

theorem groupKindWord : groupKind? t = some kind ↔ t.word? = some (.opening kind.bracket) := by
  cases t with
  | command => simp [groupKind?, Token.opens, Token.word?]
  | plain w place =>
      cases w with
      | opening c => cases c <;> cases kind <;> simp [groupKind?, Token.opens, Token.word?,
          GroupKind.bracket]
      | _ => simp [groupKind?, Token.opens, Token.word?]

theorem groupStepCloses {closer : Token} (closes : closer.word? = some (.closing b)) :
    groupStep b 0 closer = none := by
  cases closer with
  | command => cases closes
  | plain w place =>
      cases closes
      simp [groupStep, Token.opens, Token.closes]

theorem splitGroupLevel {closer : Token}
    (partner : splitGroup b depth ts = (inside, closer :: after)) :
    groupDepthAfter b depth inside = some 0 := by
  induction ts generalizing depth inside with
  | nil => cases partner
  | cons t rest ih =>
      rw [splitGroupCons] at partner
      cases step : groupStep b depth t with
      | none =>
          simp only [step] at partner
          cases partner
          have level : depth = 0 := by
            unfold groupStep at step
            grind
          rw [level]
          rfl
      | some next =>
          simp only [step] at partner
          obtain ⟨rfl, later⟩ := Prod.mk.inj partner
          rw [groupDepthAfter, List.foldlM_cons, step]
          exact ih (Prod.ext rfl later)

theorem splitGroupPartner {closer : Token} (level : groupDepthAfter b 0 inside = some 0)
    (closes : closer.word? = some (.closing b)) :
    splitGroup b 0 (inside ++ closer :: after) = (inside, closer :: after) := by
  rw [splitGroupOver level, splitGroupCons, groupStepCloses closes]
  simp

theorem splitGroupAlone (level : groupDepthAfter b 0 inside ≠ none) :
    splitGroup b 0 inside = (inside, []) := by
  obtain ⟨depth', within⟩ := Option.ne_none_iff_exists'.mp level
  have whole := @splitGroupOver _ _ [] _ _ within
  rwa [List.append_nil, splitGroup, List.append_nil] at whole

def WrittenGroup.group (g : WrittenGroup) : Group :=
  ⟨g.kind, g.inside, g.closer.getD (g.inside.getLastD g.opener)⟩

theorem Grouped.nothing (grouped : Grouped ts [] rest) : rest = ts ∧ NoGroup ts := by
  cases grouped with
  | none alone => exact ⟨rfl, alone⟩

theorem Grouped.taken (grouped : Grouped ts gs rest) :
    takeGroups ts = (gs.map WrittenGroup.group, rest) := by
  induction grouped with
  | none alone => exact takeGroupsNone alone
  | closed opens level closes _ ih =>
      rw [takeGroupsClosed (groupKindWord.mpr opens) (splitGroupPartner level closes), ih]
      rfl
  | unclosed opens level =>
      rw [takeGroupsOpen (groupKindWord.mpr opens), splitGroupAlone level, List.drop_nil,
        takeGroups]
      rfl

theorem Grouped.last (grouped : Grouped ts gs rest) (filled : gs ≠ []) (stub : Token) :
    gs.getLast?.map (fun g => g.group.last) = some (lastOf gs stub ts) := by
  induction grouped generalizing stub with
  | none => exact absurd rfl filled
  | @closed _ opener closer inside after _ _ _ gs _ _ _ _ ih =>
      cases gs with
      | nil => rfl
      | cons g gs =>
          have passed : (opener :: (inside ++ closer :: after)).getLastD stub
              = after.getLastD closer := by
            simp [List.getLastD_eq_getLast?, List.getLast?_cons, List.getLast?_append]
          rw [List.getLast?_cons_cons, lastOf, List.getLast?_cons_cons, passed]
          exact ih (by simp) closer
  | unclosed =>
      simp only [lastOf, List.getLast?_singleton, Option.bind_some, Option.getD_none,
        List.getLastD_cons]
      rfl

theorem groupedExists (ts : List Token)
    (held : ∀ g ∈ (takeGroups ts).1,
      ∃ kept, CapturedFrom g.inside (captureArguments g.inside) kept) :
    ∃ gs, Grouped ts gs (takeGroups ts).2 ∧ ∀ g ∈ gs,
      g.captured = captureArguments g.inside ∧ CapturedFrom g.inside g.captured g.kept := by
  fun_induction takeGroups ts with
  | case1 => exact ⟨[], .none noGroupNothing, by simp⟩
  | case2 t rest none => exact ⟨[], .none (by simpa [NoGroup] using none), by simp⟩
  | case3 t rest kind found cut last more ih =>
      obtain ⟨⟨kept, first⟩, later⟩ := List.forall_mem_cons.mp held
      obtain ⟨gs, grouped, captures⟩ := ih later
      have opens := groupKindWord.mp found
      rcases partner : splitGroup kind.bracket 0 rest with ⟨inside, _ | ⟨closer, after⟩⟩
      · obtain ⟨rfl, depth, within⟩ := splitGroupEndless partner
        have nothing : more = ([], []) := by
          simp only [more, cut, partner, List.drop_nil]
          rw [takeGroups]
        refine ⟨[⟨kind, t, inside, none, captureArguments inside, kept⟩], ?_, ?_⟩
        · rw [nothing]
          exact .unclosed opens (by simp [within])
        · simpa [cut, partner] using first
      · obtain ⟨rfl, closes, -⟩ := splitGroupClosed partner
        simp only [cut, partner, List.drop_one, List.tail_cons] at grouped
        refine ⟨⟨kind, t, inside, some closer, captureArguments inside, kept⟩ :: gs, ?_, ?_⟩
        · simp only [more, cut, partner, List.drop_one, List.tail_cons]
          exact .closed opens (splitGroupLevel partner) closes grouped
        · refine List.forall_mem_cons.mpr ⟨?_, captures⟩
          simpa [cut, partner] using first

theorem withGroupsWritten {name : String} {place : Span} (grouped : Grouped ts gs rest)
    (filled : gs ≠ []) (captured : ∀ g ∈ gs, g.captured = captureArguments g.inside) :
    withGroups name place
        ((takeGroups ts).1.map fun g => (g.kind, captureArguments g.inside))
        ((takeGroups ts).1.getLast?.map Group.last)
      = .command name (heldGroups .required gs) (heldGroups .optional gs)
          (place.through (lastOf gs (.plain (.stub name) place) ts).span) := by
  have last := grouped.last filled (.plain (.stub name) place)
  have held : (gs.map WrittenGroup.group).map (fun g => (g.kind, captureArguments g.inside))
      = gs.map fun g => (g.kind, g.captured) := by
    rw [List.map_map]
    exact List.map_congr_left fun g member => congrArg (Prod.mk g.kind) (captured g member).symm
  rw [grouped.taken]
  simp only [List.getLast?_map, Option.map_map, Function.comp_def, last, held]
  rfl

theorem capturedExists (ts : List Token) :
    ∃ kept, CapturedFrom ts (captureArguments ts) kept := by
  fun_induction captureArguments ts with
  | case1 => exact ⟨[], .nothing⟩
  | case2 name place rest taken groups ih ih' =>
      obtain ⟨kept, later⟩ := ih'
      obtain ⟨gs, grouped, captured⟩ := groupedExists rest fun g member => ih ⟨g, member⟩
      have inner : groups = taken.1.map fun g => (g.kind, captureArguments g.inside) := by
        simp [groups]
      have count : taken.1 = gs.map WrittenGroup.group := congrArg Prod.fst grouped.taken
      cases gs with
      | nil =>
          obtain ⟨same, alone⟩ := grouped.nothing
          refine ⟨.plain (.stub name) place :: kept, ?_⟩
          rw [inner, count]
          exact .token (fun _ => alone) (same ▸ later)
      | cons g gs =>
          refine ⟨.plain (.stub name) place :: ((g :: gs).flatMap WrittenGroup.kept ++ kept), ?_⟩
          rw [inner, withGroupsWritten grouped (by simp) fun g member => (captured g member).1]
          exact .command grouped (by simp) (fun g member => (captured g member).2) later
  | case3 t rest plain ih =>
      obtain ⟨kept, later⟩ := ih
      refine ⟨_, .token (fun stub => ?_) later⟩
      unfold Token.isStub at stub
      split at stub
      · exact absurd rfl (plain _ _)
      · cases stub

theorem CapturedFrom.right {captured kept : List Token} (made : CapturedFrom ts captured kept) :
    captured = captureArguments ts := by
  induction made with
  | nothing => rw [captureArguments]
  | @token t rest captured kept alone _ ih =>
      cases t with
      | command => rw [captureOther (by simp [Token.word?]), ih]
      | plain w place =>
          by_cases stub : ∃ name, w = .stub name
          · obtain ⟨name, rfl⟩ := stub
            rw [captureStub, takeGroupsNone (alone rfl), ih]
            rfl
          · rw [captureOther (by simpa [Token.word?] using stub), ih]
  | command grouped filled _ _ held ih =>
      rw [captureStub, withGroupsWritten grouped filled held, grouped.taken, ih]

end Groups

section Collecting

mutual

def Token.inner : Token → List (List Token)
  | .plain .. => []
  | .command _ required optional _ => levelsOf required ++ levelsOf optional

def inner : List Token → List (List Token)
  | [] => []
  | t :: rest => t.inner ++ inner rest

def levelsOf : List (List Token) → List (List Token)
  | [] => []
  | g :: rest => (g :: inner g) ++ levelsOf rest

end

def levels (ts : List Token) : List (List Token) := ts :: inner ts

def asStub : Token → Token
  | .command name _ _ place => .plain (.stub name) ⟨place.start, place.start + 1 + name.length⟩
  | t => t

/-- The tokens at all levels, with one stub for each command. -/
def collected (ts : List Token) : List Token := (levels ts).flatten.map asStub

theorem levelsOfFlat (groups : List (List Token)) : levelsOf groups = groups.flatMap levels := by
  induction groups with
  | nil => simp [levelsOf]
  | cons g rest ih =>
      rw [levelsOf, ih]
      rfl

theorem collectedGroups (groups : List (List Token)) :
    (levelsOf groups).flatten.map asStub = groups.flatMap collected := by
  induction groups with
  | nil => simp [levelsOf]
  | cons g rest ih =>
      rw [levelsOf, List.flatten_append, List.map_append, ih]
      rfl

theorem collectedInner (ts : List Token) :
    collected ts = ts.map asStub ++ (inner ts).flatten.map asStub := by
  rw [collected, levels, List.flatten_cons, List.map_append]

theorem collectedPlain (w : Word) (place : Span) (ts : List Token) :
    collected (.plain w place :: ts) = .plain w place :: collected ts := by
  simp [collectedInner, inner, Token.inner, asStub]

theorem heldGroupsPerm (gs : List WrittenGroup) :
    (heldGroups .required gs ++ heldGroups .optional gs).Perm (gs.map WrittenGroup.captured) := by
  have apart := List.filter_append_perm (fun g : WrittenGroup => g.kind = .required) gs
  have other : (fun g : WrittenGroup => !decide (g.kind = .required))
      = fun g => decide (g.kind = .optional) := by
    funext g
    cases g.kind <;> rfl
  rw [other] at apart
  have mapped := apart.map WrittenGroup.captured
  rw [List.map_append] at mapped
  simpa [heldGroups, groupsOf, List.filter_map, Function.comp_def] using mapped

theorem heldGroupsMember {kind : GroupKind} {gs : List WrittenGroup} {ts : List Token}
    (member : ts ∈ heldGroups kind gs) : ∃ g ∈ gs, g.captured = ts := by
  obtain ⟨pair, kept, rfl⟩ := List.mem_map.mp member
  obtain ⟨g, inside, rfl⟩ := List.mem_map.mp (List.mem_filter.mp kept).1
  exact ⟨g, inside, rfl⟩

theorem collectedCommand (name : String) (gs : List WrittenGroup) (place : Span)
    (ts : List Token) :
    (collected (.command name (heldGroups .required gs) (heldGroups .optional gs) place
        :: ts)).Perm
      (.plain (.stub name) ⟨place.start, place.start + 1 + name.length⟩
        :: (gs.flatMap (fun g => collected g.captured) ++ collected ts)) := by
  have inside : ((heldGroups .required gs ++ heldGroups .optional gs).flatMap collected).Perm
      (gs.flatMap fun g => collected g.captured) := by
    have apart := (heldGroupsPerm gs).flatMap_right collected
    rwa [List.flatMap_map] at apart
  rw [collectedInner, collectedInner ts, inner, Token.inner, List.flatten_append,
    List.flatten_append, List.map_append, List.map_append, collectedGroups, collectedGroups,
    ← List.flatMap_append]
  exact .cons _ ((List.perm_append_comm_assoc _ _ _).trans (.append_right _ inside))

end Collecting

section Spelling

def Spelled : Token → Prop
  | .plain (.stub name) place => place.stop = place.start + 1 + name.length
  | .plain .. => True
  | .command .. => False

def Exact : Token → Prop
  | .plain (.text letters) place => place.stop = place.start + letters.length
  | .plain .backslash place => place.stop = place.start + 1
  | .plain (.stub _) _ => False
  | .plain .. => True
  | .command .. => False

theorem munchExact (place : Nat) (c : Char) (rest : List Char) :
    Exact (.plain (munch c rest).1 ⟨place, place + 1 + (munch c rest).2⟩) := by
  unfold munch
  split
  · unfold afterBackslash
    split <;> try trivial
    split <;> trivial
  · split
    · rename_i w mark
      unfold mark? at mark
      split at mark <;> cases mark <;> trivial
    · split
      · trivial
      · simp only [Exact, String.length_ofList, List.length_cons]
        omega

theorem lexFromExact (place : Nat) (cs : List Char) : ∀ t ∈ lexFrom place cs, Exact t := by
  fun_induction lexFrom place cs with
  | case1 => simp
  | case2 place c rest taken stop ih =>
      exact List.forall_mem_cons.mpr ⟨munchExact place c rest, ih⟩

theorem formStubsSpelled {ts : List Token} {lo hi : Nat} (tiles : Tiles lo ts hi)
    (precise : ∀ t ∈ ts, Exact t) : ∀ t ∈ formStubs ts, Spelled t := by
  fun_induction formStubs ts generalizing lo with
  | case1 first name last rest ih =>
      obtain ⟨-, -, meets, -, later⟩ := tiles
      obtain ⟨backslash, letters, precise⟩ : _ ∧ _ ∧ _ := by
        simpa only [List.forall_mem_cons] using precise
      refine List.forall_mem_cons.mpr ⟨?_, ih later precise⟩
      simp only [Exact, Token.span] at backslash letters meets
      simp only [Spelled, Span.through]
      omega
  | case2 t rest single ih =>
      obtain ⟨first, precise⟩ := List.forall_mem_cons.mp precise
      refine List.forall_mem_cons.mpr ⟨?_, ih tiles.2.2 precise⟩
      cases t with
      | command => cases first
      | plain w place => cases w <;> trivial
  | case3 => simp

theorem resolveNameSpelled {t : Token} (h : Spelled t) : Spelled (resolveName t) := by
  have meanings : ∀ entry ∈ commandTable, (Token.plain entry.2 ⟨0, 0⟩).isStub = false := by decide
  unfold resolveName
  split
  · rename_i name place
    cases found : meaning? name with
    | none => exact h
    | some w =>
        obtain ⟨before, after, split, -⟩ := List.lookup_eq_some_iff.mp found
        have other := meanings (name, w) (by rw [split]; simp)
        cases w <;> trivial
  · exact h

theorem namedTokensSpelled (text : String) : ∀ t ∈ namedTokens text, Spelled t := by
  intro t member
  obtain ⟨u, formed, rfl⟩ := List.mem_map.mp member
  exact resolveNameSpelled
    (formStubsSpelled (lexFromTiles 0 text.toList) (lexFromExact 0 text.toList) u formed)

end Spelling

section Conservation

variable {ts rest captured kept : List Token} {gs : List WrittenGroup}

theorem Grouped.inside (grouped : Grouped ts gs rest) : ∀ g ∈ gs, g.inside.Sublist ts := by
  induction grouped with
  | none => simp
  | closed _ _ _ _ ih =>
      refine List.forall_mem_cons.mpr ⟨?_, fun g member => ?_⟩
      · exact (List.sublist_append_left _ _).cons _
      · exact (((ih g member).cons _).trans (List.sublist_append_right _ _)).cons _
  | unclosed => exact List.forall_mem_singleton.mpr (List.sublist_cons_self _ _)

theorem Grouped.keeps (grouped : Grouped ts gs rest) (inside : ∀ g ∈ gs, g.kept.Sublist g.inside)
    (outside : kept.Sublist rest) : (gs.flatMap WrittenGroup.kept ++ kept).Sublist ts := by
  induction grouped with
  | none => exact outside
  | closed _ _ _ _ ih =>
      obtain ⟨first, inside⟩ := List.forall_mem_cons.mp inside
      rw [List.flatMap_cons, List.append_assoc]
      exact (first.append ((ih inside outside).cons _)).cons _
  | unclosed =>
      cases List.sublist_nil.mp outside
      simpa using (List.forall_mem_singleton.mp inside).cons _

theorem Grouped.outside (grouped : Grouped ts gs rest) : rest.Sublist ts := by
  induction grouped with
  | none => exact .refl _
  | closed _ _ _ _ ih => exact ((ih.cons _).trans (List.sublist_append_right _ _)).cons _
  | unclosed => exact List.nil_sublist _

theorem CapturedFrom.part (made : CapturedFrom ts captured kept) : kept.Sublist ts := by
  induction made with
  | nothing => exact .slnil
  | token _ _ ih => exact ih.cons_cons _
  | command grouped _ _ _ held ih => exact (grouped.keeps held ih).cons_cons _

theorem CapturedFrom.conserved (made : CapturedFrom ts captured kept)
    (spelled : ∀ t ∈ ts, Spelled t) : (collected captured).Perm kept := by
  induction made with
  | nothing => exact .of_eq (by simp [collected, levels, inner])
  | @token t _ _ _ _ _ ih =>
      obtain ⟨first, later⟩ := List.forall_mem_cons.mp spelled
      cases t with
      | command => cases first
      | plain w place =>
          rw [collectedPlain]
          exact (ih later).cons _
  | @command name place written rest captured kept gs grouped _ _ _ held ih =>
      obtain ⟨first, spelled⟩ := List.forall_mem_cons.mp spelled
      have stub : Token.plain (.stub name) ⟨place.start, place.start + 1 + name.length⟩
          = .plain (.stub name) place :=
        congrArg (fun stop => Token.plain (.stub name) ⟨place.start, stop⟩) first.symm
      have inside : (gs.flatMap fun g => collected g.captured).Perm
          (gs.flatMap WrittenGroup.kept) := by
        refine List.Perm.flatMap_left gs fun g member => held g member fun t within => ?_
        exact spelled t ((grouped.inside g member).subset within)
      have outside := ih fun t within => spelled t (grouped.outside.subset within)
      refine (collectedCommand name gs _ captured).trans ?_
      rw [← stub]
      exact .cons _ (inside.append outside)

def startsBefore (t u : Token) : Bool := t.span.start ≤ u.span.start

theorem CapturedFrom.ordered {lo hi : Nat} (made : CapturedFrom ts captured kept)
    (tiles : Tiles lo ts hi) (spelled : ∀ t ∈ ts, Spelled t) :
    (collected captured).mergeSort startsBefore = kept := by
  have ascends : ts.Pairwise fun t u => t.span.start < u.span.start := by
    refine (List.pairwise_map.mp tiles.ascend).imp_of_mem fun {t u} member _ apart => ?_
    exact Nat.lt_of_lt_of_le (tiles.within member).2.1 apart
  have strict := ascends.sublist made.part
  have sorted : ((collected captured).mergeSort startsBefore).Pairwise
      fun t u => startsBefore t u = true := by
    refine List.pairwise_mergeSort (fun t u v => ?_) (fun t u => ?_) _
    · simpa [startsBefore] using Nat.le_trans
    · simpa [startsBefore] using Nat.le_total _ _
  have same := (List.mergeSort_perm _ startsBefore).trans (made.conserved spelled)
  refine same.eq_of_pairwise (fun t u member member' before after => ?_) sorted
    (strict.imp fun before => decide_eq_true (Nat.le_of_lt before))
  have starts : (kept.map fun t => t.span.start).Nodup :=
    List.pairwise_map.mpr (strict.imp Nat.ne_of_lt)
  exact List.inj_on_of_nodup_map starts (same.subset member) member'
    (Nat.le_antisymm (of_decide_eq_true before) (of_decide_eq_true after))

end Conservation

section Settled

variable {ts captured kept : List Token}

def Settled (ts : List Token) : Prop := ts.IsChain fun t u => t.isStub = true → groupKind? u = none

theorem settledCons {t : Token} :
    Settled (t :: ts) ↔ (t.isStub = true → NoGroup ts) ∧ Settled ts := by
  cases ts with
  | nil => simp [Settled, NoGroup]
  | cons u rest => simp [Settled, NoGroup]

theorem captureSettled (settled : Settled ts) : captureArguments ts = ts := by
  induction ts with
  | nil => rw [captureArguments]
  | cons t rest ih =>
      obtain ⟨alone, settled⟩ := settledCons.mp settled
      obtain ⟨kept, later⟩ := capturedExists rest
      rw [ih settled] at later
      exact (CapturedFrom.token alone later).right.symm

theorem CapturedFrom.front (made : CapturedFrom ts captured kept) (alone : NoGroup ts) :
    NoGroup captured := by
  cases made with
  | nothing => exact alone
  | token => exact alone
  | command => simp [NoGroup, groupKind?, Token.opens]

theorem CapturedFrom.settled (made : CapturedFrom ts captured kept)
    (spelled : ∀ t ∈ ts, Spelled t) : ∀ level ∈ levels captured, Settled level := by
  induction made with
  | nothing => simp [levels, inner, Settled]
  | @token t _ _ _ alone later ih =>
      obtain ⟨first, spelled⟩ := List.forall_mem_cons.mp spelled
      obtain ⟨here, deeper⟩ := List.forall_mem_cons.mp (ih spelled)
      cases t with
      | command => cases first
      | plain w place =>
          have here' := settledCons.mpr ⟨fun stub => later.front (alone stub), here⟩
          exact List.forall_mem_cons.mpr ⟨here', deeper⟩
  | @command name place written rest captured kept gs grouped _ _ _ held ih =>
      have spelled' := (List.forall_mem_cons.mp spelled).2
      obtain ⟨here, deeper⟩ :=
        List.forall_mem_cons.mp (ih fun t within => spelled' t (grouped.outside.subset within))
      have inside (kind : GroupKind) : ∀ level ∈ levelsOf (heldGroups kind gs), Settled level := by
        intro level member
        rw [levelsOfFlat] at member
        obtain ⟨captured, one, within⟩ := List.mem_flatMap.mp member
        obtain ⟨g, held', rfl⟩ := heldGroupsMember one
        exact held g held' (fun t within => spelled' t ((grouped.inside g held').subset within))
          level within
      refine List.forall_mem_cons.mpr ⟨settledCons.mpr ⟨nofun, here⟩, fun level member => ?_⟩
      rw [inner, Token.inner, List.mem_append, List.mem_append] at member
      obtain (required | optional) | later := member
      · exact inside .required level required
      · exact inside .optional level optional
      · exact deeper level later

/-- Capturing groups conserves the tokens of a text. All but the brackets around captured groups
are found again, each once, when the tokens at all levels are put in order; no stub has a group
right behind it; and there is nothing left to capture. -/
theorem captureConserves (text : String) :
    let named := namedTokens text
    let made := captureArguments named
    (∀ captured kept, CapturedFrom named captured kept
        ↔ captured = made ∧ kept = (collected made).mergeSort startsBefore) ∧
      (∀ level ∈ levels made, Settled level) ∧ captureArguments made = made := by
  intro named made
  obtain ⟨kept, whole⟩ := capturedExists named
  have spelled := namedTokensSpelled text
  have tiles : Tiles 0 named text.length := namedTiles text
  have settled := whole.settled spelled
  refine ⟨fun captured' kept' => ⟨fun whole' => ?_, ?_⟩, settled,
    captureSettled (settled made List.mem_cons_self)⟩
  · obtain rfl := whole'.right
    exact ⟨rfl, (whole'.ordered tiles spelled).symm⟩
  · rintro ⟨rfl, rfl⟩
    rwa [whole.ordered tiles spelled]

theorem unclosedGroupsConserved :
    let named := namedTokens "\\f\x7b\\g[1\x7d\x7b2"
    (∃ kept, CapturedFrom named (captureArguments named) kept ∧
        kept = [.plain (.stub "f") ⟨0, 2⟩, .plain (.stub "g") ⟨3, 5⟩, .plain (.number "1") ⟨6, 7⟩,
          .plain (.number "2") ⟨9, 10⟩]) ∧
      captureArguments (captureArguments named) = captureArguments named := by
  intro named
  obtain ⟨conserved, -, settled⟩ := captureConserves "\\f\x7b\\g[1\x7d\x7b2"
  exact ⟨⟨_, (conserved _ _).mpr ⟨rfl, rfl⟩, by cbv⟩, settled⟩

end Settled
end LiterateMath
