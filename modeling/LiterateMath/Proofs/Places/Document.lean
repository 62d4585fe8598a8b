import LiterateMath.Proofs.Places.Reading
import LiterateMath.Proofs.Regions
import LiterateMath.Proofs.Slicing

/-! The passes over a document do not look at places either: what they find in a text that
stands further on is the same, further on. -/
namespace LiterateMath

variable {r : Relocation}

section Characters

theorem lexFromFurther (place offset : Nat) (cs : List Char) :
    lexFrom (place + offset) cs = (lexFrom place cs).map (Token.moved (.shift offset)) := by
  fun_induction lexFrom place cs with
  | case1 => simp [lexFrom]
  | case2 place c rest taken stop ih =>
      have further : place + offset + 1 + (munch c rest).2 = stop + offset := by
        simp only [stop, taken]
        omega
      rw [lexFrom, List.map_cons, ← ih]
      simp only [further]
      rfl

theorem lexFromZero (place : Nat) (cs : List Char) :
    lexFrom place cs = (lexFrom 0 cs).map (Token.moved (.shift place)) := by
  rw [← lexFromFurther, Nat.zero_add]

end Characters

section Commands

theorem formStubsMoved (ts : List Token) :
    formStubs (ts.map (Token.moved r)) = (formStubs ts).map (Token.moved r) := by
  fun_induction formStubs ts with
  | case1 first name last rest ih =>
      simp only [List.map_cons, movedPlain, formStubs, ih, r.through]
  | case2 t rest other ih =>
      rw [List.map_cons, formStubs, ih, List.map_cons]
      intro first name last rest' same same'
      obtain ⟨_, rfl⟩ := plainOfMoved same
      obtain ⟨text, more, rfl, same', -⟩ := List.map_eq_cons_iff.mp same'
      obtain ⟨_, rfl⟩ := plainOfMoved same'
      exact other _ _ _ _ rfl rfl
  | case3 => rfl

theorem resolveNamesMoved (ts : List Token) :
    resolveNames (ts.map (Token.moved r)) = (resolveNames ts).map (Token.moved r) := by
  have each (t : Token) : resolveName (t.moved r) = (resolveName t).moved r := by
    cases t with
    | plain w place => cases w <;> rfl
    | command => simp [resolveName]
  simp [resolveNames, each]

theorem closesMoved (b : Bracket) (t : Token) : (t.moved r).closes b = t.closes b := by
  cases t with
  | plain w place => cases w <;> rfl
  | command => rfl

theorem groupKindMoved (t : Token) : groupKind? (t.moved r) = groupKind? t := by
  rw [groupKind?, groupKind?, opensMoved, opensMoved]

theorem splitGroupMoved (b : Bracket) (depth : Nat) (ts : List Token) :
    splitGroup b depth (ts.map (Token.moved r))
      = ((splitGroup b depth ts).1.map (Token.moved r),
          (splitGroup b depth ts).2.map (Token.moved r)) := by
  induction ts generalizing depth with
  | nil => rfl
  | cons t rest ih =>
      simp only [List.map_cons, splitGroup, opensMoved, closesMoved, ih]
      split
      · rfl
      · split
        · cases depth with
          | zero => rfl
          | succ depth => rfl
        · rfl

def Group.moved (r : Relocation) (g : Group) : Group :=
  ⟨g.kind, g.inside.map (Token.moved r), g.last.moved r⟩

theorem takeGroupsMoved (ts : List Token) :
    takeGroups (ts.map (Token.moved r))
      = ((takeGroups ts).1.map (Group.moved r), (takeGroups ts).2.map (Token.moved r)) := by
  fun_induction takeGroups ts with
  | case1 => simp [takeGroups]
  | case2 t rest none =>
      rw [List.map_cons, takeGroups, groupKindMoved, none]
      rfl
  | case3 t rest kind found cut last more ih =>
      have last' : ((splitGroup kind.bracket 0 rest).2.map (Token.moved r)).head?.getD
          (((splitGroup kind.bracket 0 rest).1.map (Token.moved r)).getLastD (t.moved r))
            = last.moved r := by
        simp only [last, cut]
        rw [List.head?_map, List.getLastD_map]
        cases (splitGroup kind.bracket 0 rest).2.head? <;> rfl
      rw [List.map_cons, takeGroups, groupKindMoved, found]
      simp only [splitGroupMoved, last', ← List.map_drop]
      rw [ih]
      rfl

theorem captureStub (name : String) (place : Span) (rest : List Token) :
    captureArguments (.plain (.stub name) place :: rest)
      = withGroups name place
          ((takeGroups rest).1.map fun g => (g.kind, captureArguments g.inside))
          ((takeGroups rest).1.getLast?.map Group.last)
        :: captureArguments (takeGroups rest).2 := by
  rw [captureArguments]
  simp

theorem captureOther {t : Token} (plain : ∀ name, t.word? ≠ some (.stub name))
    (rest : List Token) : captureArguments (t :: rest) = t :: captureArguments rest := by
  rw [captureArguments]
  rintro name place rfl
  exact plain name rfl

theorem groupsOfMoved (kind : GroupKind) (groups : List (GroupKind × List Token)) :
    groupsOf kind (groups.map fun g => (g.1, g.2.map (Token.moved r)))
      = (groupsOf kind groups).map (List.map (Token.moved r)) := by
  simp [groupsOf, List.filter_map, Function.comp_def]

theorem withGroupsMoved (name : String) (place : Span) (groups : List (GroupKind × List Token))
    (last : Option Token) :
    withGroups name (r.move place) (groups.map fun g => (g.1, g.2.map (Token.moved r)))
        (last.map (Token.moved r))
      = (withGroups name place groups last).moved r := by
  cases last with
  | none => rfl
  | some last => simp [withGroups, groupsOfMoved, r.through]

theorem captureArgumentsMoved (ts : List Token) :
    captureArguments (ts.map (Token.moved r)) = (captureArguments ts).map (Token.moved r) := by
  fun_induction captureArguments ts with
  | case1 => simp [captureArguments]
  | case2 name place rest taken groups ih ih' =>
      have whole : groups = taken.1.map fun g => (g.kind, captureArguments g.inside) := by
        simp [groups]
      have inner : taken.1.map (fun g => (g.kind,
          captureArguments (g.inside.map (Token.moved r))))
            = groups.map fun g => (g.1, g.2.map (Token.moved r)) := by
        rw [whole, List.map_map]
        exact List.map_congr_left fun g member => by simp [ih ⟨g, member⟩]
      have last : ((taken.1.map (Group.moved r)).getLast?.map Group.last)
          = (taken.1.getLast?.map Group.last).map (Token.moved r) := by
        rw [List.getLast?_map, Option.map_map, Option.map_map]
        rfl
      rw [List.map_cons, movedPlain, captureStub, takeGroupsMoved, last, ih', List.map_map]
      exact congrArg (· :: _) ((congrArg (withGroups name (r.move place) · _) inner).trans
        (withGroupsMoved name place groups _))
  | case3 t rest plain ih =>
      rw [List.map_cons, captureOther (fun name stub => ?_), ih]
      · rfl
      · cases t with
        | plain w place =>
            cases stub
            exact plain name place rfl
        | command => simp [Token.word?] at stub

mutual

theorem Token.nestingMoved : ∀ t : Token, (t.moved r).nesting = t.nesting
  | .plain .. => rfl
  | .command _ required optional _ => by
      simp only [Token.moved, Token.nesting, nestingGroupsMoved required,
        nestingGroupsMoved optional]

theorem nestingMoved : ∀ ts : List Token, nesting (movedTokens r ts) = nesting ts
  | [] => rfl
  | t :: rest => by
      simp only [movedTokens, nesting, Token.nestingMoved t, nestingMoved rest]

theorem nestingGroupsMoved : ∀ groups : List (List Token),
    nestingGroups (movedGroups r groups) = nestingGroups groups
  | [] => rfl
  | g :: rest => by
      simp only [movedGroups, nestingGroups, nestingMoved g, nestingGroupsMoved rest]

end

end Commands

section Code

def Reader.moved (r : Relocation) (s : Reader) : Reader :=
  ⟨s.inComment, s.opened.map fun o => (o.1, r.move o.2)⟩

theorem nextMoved {m : Token → Token} (h : Moves r m) (s : Reader) (t : Token) :
    (s.moved r).next (m t) = ((s.next t).1.moved r, (s.next t).2.map m) := by
  obtain ⟨inComment, opened⟩ := s
  unfold Reader.next
  simp only [Reader.moved, h.tokenWord, h.tokenSpan]
  split
  · rfl
  · cases opened with
    | none =>
        cases t.word? with
        | none => rfl
        | some w => cases w <;> rfl
    | some o =>
        cases t.word? with
        | none => rfl
        | some w =>
            cases w with
            | regionClosing region =>
                simp only [Option.map_some]
                split
                · simp [h.plain, Reader.outside]
                · rfl
            | _ => rfl

theorem filterMoved (s : Reader) (ts : List Token) :
    (s.moved r).filter (ts.map (Token.moved r))
      = r.outcome (List.map (Token.moved r)) (s.filter ts) := by
  induction ts generalizing s with
  | nil =>
      rw [List.map_nil, filterNil, filterNil]
      cases s with
      | mk inComment opened => cases opened <;> rfl
  | cons t rest ih =>
      rw [List.map_cons, filterCons, filterCons, nextMoved (tokenMoves r), ih]
      cases (s.next t).1.filter rest with
      | error failure => rfl
      | ok more => simp [Except.map]

theorem splitRegionsMoved {m : Token → Token} (h : Moves r m) (ts : List Token) :
    splitRegions (ts.map m) = (splitRegions ts).map (List.map m) := by
  induction ts with
  | nil => rfl
  | cons t rest ih =>
      rw [List.map_cons, splitRegions, splitRegions, h.tokenWord, ih]
      split
      · rfl
      · cases splitRegions rest <;> rfl

theorem slicesOfMoved {m : Token → Token} (h : Moves r m) (ts : List Token) :
    slicesOf (ts.map m) = (slicesOf ts).map (List.map m) := by
  simp only [slicesOf, splitRegionsMoved h, List.flatMap_map, splitTopMoved h,
    ← List.map_flatMap, List.filter_map, Function.comp_def, List.isEmpty_map]

theorem intoSlicesMoved (ts : List Token) :
    intoSlices (ts.map (Token.moved r)) = (intoSlices ts).map (List.map (Token.moved r)) := by
  rw [slicesLooped, normalizeMoved (tokenMoves r), slicesOfMoved (tokenMoves r), ← slicesLooped]

end Code
end LiterateMath
