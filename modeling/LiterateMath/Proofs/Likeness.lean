import LiterateMath.Proofs.Seams

/-! Lists of tokens that differ in one place. Groups are captured from left to right, so what
comes of two such lists differs in that place, and in the groups that are open there. -/
namespace LiterateMath

section Balance

def groupStep (b : Bracket) (depth : Nat) (t : Token) : Option Nat :=
  if t.opens b then some (depth + 1)
  else if t.closes b then (if depth = 0 then none else some (depth - 1))
  else some depth

def groupDepthAfter (b : Bracket) (depth : Nat) (ts : List Token) : Option Nat :=
  ts.foldlM (groupStep b) depth

variable {b : Bracket} {as bs : List Token} {depth depth' : Nat}

theorem splitGroupCons (b : Bracket) (depth : Nat) (t : Token) (rest : List Token) :
    splitGroup b depth (t :: rest) =
      match groupStep b depth t with
      | none => ([], t :: rest)
      | some next => (t :: (splitGroup b next rest).1, (splitGroup b next rest).2) := by
  simp only [splitGroup, groupStep]
  split
  · rfl
  · split
    · cases depth <;> rfl
    · rfl

theorem splitGroupOver (within : groupDepthAfter b depth as = some depth') :
    splitGroup b depth (as ++ bs)
      = (as ++ (splitGroup b depth' bs).1, (splitGroup b depth' bs).2) := by
  induction as generalizing depth with
  | nil => cases within; rfl
  | cons t rest ih =>
      rw [groupDepthAfter, List.foldlM_cons] at within
      rw [List.cons_append, splitGroupCons]
      cases step : groupStep b depth t with
      | none => simp [step] at within
      | some next =>
          rw [step] at within
          simp only [ih within]
          rfl

theorem splitGroupEndless {inside : List Token} (endless : splitGroup b depth as = (inside, [])) :
    inside = as ∧ ∃ depth', groupDepthAfter b depth as = some depth' := by
  induction as generalizing depth inside with
  | nil => cases endless; exact ⟨rfl, depth, rfl⟩
  | cons t rest ih =>
      rw [splitGroupCons] at endless
      cases step : groupStep b depth t with
      | none => simp [step] at endless
      | some next =>
          simp only [step] at endless
          obtain ⟨rfl, nothing⟩ := Prod.mk.inj endless
          obtain ⟨whole, depth', within⟩ := ih (Prod.ext rfl nothing)
          refine ⟨congrArg (t :: ·) whole, depth', ?_⟩
          rw [groupDepthAfter, List.foldlM_cons, step]
          exact within

theorem splitGroupFirst {p : Token → Prop} (first : ∀ t ∈ as.head?, p t) :
    ∀ t ∈ (splitGroup b depth as).1.head?, p t := by
  cases as with
  | nil => exact first
  | cons t rest =>
      rw [splitGroupCons]
      cases groupStep b depth t with
      | none => simp
      | some next => simpa using first

theorem groupDepthRaised (more : Nat) (within : groupDepthAfter b depth as = some depth') :
    groupDepthAfter b (depth + more) as = some (depth' + more) := by
  induction as generalizing depth with
  | nil => cases within; rfl
  | cons t rest ih =>
      rw [groupDepthAfter, List.foldlM_cons] at within ⊢
      cases step : groupStep b depth t with
      | none => simp [step] at within
      | some next =>
          rw [step] at within
          have raised : groupStep b (depth + more) t = some (next + more) := by
            unfold groupStep at step ⊢
            grind
          rw [raised]
          exact ih within

theorem splitGroupMiddle {middle after : List Token}
    (within : groupDepthAfter b 0 as = some depth)
    (balanced : groupDepthAfter b 0 middle = some 0) :
    splitGroup b 0 (as ++ (middle ++ after))
      = (as ++ (middle ++ (splitGroup b depth after).1), (splitGroup b depth after).2) := by
  have level : groupDepthAfter b 0 (as ++ middle) = some depth := by
    have raised := groupDepthRaised depth balanced
    rw [Nat.zero_add] at raised
    rw [groupDepthAfter, List.foldlM_append]
    simp only [groupDepthAfter] at within raised
    rw [within]
    exact raised
  rw [← List.append_assoc, splitGroupOver level, List.append_assoc]

end Balance

section Standing

def commentAfter (inComment : Bool) (t : Token) : Bool :=
  if inComment && t.word? ≠ some .newline then true else t.word? = some .percent

theorem commentAfterMoved {r : Relocation} {m : Token → Token} (h : Moves r m) (inComment : Bool)
    (t : Token) : commentAfter inComment (m t) = commentAfter inComment t := by
  rw [commentAfter, commentAfter, h.tokenWord]

theorem commentAfterStub {t : Token} {name : String} (stub : t.word? = some (.stub name))
    (inComment : Bool) : commentAfter inComment t = inComment := by
  cases inComment <;> simp [commentAfter, stub]

theorem nextComment (s : Reader) (t : Token) :
    (s.next t).1.inComment = commentAfter s.inComment t := by
  obtain ⟨inComment, opened⟩ := s
  unfold Reader.next commentAfter
  split
  · rename_i unheard
    exact (Bool.and_eq_true _ _ ▸ unheard).1
  · split
    all_goals first | (split <;> simp_all [Reader.outside]) | simp_all [Reader.outside]

structure Standing where
  captures : Bool
  inComment : Bool

def Standing.after : Standing → List Token → Standing
  | s, [] => s
  | s, t :: rest =>
      match capturedKind? s.captures t with
      | none => after ⟨t.isStub, commentAfter s.inComment t⟩ rest
      | some kind =>
          let cut := splitGroup kind.bracket 0 rest
          if cut.2.isEmpty then after ⟨false, false⟩ cut.1
          else after ⟨true, s.inComment⟩ (cut.2.drop 1)
termination_by _ ts => ts.length
decreasing_by
  · simp
  · have := splitGroupLength kind.bracket 0 rest
    simp only [List.length_cons]
    omega
  · have := splitGroupLength kind.bracket 0 rest
    simp only [List.length_drop, List.length_cons]
    omega

end Standing

section Likeness

def commandOf (name : String) (place : Span) (groups : List Group) : Token :=
  withGroups name place (groups.map fun g => (g.kind, captureArguments g.inside))
    (groups.getLast?.map Group.last)

theorem commentAfterCommand (inComment : Bool) (name : String) (place : Span)
    (groups : List Group) : commentAfter inComment (commandOf name place groups) = inComment := by
  cases groups with
  | nil => exact commentAfterStub rfl inComment
  | cons => simp [commandOf, withGroups, commentAfter, List.getLast?_cons, Token.word?]

def capturedGroups (kind : GroupKind) (groups : List Group) : List (List Token) :=
  groupsOf kind (groups.map fun g => (g.kind, captureArguments g.inside))

/-- Relations of lists of tokens, within some number of open groups, and of groups, such that
lists with like groups in them are alike once the groups are captured. -/
structure Likeness where
  lists : (level : Nat) → (inComment : Bool) → List Token → List Token → Prop
  groups : (level : Nat) → Group → Group → Prop
  same (level : Nat) (inComment : Bool) (ts : List Token) : lists level inComment ts ts
  sameGroup (level : Nat) (g : Group) : groups level g g
  token {level : Nat} {inComment : Bool} {xs ys : List Token} (t : Token) :
    lists level (commentAfter inComment t) xs ys → lists level inComment (t :: xs) (t :: ys)
  command {level : Nat} {inComment : Bool} {gs hs : List Group} {xs ys : List Token}
    (name : String) (place : Span) :
    List.Forall₂ (groups level) gs hs → lists level inComment xs ys →
    lists level inComment (commandOf name place gs :: xs) (commandOf name place hs :: ys)
  group {level : Nat} {g h : Group} : g.kind = h.kind →
    lists level false (captureArguments g.inside) (captureArguments h.inside) →
    groups (level + 1) g h

namespace Likeness

def Captured (alike : Likeness) (level : Nat) : Standing → List Token → List Token → Prop
  | ⟨false, inComment⟩, xs, ys =>
      alike.lists level inComment (captureArguments xs) (captureArguments ys)
  | ⟨true, inComment⟩, xs, ys =>
      List.Forall₂ (alike.groups level) (takeGroups xs).1 (takeGroups ys).1
        ∧ alike.lists level inComment (captureArguments (takeGroups xs).2)
            (captureArguments (takeGroups ys).2)

variable {alike : Likeness} {level : Nat} {inComment : Bool} {xs ys : List Token}

theorem sameGroups (groups : List Group) : List.Forall₂ (alike.groups level) groups groups :=
  List.forall₂_same.mpr fun g _ => alike.sameGroup level g

theorem front (none : NoGroup xs) (none' : NoGroup ys)
    (later : alike.Captured level ⟨false, inComment⟩ xs ys) (captures : Bool) :
    alike.Captured level ⟨captures, inComment⟩ xs ys := by
  cases captures with
  | false => exact later
  | true =>
      rw [Captured, takeGroupsNone none, takeGroupsNone none']
      exact ⟨.nil, later⟩

theorem cons {t : Token}
    (later : alike.Captured level ⟨t.isStub, commentAfter inComment t⟩ xs ys) :
    alike.Captured level ⟨false, inComment⟩ (t :: xs) (t :: ys) := by
  rw [Captured]
  by_cases stub : ∃ name, t.word? = some (.stub name)
  · obtain ⟨name, word⟩ := stub
    have isStub : t.isStub = true := by rw [stubWord word]; rfl
    rw [isStub, commentAfterStub word] at later
    rw [stubWord word, captureStub, captureStub]
    exact alike.command name t.span later.1 later.2
  · have other (name : String) : t.word? ≠ some (.stub name) := fun word => stub ⟨name, word⟩
    rw [isStubOther other] at later
    rw [captureOther other, captureOther other]
    exact alike.token t later

theorem spread (middle middle' : List Token) (kept : List Token → Prop)
    {before after : List Token} {s : Standing} (balanced : ∀ kind ∈ openGroups s.captures before,
      groupDepthAfter kind.bracket 0 middle = some 0
        ∧ groupDepthAfter kind.bracket 0 middle' = some 0)
    (keptInside : ∀ b depth ts, kept ts → kept (splitGroup b depth ts).1)
    (there : ∀ after, kept after →
      alike.Captured 0 (s.after before) (middle ++ after) (middle' ++ after))
    (keeps : kept after) :
    alike.Captured (openGroups s.captures before).length s (before ++ (middle ++ after))
      (before ++ (middle' ++ after)) := by
  fun_induction Standing.after s before generalizing after with
  | case1 s =>
      rw [openGroups]
      exact there after keeps
  | case2 s t rest none ih =>
      rw [openGroups, none] at balanced ⊢
      have later := cons (ih balanced there keeps)
      obtain ⟨captures, inComment⟩ := s
      cases captures with
      | false => exact later
      | true =>
          have notGroup (ts : List Token) : NoGroup (t :: rest ++ ts) := by
            simpa [NoGroup, capturedKind?] using none
          exact front (notGroup _) (notGroup _) later true
  | case3 s t rest kind found cut endless =>
      rename_i ih
      obtain ⟨_ | _, inComment⟩ := s
      · cases found
      have runs : splitGroup kind.bracket 0 rest = (cut.1, []) :=
        Prod.ext rfl (List.isEmpty_iff.mp endless)
      rw [openGroupsOpen found runs] at balanced ⊢
      obtain ⟨whole, depth, within⟩ := splitGroupEndless runs
      obtain ⟨inner, inner'⟩ := balanced kind List.mem_cons_self
      have inside := ih (fun kind member => balanced kind (List.mem_cons_of_mem _ member)) there
        (keptInside kind.bracket depth after keeps)
      rw [whole] at inside ⊢
      rw [List.cons_append, List.cons_append, Captured, takeGroupsOpen found,
        takeGroupsOpen found, splitGroupMiddle within inner, splitGroupMiddle within inner']
      exact ⟨.cons (alike.group rfl inside) (sameGroups _), alike.same _ _ _⟩
  | case4 s t rest kind found cut closed =>
      rename_i ih
      obtain ⟨_ | _, inComment⟩ := s
      · cases found
      obtain ⟨closer, inner, rest'⟩ := List.exists_cons_of_ne_nil
        (fun nothing => closed (List.isEmpty_iff.mpr nothing))
      have partner : splitGroup kind.bracket 0 rest = (cut.1, closer :: inner) :=
        Prod.ext rfl rest'
      rw [openGroupsClosed found partner] at balanced ⊢
      rw [rest', List.drop_one, List.tail_cons] at there ih
      obtain ⟨groups, more⟩ := ih balanced there keeps
      rw [List.cons_append, List.cons_append, Captured,
        takeGroupsClosed found (splitGroupSeam partner),
        takeGroupsClosed found (splitGroupSeam partner)]
      exact ⟨.cons (alike.sameGroup _ _) groups, more⟩

end Likeness
end Likeness
end LiterateMath
