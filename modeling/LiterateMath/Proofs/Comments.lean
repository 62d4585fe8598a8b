import LiterateMath.Proofs.Likeness

/-! Comments within groups. Groups are captured before anything is known to be a comment, so
the brackets of a comment count; where they are balanced, what a comment says changes nothing
but the tokens of the comment itself. -/
namespace LiterateMath

section Quiet

mutual

/-- A token without its place, and without what the comments in its groups say. -/
def Token.quiet : Token → Token
  | .plain w _ => .plain w ⟨0, 0⟩
  | .command name required optional _ =>
      .command name (quietGroups required) (quietGroups optional) ⟨0, 0⟩

def quietTokens : (inComment : Bool) → List Token → List Token
  | _, [] => []
  | inComment, t :: rest =>
      if inComment && t.word? ≠ some .newline then quietTokens true rest
      else t.quiet :: quietTokens (t.word? = some .percent) rest

def quietGroups : List (List Token) → List (List Token)
  | [] => []
  | g :: rest => quietTokens false g :: quietGroups rest

end

theorem quietWord (t : Token) : t.quiet.word? = t.word? := by cases t <;> rfl

theorem quietSpan (t : Token) : t.quiet.span = ⟨0, 0⟩ := by cases t <;> rfl

variable {r : Relocation}

mutual

theorem Token.quietMoved : ∀ t : Token, (t.moved r).quiet = t.quiet
  | .plain .. => rfl
  | .command _ required optional _ => by
      simp only [Token.moved, Token.quiet, quietGroupsMoved required, quietGroupsMoved optional]

theorem quietMoved : ∀ (inComment : Bool) (ts : List Token),
    quietTokens inComment (movedTokens r ts) = quietTokens inComment ts
  | _, [] => rfl
  | inComment, t :: rest => by
      simp only [movedTokens, quietTokens, wordMoved, Token.quietMoved t, quietMoved _ rest]

theorem quietGroupsMoved : ∀ groups : List (List Token),
    quietGroups (movedGroups r groups) = quietGroups groups
  | [] => rfl
  | g :: rest => by
      simp only [movedGroups, quietGroups, quietMoved false g, quietGroupsMoved rest]

end

theorem quietMoves : Moves .forget Token.quiet := ⟨quietWord, quietSpan⟩

theorem filterQuiet (s : Reader) (ts : List Token) :
    Relocation.forget.outcome (List.map Token.quiet) (s.filter ts)
      = (s.moved .forget).filter (quietTokens s.inComment ts) := by
  induction ts generalizing s with
  | nil =>
      rw [quietTokens, filterNil, filterNil]
      cases s with
      | mk inComment opened => cases opened <;> rfl
  | cons t rest ih =>
      have comment := nextComment s t
      rw [filterCons, quietTokens]
      split
      · rename_i unheard
        have stays : s.next t = (s, []) := by rw [Reader.next, if_pos unheard]
        rw [stays, commentAfter, if_pos unheard] at comment
        rw [stays, ← comment, ← ih]
        cases s.filter rest <;> rfl
      · rename_i heard
        rw [commentAfter, if_neg heard] at comment
        rw [filterCons, nextMoved quietMoves, ← comment, ← ih]
        cases (s.next t).1.filter rest with
        | error failure => rfl
        | ok more => simp [Except.map]

end Quiet

section Words

theorem splitGroupRest (b : Bracket) (depth : Nat) (ts : List Token) :
    (splitGroup b depth ts).2 <:+ ts :=
  ⟨(splitGroup b depth ts).1, splitGroupAppend b depth ts⟩

theorem takeGroupsRest (ts : List Token) : (takeGroups ts).2 <:+ ts := by
  fun_induction takeGroups ts with
  | case1 => exact List.suffix_refl []
  | case2 t rest => exact List.suffix_refl _
  | case3 t rest kind found cut last more ih =>
      have after : cut.2.drop 1 <:+ rest :=
        (List.drop_suffix 1 cut.2).trans (splitGroupRest kind.bracket 0 rest)
      exact (ih.trans after).trans (List.suffix_cons t rest)

theorem captureWords {ts : List Token} {t : Token} {w : Word} (member : t ∈ captureArguments ts)
    (word : t.word? = some w) : ∃ t' ∈ ts, t'.word? = some w := by
  fun_induction captureArguments ts with
  | case1 => cases member
  | case2 name place rest taken groups ih ih' =>
      rcases List.mem_cons.mp member with rfl | later
      · refine ⟨.plain (.stub name) place, List.mem_cons_self, ?_⟩
        cases last : taken.1.getLast?.map Group.last with
        | none => simpa [last, withGroups] using word
        | some last' => simp [last, withGroups, Token.word?] at word
      · obtain ⟨t', member', word'⟩ := ih' later
        exact ⟨t', List.mem_cons_of_mem _ ((takeGroupsRest rest).mem member'), word'⟩
  | case3 t' rest other ih =>
      rcases List.mem_cons.mp member with rfl | later
      · exact ⟨t, List.mem_cons_self, word⟩
      · obtain ⟨t'', member', word'⟩ := ih later
        exact ⟨t'', List.mem_cons_of_mem _ member', word'⟩

end Words

section Unheard

structure Remark (kinds : List GroupKind) (ts : List Token) : Prop where
  line : ∀ t ∈ ts, t.word? ≠ some .newline
  closed : openGroups false ts = []
  balanced : ∀ kind ∈ kinds, groupDepthAfter kind.bracket 0 ts = some 0

def StartsLine (ts : List Token) : Prop := ∀ t ∈ ts.head?, t.word? = some .newline

theorem startsLineNoGroup {ts : List Token} (line : StartsLine ts) : NoGroup ts := by
  intro t first
  have word := line t first
  cases t with
  | plain w place =>
      cases word
      rfl
  | command => cases word

structure Alike (bound : Nat) (xs ys : List Token) : Prop where
  quiet : ∀ inComment, quietTokens inComment xs = quietTokens inComment ys
  nesting : nesting xs ≤ max (nesting ys) bound

variable {bound : Nat} {xs ys : List Token}

theorem alikeRefl (bound : Nat) (xs : List Token) : Alike bound xs xs :=
  ⟨fun _ => rfl, Nat.le_max_left _ _⟩

theorem alikeCons {x y : Token} (quiet : x.quiet = y.quiet)
    (deep : x.nesting ≤ max y.nesting bound) (rest : Alike bound xs ys) :
    Alike bound (x :: xs) (y :: ys) := by
  have word : x.word? = y.word? := by rw [← quietWord, quiet, quietWord]
  refine ⟨fun inComment => ?_, ?_⟩
  · rw [quietTokens, quietTokens, word, quiet, rest.quiet, rest.quiet]
  · have := rest.nesting
    simp only [LiterateMath.nesting]
    omega

def GroupAlike (bound : Nat) (g h : Group) : Prop :=
  g.kind = h.kind ∧ quietTokens false (captureArguments g.inside)
      = quietTokens false (captureArguments h.inside)
    ∧ 1 + nesting (captureArguments g.inside) ≤ max (1 + nesting (captureArguments h.inside)) bound

theorem groupAlikeRefl (bound : Nat) (g : Group) : GroupAlike bound g g :=
  ⟨rfl, rfl, Nat.le_max_left _ _⟩

theorem capturedGroupsAlike {gs hs : List Group} (kind : GroupKind)
    (alike : List.Forall₂ (GroupAlike bound) gs hs) :
    quietGroups (capturedGroups kind gs) = quietGroups (capturedGroups kind hs)
      ∧ 1 + nestingGroups (capturedGroups kind gs)
        ≤ max (1 + nestingGroups (capturedGroups kind hs)) bound := by
  induction alike with
  | nil => exact ⟨rfl, Nat.le_max_left _ _⟩
  | @cons g h gs hs first rest ih =>
      obtain ⟨same, quiet, deep⟩ := first
      obtain ⟨quiet', deep'⟩ := ih
      simp only [capturedGroups, groupsOf, List.map_cons, List.filter_cons, same] at quiet' deep' ⊢
      split
      · simp only [List.map_cons, quietGroups, nestingGroups, quiet, quiet', true_and]
        omega
      · exact ⟨quiet', deep'⟩

theorem commandAlike {gs hs : List Group} (alike : List.Forall₂ (GroupAlike bound) gs hs)
    (name : String) (place : Span) :
    (commandOf name place gs).quiet = (commandOf name place hs).quiet
      ∧ (commandOf name place gs).nesting ≤ max (commandOf name place hs).nesting bound := by
  obtain ⟨required, requiredDeep⟩ := capturedGroupsAlike .required alike
  obtain ⟨optional, optionalDeep⟩ := capturedGroupsAlike .optional alike
  simp only [capturedGroups] at required requiredDeep optional optionalDeep
  cases alike with
  | nil => exact ⟨rfl, Nat.le_max_left _ _⟩
  | cons first rest =>
      simp only [commandOf, withGroups, List.getLast?_cons, Option.map_some, Token.quiet,
        Token.nesting, required, optional, true_and]
      omega

def unheard (bound : Nat) : Likeness where
  lists level _ := Alike (level + bound)
  groups level := GroupAlike (level + bound)
  same level _ := alikeRefl (level + bound)
  sameGroup level := groupAlikeRefl (level + bound)
  token _ := alikeCons rfl (Nat.le_max_left _ _)
  command name place groups later :=
    alikeCons (commandAlike groups name place).1 (commandAlike groups name place).2 later
  group kind inside := ⟨kind, inside.quiet false, by have := inside.nesting; omega⟩

variable {remark remark' : List Token}

theorem quietRemark (line : ∀ t ∈ remark, t.word? ≠ some .newline) (after : List Token) :
    quietTokens true (remark ++ after) = quietTokens true after := by
  induction remark with
  | nil => rfl
  | cons t rest ih =>
      have first : t.word? ≠ some .newline := line t List.mem_cons_self
      rw [List.cons_append, quietTokens, if_pos (by simpa using first)]
      exact ih fun t' member => line t' (List.mem_cons_of_mem t member)

theorem remarkAlike (h : Remark [] remark) (h' : Remark [] remark') {after : List Token}
    (line : StartsLine after) (place : Span) :
    Alike (nesting (captureArguments remark))
      (captureArguments (.plain .percent place :: (remark ++ after)))
      (captureArguments (.plain .percent place :: (remark' ++ after))) := by
  have whole {kinds : List GroupKind} {remark : List Token} (h : Remark kinds remark) :
      captureArguments (.plain .percent place :: (remark ++ after))
        = .plain .percent place :: (captureArguments remark ++ captureArguments after) := by
    rw [captureOther (by simp [Token.word?]), captureSeam h.closed (startsLineNoGroup line)]
  have quiet {kinds : List GroupKind} {remark : List Token} (h : Remark kinds remark) :
      quietTokens true (captureArguments remark ++ captureArguments after)
        = quietTokens true (captureArguments after) := by
    refine quietRemark (fun t member word => ?_) _
    obtain ⟨t', member', word'⟩ := captureWords member word
    exact h.line t' member' word'
  rw [whole h, whole h']
  refine ⟨fun inComment => ?_, ?_⟩
  · simp only [quietTokens, Token.word?, decide_true, quiet h, quiet h']
  · simp only [nesting, Token.nesting, nestingAppend]
    omega

theorem remarkFewer {kinds fewer : List GroupKind} (h : Remark kinds remark)
    (part : ∀ kind ∈ fewer, kind ∈ kinds) : Remark fewer remark :=
  ⟨h.line, h.closed, fun kind member => h.balanced kind (part kind member)⟩

theorem remarkUnheard {before after : List Token} (h : Remark (openGroups false before) remark)
    (h' : Remark (openGroups false before) remark') (line : StartsLine after) (place : Span) :
    Alike ((openGroups false before).length + nesting (captureArguments remark))
      (captureArguments (before ++ .plain .percent place :: (remark ++ after)))
      (captureArguments (before ++ .plain .percent place :: (remark' ++ after))) := by
  have percent (ts : List Token) : NoGroup (.plain .percent place :: ts) := by
    simp [NoGroup, groupKind?, Token.opens]
  have level {remark : List Token} {kind : GroupKind}
      (within : groupDepthAfter kind.bracket 0 remark = some 0) :
      groupDepthAfter kind.bracket 0 (.plain .percent place :: remark) = some 0 := within
  refine (unheard (nesting (captureArguments remark))).spread (s := ⟨false, false⟩)
    (.plain .percent place :: remark) (.plain .percent place :: remark') StartsLine
    (fun kind member => ⟨level (h.balanced kind member), level (h'.balanced kind member)⟩)
    (fun _ _ _ => splitGroupFirst) (fun after line => ?_) line
  refine Likeness.front (percent _) (percent _) ?_ _
  have alike := remarkAlike (remarkFewer h (by simp)) (remarkFewer h' (by simp)) line place
  rwa [← Nat.zero_add (nesting (captureArguments remark))] at alike

end Unheard
end LiterateMath
