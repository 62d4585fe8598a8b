import LiterateMath.Proofs.Likeness
import LiterateMath.Report.Account

/-! Blanks. Spaces mean nothing to any pass over the tokens but the one that captures groups,
and the end of a line only ends a comment. What is left of the tokens without them, in captured
groups as well, is read as the same statements. -/
namespace LiterateMath

def isBlank (inComment : Bool) (t : Token) : Bool :=
  t.word? = some .space || t.word? = some .newline && !inComment

section Squeezed

mutual

def Token.squeezed : Token → Token
  | .plain w _ => .plain w ⟨0, 0⟩
  | .command name required optional _ =>
      .command name (squeezeGroups required) (squeezeGroups optional) ⟨0, 0⟩

def squeeze : (inComment : Bool) → List Token → List Token
  | _, [] => []
  | inComment, t :: rest =>
      if isBlank inComment t then squeeze inComment rest
      else t.squeezed :: squeeze (commentAfter inComment t) rest

def squeezeGroups : List (List Token) → List (List Token)
  | [] => []
  | g :: rest => squeeze false g :: squeezeGroups rest

end

theorem squeezeGroupsMap (groups : List (List Token)) :
    squeezeGroups groups = groups.map (squeeze false) := by
  induction groups with
  | nil => rfl
  | cons g rest ih => rw [squeezeGroups, ih, List.map_cons]

theorem squeezedMoves : Moves .forget Token.squeezed where
  word t := by cases t <;> rfl
  span t := by cases t <;> rfl

theorem isBlankMoved {r : Relocation} {m : Token → Token} (h : Moves r m) (inComment : Bool)
    (t : Token) : isBlank inComment (m t) = isBlank inComment t := by
  rw [isBlank, isBlank, h.tokenWord]

section Moved

variable {r : Relocation}

mutual

theorem Token.squeezedMoved : ∀ t : Token, (t.moved r).squeezed = t.squeezed
  | .plain .. => rfl
  | .command _ required optional _ => by
      simp only [Token.moved, Token.squeezed, squeezeGroupsMoved required,
        squeezeGroupsMoved optional]

theorem squeezeMoved : ∀ (inComment : Bool) (ts : List Token),
    squeeze inComment (movedTokens r ts) = squeeze inComment ts
  | _, [] => rfl
  | inComment, t :: rest => by
      simp only [movedTokens, squeeze, isBlankMoved (tokenMoves r),
        commentAfterMoved (tokenMoves r), Token.squeezedMoved t, squeezeMoved _ rest]

theorem squeezeGroupsMoved : ∀ groups : List (List Token),
    squeezeGroups (movedGroups r groups) = squeezeGroups groups
  | [] => rfl
  | g :: rest => by
      simp only [movedGroups, squeezeGroups, squeezeMoved false g, squeezeGroupsMoved rest]

end

end Moved

variable {inComment : Bool} {t : Token}

theorem blankWhitespace (blank : isBlank inComment t = true) : isWhitespace t = true := by
  simp only [isBlank, isWhitespace] at blank ⊢
  grind

theorem blankPlain (blank : isBlank inComment t = true) :
    ∃ w place, t = .plain w place ∧ (w = .space ∨ w = .newline) := by
  have white := blankWhitespace blank
  cases t with
  | plain w place => exact ⟨w, place, rfl, by simpa [isWhitespace, Token.word?] using white⟩
  | command => cases white

theorem commentAfterBlank (blank : isBlank inComment t = true) :
    commentAfter inComment t = inComment := by
  simp only [isBlank, commentAfter] at blank ⊢
  grind

theorem normalizeBlank (blank : isBlank inComment t = true) (ts : List Token) :
    normalize (t :: ts) = normalize ts := by
  simp [normalize, blankWhitespace blank]

theorem normalizeCons (t : Token) (ts : List Token) :
    normalize (t :: ts) = normalize [t] ++ normalize ts := normalizeAppend [t] ts

theorem normalizeSqueezed (inComment : Bool) (ts : List Token) :
    normalize (squeeze inComment ts) = (normalize ts).map Token.squeezed := by
  induction ts generalizing inComment with
  | nil => rfl
  | cons t rest ih =>
      rw [squeeze]
      split
      · rename_i blank
        rw [normalizeBlank blank, ih]
      · have first : normalize [t.squeezed] = (normalize [t]).map Token.squeezed :=
          normalizeMoved squeezedMoves [t]
        rw [normalizeCons, normalizeCons t, List.map_append, ih, first]

theorem dropCommentsCons (inComment : Bool) (t : Token) (rest : List Token) :
    dropComments inComment (t :: rest)
      = dropComments inComment [t] ++ dropComments (commentAfter inComment t) rest := by
  simp only [dropComments, commentAfter]
  split
  · rfl
  · split <;> simp_all

theorem dropCommentsSqueezed (inComment : Bool) (ts : List Token) :
    normalize (dropComments inComment (squeeze inComment ts))
      = (normalize (dropComments inComment ts)).map Token.squeezed := by
  induction ts generalizing inComment with
  | nil => rfl
  | cons t rest ih =>
      rw [squeeze, dropCommentsCons inComment t, normalizeAppend, List.map_append]
      split
      · rename_i blank
        have nothing : normalize (dropComments inComment [t]) = [] := by
          simp only [dropComments]
          split
          · rfl
          · split <;> first | rfl | exact normalizeBlank blank []
        rw [nothing, commentAfterBlank blank, ih]
        rfl
      · have first : dropComments inComment [t.squeezed]
            = (dropComments inComment [t]).map Token.squeezed :=
          dropCommentsMoved squeezedMoves inComment [t]
        rw [dropCommentsCons, normalizeAppend, commentAfterMoved squeezedMoves, ih, first,
          normalizeMoved squeezedMoves]

theorem squeezedKeepsCode : KeepsCode .forget Token.squeezed (squeeze false) where
  toMoves := squeezedMoves
  command name required optional place := by
    rw [Token.squeezed, squeezeGroupsMap, squeezeGroupsMap]
    rfl
  normal := normalizeSqueezed false
  code := dropCommentsSqueezed false

end Squeezed

section Captured

variable {inComment : Bool} {xs ys : List Token}

theorem squeezeCons {x y : Token} (same : x.squeezed = y.squeezed)
    (later : squeeze (commentAfter inComment x) xs = squeeze (commentAfter inComment x) ys) :
    squeeze inComment (x :: xs) = squeeze inComment (y :: ys) := by
  have blank : isBlank inComment x = isBlank inComment y := by
    rw [← isBlankMoved squeezedMoves, same, isBlankMoved squeezedMoves]
  have comment : commentAfter inComment x = commentAfter inComment y := by
    rw [← commentAfterMoved squeezedMoves, same, commentAfterMoved squeezedMoves]
  rw [squeeze, squeeze, ← blank, ← same, ← comment, ← later]
  split
  · rename_i blank
    rw [commentAfterBlank blank] at later
    exact later
  · rfl

def GroupSqueezed (g h : Group) : Prop :=
  g.kind = h.kind
    ∧ squeeze false (captureArguments g.inside) = squeeze false (captureArguments h.inside)
    ∧ nesting (captureArguments g.inside) = nesting (captureArguments h.inside)

theorem capturedGroupsSqueezed {gs hs : List Group} (kind : GroupKind)
    (same : List.Forall₂ GroupSqueezed gs hs) :
    squeezeGroups (capturedGroups kind gs) = squeezeGroups (capturedGroups kind hs)
      ∧ nestingGroups (capturedGroups kind gs) = nestingGroups (capturedGroups kind hs) := by
  induction same with
  | nil => exact ⟨rfl, rfl⟩
  | @cons g h gs hs first rest ih =>
      obtain ⟨same, squeezed, deep⟩ := first
      simp only [capturedGroups, groupsOf, List.map_cons, List.filter_cons, same] at ih ⊢
      split
      · simp only [List.map_cons, squeezeGroups, nestingGroups, squeezed, deep, ih, and_self]
      · exact ih

theorem commandSqueezed {gs hs : List Group} (name : String) (place : Span)
    (same : List.Forall₂ GroupSqueezed gs hs) :
    (commandOf name place gs).squeezed = (commandOf name place hs).squeezed
      ∧ (commandOf name place gs).nesting = (commandOf name place hs).nesting := by
  obtain ⟨required, requiredDeep⟩ := capturedGroupsSqueezed .required same
  obtain ⟨optional, optionalDeep⟩ := capturedGroupsSqueezed .optional same
  simp only [capturedGroups] at required requiredDeep optional optionalDeep
  cases same with
  | nil => exact ⟨rfl, rfl⟩
  | cons first rest =>
      simp only [commandOf, withGroups, List.getLast?_cons, Option.map_some, Token.squeezed,
        Token.nesting, required, requiredDeep, optional, optionalDeep, and_self]

def squeezing : Likeness where
  lists _ inComment xs ys := squeeze inComment xs = squeeze inComment ys ∧ nesting xs = nesting ys
  groups _ := GroupSqueezed
  same _ _ _ := ⟨rfl, rfl⟩
  sameGroup _ _ := ⟨rfl, rfl, rfl⟩
  token t later := ⟨squeezeCons rfl later.1, congrArg (max t.nesting) later.2⟩
  command name place groups later := by
    obtain ⟨squeezed, deep⟩ := commandSqueezed name place groups
    refine ⟨squeezeCons squeezed (by rw [commentAfterCommand, later.1]), ?_⟩
    rw [nesting, nesting, deep, later.2]
  group kind inside := ⟨kind, inside⟩

theorem blankFirst {blank : Token} {after : List Token} {s : Standing}
    (white : isBlank s.inComment blank = true) (apart : s.captures = true → NoGroup after) :
    squeezing.Captured 0 s after (blank :: after) := by
  obtain ⟨w, place, rfl, word⟩ := blankPlain white
  have noGroup : NoGroup (.plain w place :: after) := by
    rcases word with rfl | rfl <;> simp [NoGroup, groupKind?, Token.opens]
  have other (name : String) : (Token.plain w place).word? ≠ some (.stub name) := by
    rcases word with rfl | rfl <;> simp [Token.word?]
  have uncaptured : squeezing.Captured 0 ⟨false, s.inComment⟩ after (.plain w place :: after) := by
    rw [Likeness.Captured, captureOther other]
    exact ⟨by rw [squeeze, if_pos white], by rw [nesting, Token.nesting, Nat.zero_max]⟩
  obtain ⟨_ | _, inComment⟩ := s
  · exact uncaptured
  · exact Likeness.front (apart rfl) noGroup uncaptured true

theorem blankCaptured {before after : List Token} {blank : Token} {s : Standing}
    (white : isBlank (s.after before).inComment blank = true)
    (apart : (s.after before).captures = true → NoGroup after) :
    squeezing.Captured (openGroups s.captures before).length s (before ++ after)
      (before ++ blank :: after) := by
  have level (b : Bracket) : groupDepthAfter b 0 [blank] = some 0 := by
    obtain ⟨w, place, rfl, rfl | rfl⟩ := blankPlain white <;> rfl
  exact squeezing.spread [] [blank] (fun ts => (s.after before).captures = true → NoGroup ts)
    (fun kind _ => ⟨rfl, level kind.bracket⟩)
    (fun _ _ _ keeps captures => splitGroupFirst (keeps captures))
    (fun _ keeps => blankFirst white keeps) apart

end Captured

section Code

def Document.reading (d : Document) : Parsed (List Statement) :=
  Relocation.forget.outcome (List.map (Statement.moved .forget)) d.parse

theorem nextBlank {s : Reader} {t : Token} (blank : isBlank s.inComment t = true) :
    (s.next t).1 = s ∧ normalize (s.next t).2 = [] := by
  have white := blankWhitespace blank
  have goes := commentAfterBlank blank
  rw [← nextComment] at goes
  obtain ⟨inComment, opened⟩ := s
  unfold Reader.next at goes ⊢
  simp only [isWhitespace, Bool.or_eq_true, decide_eq_true_eq] at white
  rcases white with word | word
  · cases inComment <;> cases opened <;> simp_all [Reader.outside, normalize, isWhitespace]
  · cases inComment <;> cases opened <;> simp_all [Reader.outside, normalize, isWhitespace]

theorem filterSqueezed (s : Reader) (ts : List Token) :
    Relocation.forget.outcome (fun code => (normalize code).map Token.squeezed) (s.filter ts)
      = Relocation.forget.outcome normalize
          ((s.moved .forget).filter (squeeze s.inComment ts)) := by
  induction ts generalizing s with
  | nil =>
      rw [squeeze, filterNil, filterNil]
      cases s with
      | mk inComment opened => cases opened <;> rfl
  | cons t rest ih =>
      rw [squeeze, filterCons]
      split
      · rename_i blank
        obtain ⟨stays, nothing⟩ := nextBlank blank
        rw [stays, ← ih]
        cases s.filter rest with
        | error failure => rfl
        | ok code => simp [Except.map, normalizeAppend, nothing]
      · let kept := (normalize (s.next t).2).map Token.squeezed
        have before (x : Parsed (List Token)) :
            Relocation.forget.outcome (fun code => (normalize code).map Token.squeezed)
                (x.map ((s.next t).2 ++ ·))
              = (Relocation.forget.outcome (fun code => (normalize code).map Token.squeezed)
                  x).map (kept ++ ·) :=
          outcomeMap (fun code => by rw [normalizeAppend, List.map_append]) x
        have after (x : Parsed (List Token)) :
            Relocation.forget.outcome normalize (x.map ((s.next t).2.map Token.squeezed ++ ·))
              = (Relocation.forget.outcome normalize x).map (kept ++ ·) :=
          outcomeMap (fun code => by rw [normalizeAppend, normalizeMoved squeezedMoves]) x
        rw [filterCons, nextMoved squeezedMoves, ← nextComment, before, after, ih]

theorem readingSqueezed (d : Document) : d.reading =
    if groupDepth < nesting (captured d.text) then .error .tooDeep
    else Relocation.forget.outcome normalize
      (Reader.outside.filter (squeeze false (captured d.text)))
        >>= fun code => (slicesOf code).mapM parseStatement := by
  have statements (slices : List (List Token)) :
      (slices.map (List.map Token.squeezed)).mapM parseStatement
        = Relocation.forget.outcome (List.map (Statement.moved .forget))
            (slices.mapM parseStatement) :=
    outcomeMapM fun slice _ => parseStatementAlong squeezedKeepsCode slice
  have filtered := filterSqueezed .outside (captured d.text)
  rw [Document.reading, Document.parse, codeTokensCaptured]
  split
  · rfl
  · symm
    refine outcomeBind filtered.symm fun code _ => ?_
    rw [slicesOfMoved squeezedMoves, statements, ← slicesLooped]

end Code
end LiterateMath
