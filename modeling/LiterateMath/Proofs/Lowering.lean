import LiterateMath.Proofs.Passes

/-! Commands spelled out. What is put in for a fraction or a root is its groups, each spelled out
by itself, in parentheses with a sign between them. -/
namespace LiterateMath

theorem lowerOk {limit : Nat} {ts lowered : List Token} :
    lowerCommands (limit + 1) ts = .ok lowered ↔
      ∃ parts, ts.mapM (lowerToken fun inside => lowerCommands limit (groupCode inside))
        = .ok parts ∧ lowered = parts.flatten := by
  have unfolded : lowerCommands (limit + 1) ts = do
      let parts ← ts.mapM (lowerToken fun inside => lowerCommands limit (groupCode inside))
      return parts.flatten := rfl
  rw [unfolded, bindIsOk]
  constructor
  · rintro ⟨parts, read, same⟩
    cases same
    exact ⟨parts, read, rfl⟩
  · rintro ⟨parts, read, rfl⟩
    exact ⟨parts, read, rfl⟩

theorem lowerAppend {limit : Nat} {xs ys lowered : List Token} :
    lowerCommands limit (xs ++ ys) = .ok lowered ↔
      ∃ as bs, lowerCommands limit xs = .ok as ∧ lowerCommands limit ys = .ok bs ∧
        lowered = as ++ bs := by
  cases limit with
  | zero => simp [lowerCommands]
  | succ limit =>
      simp only [lowerOk, List.mapM_append]
      constructor
      · rintro ⟨parts, read, rfl⟩
        obtain ⟨first, before, read⟩ := bindIsOk.mp read
        obtain ⟨second, after, same⟩ := bindIsOk.mp read
        cases same
        exact ⟨_, _, ⟨first, before, rfl⟩, ⟨second, after, rfl⟩, by simp⟩
      · rintro ⟨_, _, ⟨first, before, rfl⟩, ⟨second, after, rfl⟩, rfl⟩
        exact ⟨first ++ second, by rw [before, bindOk, after]; rfl, by simp⟩

theorem lowerCons {limit : Nat} {t : Token} {ts lowered : List Token} :
    lowerCommands limit (t :: ts) = .ok lowered ↔
      ∃ as bs, lowerCommands limit [t] = .ok as ∧ lowerCommands limit ts = .ok bs ∧
        lowered = as ++ bs := @lowerAppend limit [t] ts lowered

theorem lowerPlain {w : Word} {place : Span} (h : isSizing (.plain w place) = false)
    (limit : Nat) : lowerCommands (limit + 1) [.plain w place] = .ok [.plain w place] := by
  simp [lowerCommands, lowerToken, h]

def Token.spelledOut (t : Token) : Bool := t.word?.isSome && !isSizing t

theorem lowerSpelledOut {ts : List Token} (h : ∀ t ∈ ts, t.spelledOut = true) (limit : Nat) :
    lowerCommands (limit + 1) ts = .ok ts := by
  induction ts with
  | nil => rfl
  | cons t rest ih =>
      have first := h t List.mem_cons_self
      have later := ih fun t' member => h t' (List.mem_cons_of_mem _ member)
      cases t with
      | command => cases first
      | plain w place =>
          have unsized : isSizing (.plain w place) = false := by
            simpa [Token.spelledOut, Token.word?] using first
          exact lowerCons.mpr ⟨_, _, lowerPlain unsized limit, later, rfl⟩

theorem lowerTokenMore {lower lower' : List Token → Parsed (List Token)}
    (more : ∀ inside out, lower inside = .ok out → lower' inside = .ok out) {t : Token}
    {out : List Token} (h : lowerToken lower t = .ok out) : lowerToken lower' t = .ok out := by
  cases t with
  | plain w place => exact h
  | command name required optional place =>
      simp only [lowerToken] at h ⊢
      split at h
      · rename_i isFrac
        rw [if_pos isFrac]
        split at h
        · obtain ⟨a, first, h⟩ := bindIsOk.mp h
          obtain ⟨b, second, same⟩ := bindIsOk.mp h
          cases same
          simp [more _ _ first, more _ _ second]
        · cases h
      · rename_i notFrac
        rw [if_neg notFrac]
        split at h
        · rename_i isSqrt
          rw [if_pos isSqrt]
          split at h
          · obtain ⟨a, first, same⟩ := bindIsOk.mp h
            cases same
            simp [more _ _ first]
          · obtain ⟨a, first, h⟩ := bindIsOk.mp h
            obtain ⟨b, second, same⟩ := bindIsOk.mp h
            cases same
            simp [more _ _ first, more _ _ second]
          · cases h
        · cases h

theorem lowerNext {limit : Nat} {ts lowered : List Token}
    (h : lowerCommands limit ts = .ok lowered) : lowerCommands (limit + 1) ts = .ok lowered := by
  induction limit generalizing ts lowered with
  | zero => cases h
  | succ limit ih =>
      obtain ⟨parts, read, rfl⟩ := lowerOk.mp h
      refine lowerOk.mpr ⟨parts, ?_, rfl⟩
      clear h
      induction ts generalizing parts with
      | nil => exact read
      | cons t rest more =>
          rw [List.mapM_cons] at read ⊢
          obtain ⟨first, spelled, read⟩ := bindIsOk.mp read
          obtain ⟨others, later, same⟩ := bindIsOk.mp read
          cases same
          rw [lowerTokenMore (fun _ _ => ih) spelled, bindOk, more others later]
          rfl

theorem lowerParenthesized {limit : Nat} {place : Span} {ts lowered : List Token}
    (h : lowerCommands (limit + 1) ts = .ok lowered) :
    lowerCommands (limit + 1) (parenthesized place ts) = .ok (parenthesized place lowered) := by
  have opener := @lowerPlain (.opening .paren) place rfl limit
  have closer := @lowerPlain (.closing .paren) place rfl limit
  exact lowerAppend.mpr ⟨_, _, lowerAppend.mpr ⟨_, _, opener, h, rfl⟩, closer, rfl⟩

theorem lowerQuotient {limit : Nat} {place : Span} {sign : Sign}
    {first second as bs : List Token} (h : lowerCommands (limit + 1) first = .ok as)
    (h' : lowerCommands (limit + 1) second = .ok bs) :
    lowerCommands (limit + 1) (quotient place sign first second)
      = .ok (quotient place sign as bs) := by
  have between := @lowerPlain (.sign sign) place rfl limit
  exact lowerAppend.mpr ⟨_, _, lowerParenthesized h,
    lowerAppend.mpr ⟨_, _, between, lowerParenthesized h', rfl⟩, rfl⟩

theorem toPiecesOk {ts : List Token} {ps : List Piece} : toPieces ts = .ok ps ↔
    ∃ lowered, lowerCommands spelledDepth ts = .ok lowered ∧ named lowered = .ok ps := bindIsOk

theorem spelledLimit : ∃ limit, spelledDepth = limit + 1 := ⟨491, rfl⟩

theorem toPiecesNothing : toPieces [] = .ok [] := by
  obtain ⟨limit, depth⟩ := spelledLimit
  refine toPiecesOk.mpr ⟨[], ?_, namedNothing⟩
  rw [depth]
  rfl

theorem toPiecesSeparated {w : Word} {place : Span} (separates : w.separates = true)
    (unsized : isSizing (.plain w place) = false) {xs ys : List Token} {ps : List Piece} :
    toPieces (xs ++ .plain w place :: ys) = .ok ps ↔
      ∃ as bs, toPieces xs = .ok as ∧ toPieces ys = .ok bs ∧
        ps = as ++ .token (.plain w place) :: bs := by
  obtain ⟨limit, depth⟩ := spelledLimit
  have itself : lowerCommands spelledDepth [.plain w place] = .ok [.plain w place] := by
    rw [depth]
    exact lowerPlain unsized limit
  simp only [toPiecesOk]
  constructor
  · rintro ⟨lowered, spelled, read⟩
    obtain ⟨as, rest, before, later, rfl⟩ := lowerAppend.mp spelled
    obtain ⟨_, bs, single, after, rfl⟩ := lowerCons.mp later
    obtain rfl := Except.ok.inj (itself.symm.trans single)
    obtain ⟨ps, qs, first, second, rfl⟩ := (namedSeparated separates).mp read
    exact ⟨ps, qs, ⟨as, before, first⟩, ⟨bs, after, second⟩, rfl⟩
  · rintro ⟨ps, qs, ⟨as, before, first⟩, ⟨bs, after, second⟩, rfl⟩
    exact ⟨_, lowerAppend.mpr ⟨as, _, before, lowerCons.mpr ⟨_, bs, itself, after, rfl⟩, rfl⟩,
      (namedSeparated separates).mpr ⟨ps, qs, first, second, rfl⟩⟩

theorem toPiecesKeyword {t : Token} {k : Keyword} (h : t.word? = some (.keyword k))
    {xs ys : List Token} {ps : List Piece} : toPieces (xs ++ t :: ys) = .ok ps ↔
      ∃ as bs, toPieces xs = .ok as ∧ toPieces ys = .ok bs ∧ ps = as ++ .token t :: bs := by
  cases t with
  | command => cases h
  | plain w place =>
      cases h
      exact toPiecesSeparated rfl rfl

def overIndex (place : Span) (index : List Token) : List Token :=
  .plain (.real 1.0) place :: .plain (.sign .slash) place :: parenthesized place index

def Token.quotient? : Token → Option (Sign × List Token × List Token)
  | .command "frac" [numerator, denominator] [] _ =>
      some (.slash, groupCode numerator, groupCode denominator)
  | .command "sqrt" [radicand] [] place =>
      some (.caret, groupCode radicand, overIndex place [.plain (.number "2") place])
  | .command "sqrt" [radicand] [index] place =>
      some (.caret, groupCode radicand, overIndex place (groupCode index))
  | _ => none

theorem lowerOverIndex {limit : Nat} {place : Span} {index lowered : List Token}
    (h : lowerCommands (limit + 1) index = .ok lowered) :
    lowerCommands (limit + 1) (overIndex place index) = .ok (overIndex place lowered) := by
  have one := @lowerPlain (.real 1.0) place rfl limit
  have slash := @lowerPlain (.sign .slash) place rfl limit
  exact lowerAppend.mpr ⟨_, _, one,
    lowerAppend.mpr ⟨_, _, slash, lowerParenthesized h, rfl⟩, rfl⟩

theorem lowerCommand {limit : Nat} {t : Token} {sign : Sign} {first second lowered : List Token}
    (sides : t.quotient? = some (sign, first, second))
    (h : lowerCommands (limit + 1) [t] = .ok lowered) :
    ∃ as bs, lowerCommands (limit + 1) first = .ok as ∧ lowerCommands (limit + 1) second = .ok bs ∧
      lowered = quotient t.span sign as bs := by
  obtain ⟨parts, read, rfl⟩ := lowerOk.mp h
  rw [List.mapM_cons, List.mapM_nil] at read
  obtain ⟨part, spelled, read⟩ := bindIsOk.mp read
  obtain ⟨others, later, same⟩ := bindIsOk.mp read
  cases later
  cases same
  unfold Token.quotient? at sides
  split at sides
  · rename_i numerator denominator place
    cases sides
    obtain ⟨a, above, spelled⟩ := bindIsOk.mp spelled
    obtain ⟨b, below, same⟩ := bindIsOk.mp spelled
    cases same
    exact ⟨a, b, lowerNext above, lowerNext below, by simp [fraction, quotient, Token.span]⟩
  · rename_i radicand place
    cases sides
    obtain ⟨a, above, same⟩ := bindIsOk.mp spelled
    cases same
    exact ⟨a, _, lowerNext above, lowerOverIndex (lowerPlain rfl limit), by
      simp [root, quotient, overIndex, Token.span]⟩
  · rename_i radicand index place
    cases sides
    obtain ⟨n, exponent, spelled⟩ := bindIsOk.mp spelled
    obtain ⟨a, above, same⟩ := bindIsOk.mp spelled
    cases same
    exact ⟨a, _, lowerNext above, lowerOverIndex (lowerNext exponent), by
      simp [root, quotient, overIndex, Token.span]⟩
  · cases sides

theorem namedOverIndex {place : Span} {index : List Token} {ps : List Piece}
    (h : named index = .ok ps) : named (overIndex place index)
      = .ok (.token (.plain (.real 1.0) place) :: .token (.plain (.sign .slash) place)
        :: bracketed place ps) := by
  have group : named ([] ++ parenthesized place index ++ []) = .ok _ :=
    namedParenthesized.mpr ⟨[], ps, [], namedNothing, h, namedNothing, rfl⟩
  rw [List.append_nil, List.append_nil, List.nil_append, List.nil_append] at group
  have slash : named ([] ++ .plain (.sign .slash) place :: parenthesized place index) = .ok _ :=
    (namedSeparated rfl).mpr ⟨[], _, namedNothing, group, rfl⟩
  exact (namedSeparated rfl).mpr ⟨[], _, namedNothing, slash, rfl⟩

theorem toPiecesOverIndex {place : Span} {index : List Token} {ps : List Piece}
    (h : toPieces index = .ok ps) : toPieces (overIndex place index)
      = .ok (.token (.plain (.real 1.0) place) :: .token (.plain (.sign .slash) place)
        :: bracketed place ps) := by
  obtain ⟨lowered, spelled, read⟩ := toPiecesOk.mp h
  obtain ⟨limit, depth⟩ := spelledLimit
  rw [depth] at spelled
  refine toPiecesOk.mpr ⟨overIndex place lowered, ?_, namedOverIndex read⟩
  rw [depth]
  exact lowerOverIndex spelled

structure Wraps (t : Token) (ts : List Token) : Prop where
  spelled {lowered : List Token} : lowerCommands spelledDepth [t] = .ok lowered →
    lowerCommands spelledDepth ts = .ok (parenthesized t.span lowered)
  opens : ∃ rest, ts = .plain (.opening .paren) t.span :: rest
  closes : ts.getLast?.map Token.span = some t.span

theorem parenthesizedLast (place : Span) (ts : List Token) :
    (parenthesized place ts).getLast? = some (.plain (.closing .paren) place) := by
  rw [parenthesized, List.getLast?_append]
  rfl

theorem wholeParenthesized {place : Span} {ts : List Token} (h : Whole ts) :
    Whole (parenthesized place ts) := by
  have closer : Whole [Token.plain (.closing .paren) place] :=
    .cons (fun k word => by cases word) .nil
  exact .cons (fun k word => by cases word) (h.append closer)

theorem wholeQuotient {place : Span} {sign : Sign} {first second : List Token} (h : Whole first)
    (h' : Whole second) : Whole (quotient place sign first second) :=
  (wholeParenthesized h).append (.cons (fun k word => by cases word) (wholeParenthesized h'))

theorem quotientWordless {t : Token} {sides : Sign × List Token × List Token}
    (h : t.quotient? = some sides) : t.word? = none := by
  cases t with
  | plain w place => cases h
  | command => rfl

theorem wrapsItself (t : Token) : Wraps t (parenthesized t.span [t]) where
  spelled := by
    obtain ⟨limit, depth⟩ := spelledLimit
    rw [depth]
    exact lowerParenthesized
  opens := ⟨_, rfl⟩
  closes := by
    rw [parenthesizedLast]
    rfl

theorem wrapsSides {t : Token} {sign : Sign} {first second : List Token}
    (sides : t.quotient? = some (sign, first, second)) :
    Wraps t (parenthesized t.span (quotient t.span sign first second)) where
  spelled := by
    intro lowered
    obtain ⟨limit, depth⟩ := spelledLimit
    rw [depth]
    intro spelled
    obtain ⟨as, bs, left, right, rfl⟩ := lowerCommand sides spelled
    exact lowerParenthesized (lowerQuotient left right)
  opens := ⟨_, rfl⟩
  closes := by
    rw [parenthesizedLast]
    rfl

theorem toPiecesCommand {t : Token} {sign : Sign} {first second before after : List Token}
    (sides : t.quotient? = some (sign, first, second)) {ps : List Piece}
    (h : toPieces (before ++ t :: after) = .ok ps) :
    ∃ xs cs ds ys, toPieces before = .ok xs ∧ toPieces first = .ok cs ∧ toPieces second = .ok ds ∧
      toPieces after = .ok ys ∧ ps = xs ++ spliced t.span sign cs ds ++ ys ∧
      ∀ ts, Wraps t ts → toPieces (before ++ ts ++ after)
        = .ok (xs ++ bracketed t.span (spliced t.span sign cs ds) ++ ys) := by
  obtain ⟨lowered, spelled, read⟩ := toPiecesOk.mp h
  obtain ⟨as, rest, front, later, rfl⟩ := lowerAppend.mp spelled
  obtain ⟨middle, bs, single, back, rfl⟩ := lowerCons.mp later
  obtain ⟨limit, depth⟩ := spelledLimit
  obtain ⟨c, d, left, right, rfl⟩ := lowerCommand sides (depth ▸ single)
  rw [← depth] at left right
  obtain ⟨xs, cs, ds, ys, onLeft, inFirst, inSecond, onRight, rfl⟩ :=
    namedQuotient.mp ((List.append_assoc as _ bs).symm ▸ read)
  refine ⟨xs, cs, ds, ys, toPiecesOk.mpr ⟨as, front, onLeft⟩, toPiecesOk.mpr ⟨c, left, inFirst⟩,
    toPiecesOk.mpr ⟨d, right, inSecond⟩, toPiecesOk.mpr ⟨bs, back, onRight⟩, rfl, ?_⟩
  intro ts wraps
  have whole := lowerAppend.mpr ⟨_, bs, lowerAppend.mpr ⟨as, _, front, wraps.spelled single, rfl⟩,
    back, rfl⟩
  have inner : named ([] ++ quotient t.span sign c d ++ []) = .ok _ :=
    namedQuotient.mpr ⟨[], cs, ds, [], namedNothing, inFirst, inSecond, namedNothing, rfl⟩
  rw [List.append_nil, List.append_nil, List.nil_append, List.nil_append] at inner
  exact toPiecesOk.mpr ⟨_, whole, namedParenthesized.mpr ⟨xs, _, ys, onLeft, inner, onRight, rfl⟩⟩

end LiterateMath
