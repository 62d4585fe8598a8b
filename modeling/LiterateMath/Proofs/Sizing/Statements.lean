import LiterateMath.Proofs.Extracts
import LiterateMath.Proofs.Markers
import LiterateMath.Proofs.Sizing.Passes

/-! Statements with sizing words in their values. What a captured token holds stands within the
token, so the words that stand within one place are in one value, and all else in the slices is as
it was. -/
namespace LiterateMath

section Containing

variable {ts rest captured kept : List Token} {gs : List WrittenGroup} {lo hi : Nat}

theorem Grouped.tiles (grouped : Grouped ts gs rest) (tiles : Tiles lo ts hi) :
    ∃ mid, lo ≤ mid ∧ Tiles mid rest hi ∧
      (∀ g ∈ gs, ∃ lo' hi', lo ≤ lo' ∧ Tiles lo' g.inside hi' ∧ hi' ≤ mid) ∧
      (gs.getLast?.map fun g => g.group.last.span.stop).getD lo = mid := by
  induction grouped generalizing lo with
  | none => exact ⟨lo, Nat.le_refl lo, tiles, by simp, rfl⟩
  | @closed kind opener closer inside after captured kept rest gs _ _ _ _ ih =>
      obtain ⟨start, long, tiles⟩ := tiles
      obtain ⟨reach, within, starts, long', beyond⟩ := tilesAppend.mp tiles
      obtain ⟨mid, further, later, groups, last⟩ := ih beyond
      have forward := within.forward
      refine ⟨mid, by omega, later, List.forall_mem_cons.mpr ⟨?_, fun g member => ?_⟩, ?_⟩
      · exact ⟨opener.span.stop, reach, by omega, within, by omega⟩
      · obtain ⟨lo', hi', before, inside, behind⟩ := groups g member
        exact ⟨lo', hi', by omega, inside, behind⟩
      · rw [← last, List.getLast?_cons]
        cases gs.getLast? <;> rfl
  | @unclosed kind opener inside captured kept =>
      obtain ⟨start, long, tiles⟩ := tiles
      have forward := tiles.forward
      have last : (inside.getLastD opener).span.stop = hi := Tiles.last ⟨start, long, tiles⟩
      refine ⟨hi, by omega, rfl, List.forall_mem_singleton.mpr ?_, last⟩
      exact ⟨opener.span.stop, hi, by omega, tiles, Nat.le_refl hi⟩

theorem innerMember {level : List Token} : level ∈ inner ts ↔ ∃ t ∈ ts, level ∈ t.inner := by
  induction ts with
  | nil => simp [inner]
  | cons t rest ih => simp [inner, ih]

def Contains (t : Token) : Prop :=
  ∀ level ∈ [t] :: t.inner, ∀ u ∈ level,
    t.span.start ≤ u.span.start ∧ u.span.start < u.span.stop ∧ u.span.stop ≤ t.span.stop

theorem containsPlain {w : Word} {place : Span} (long : place.start < place.stop) :
    Contains (.plain w place) := by
  intro level member u inside
  obtain rfl : level = [.plain w place] := by simpa [Token.inner] using member
  obtain rfl := List.mem_singleton.mp inside
  exact ⟨Nat.le_refl _, long, Nat.le_refl _⟩

theorem levelsWithin (contains : ∀ t ∈ ts, Contains t) (tiles : Tiles lo ts hi) :
    ∀ level ∈ levels ts, ∀ u ∈ level,
      lo ≤ u.span.start ∧ u.span.start < u.span.stop ∧ u.span.stop ≤ hi := by
  intro level member u inside
  rcases List.mem_cons.mp member with rfl | deeper
  · exact tiles.within inside
  · obtain ⟨t, here, held⟩ := innerMember.mp deeper
    have within := contains t here level (List.mem_cons_of_mem _ held) u inside
    have around := tiles.within here
    omega

theorem CapturedFrom.contains (made : CapturedFrom ts captured kept) (tiles : Tiles lo ts hi)
    (spelled : ∀ t ∈ ts, Spelled t) : ∀ t ∈ captured, Contains t := by
  induction made generalizing lo hi with
  | nothing => simp
  | @token t _ _ _ _ _ ih =>
      obtain ⟨first, spelled⟩ := List.forall_mem_cons.mp spelled
      obtain ⟨start, long, later⟩ := tiles
      refine List.forall_mem_cons.mpr ⟨?_, ih later spelled⟩
      cases t with
      | command => cases first
      | plain w place => exact containsPlain (start ▸ long)
  | @command name place written rest captured kept gs grouped filled made _ held ih =>
      obtain ⟨-, spelled⟩ := List.forall_mem_cons.mp spelled
      obtain ⟨start, long, tiles⟩ := tiles
      obtain ⟨mid, further, later, groups, ends⟩ := grouped.tiles tiles
      obtain ⟨g, final, last⟩ :=
        Option.map_eq_some_iff.mp (grouped.last filled (.plain (.stub name) place))
      rw [final] at ends
      have stop : (lastOf gs (.plain (.stub name) place) written).span.stop = mid := last ▸ ends
      simp only [Token.span] at start long further groups
      have inside (kind : GroupKind) : ∀ level ∈ levelsOf (heldGroups kind gs), ∀ u ∈ level,
          place.start ≤ u.span.start ∧ u.span.start < u.span.stop ∧ u.span.stop ≤ mid := by
        intro level member u within
        rw [levelsOfFlat] at member
        obtain ⟨captured, one, deeper⟩ := List.mem_flatMap.mp member
        obtain ⟨g, held', rfl⟩ := heldGroupsMember one
        obtain ⟨lo', hi', before, tiles', behind⟩ := groups g held'
        have contains := held g held' tiles' fun t within =>
          spelled t ((grouped.inside g held').subset within)
        have around := levelsWithin contains ((made g held').right ▸ captureTiles _ _ tiles')
          level deeper u within
        omega
      have whole : (Token.command name (heldGroups .required gs) (heldGroups .optional gs)
          (place.through (lastOf gs (.plain (.stub name) place) written).span)).span
          = ⟨place.start, mid⟩ := congrArg (Span.mk place.start) stop
      refine List.forall_mem_cons.mpr
        ⟨?_, ih later fun t within => spelled t (grouped.outside.subset within)⟩
      intro level member u within
      rw [Token.inner, List.mem_cons, List.mem_append] at member
      rw [whole]
      obtain rfl | required | optional := member
      · rw [List.mem_singleton.mp within, whole]
        exact ⟨Nat.le_refl _, by show place.start < mid; omega, Nat.le_refl _⟩
      · exact inside .required level required u within
      · exact inside .optional level optional u within

end Containing

section Apart

variable {p : Span} {xs ys : List Token}

def Clear (p : Span) (ts : List Token) : Prop :=
  ∀ level ∈ levels ts, ∀ u ∈ level,
    u.span.start < u.span.stop ∧ (u.span.stop ≤ p.start ∨ p.stop ≤ u.span.start)

theorem Clear.rest {t : Token} {ts : List Token} (clear : Clear p (t :: ts)) : Clear p ts := by
  obtain ⟨here, deeper⟩ := List.forall_mem_cons.mp clear
  refine List.forall_mem_cons.mpr ⟨(List.forall_mem_cons.mp here).2, fun level member => ?_⟩
  exact deeper level (by rw [inner]; exact List.mem_append_right _ member)

theorem Clear.group {name : String} {required optional : List (List Token)} {place : Span}
    {ts g : List Token} (clear : Clear p (.command name required optional place :: ts))
    (member : g ∈ required ∨ g ∈ optional) : Clear p g := by
  intro level within
  refine clear level (List.mem_cons_of_mem _ ?_)
  rw [inner, Token.inner, levelsOfFlat, levelsOfFlat, ← List.flatMap_append]
  exact List.mem_append_left _
    (List.mem_flatMap.mpr ⟨g, List.mem_append.mpr member, within⟩)

theorem zippedSame {α : Type} {as bs : List α} (many : as.length = bs.length)
    (same : ∀ pair ∈ as.zip bs, pair.2 = pair.1) : bs = as := by
  have paired : List.Forall₂ (fun a b => b = a) as bs := zippedForall many same
  clear many same
  induction paired with
  | nil => rfl
  | cons first _ ih => rw [first, ih]

theorem Sized.clear (sized : Sized p xs ys) (clear : Clear p xs) : ys = xs := by
  induction sized with
  | nothing => rfl
  | token t _ ih => rw [ih clear.rest]
  | word sizes _ _ =>
      obtain ⟨long, outside⟩ := clear _ List.mem_cons_self _ List.mem_cons_self
      have within := sizes.within
      omega
  | command many _ many' _ _ same same' ih =>
      rw [ih clear.rest, zippedSame many fun pair member => same pair member
          (clear.group (.inl (List.of_mem_zip member).1)),
        zippedSame many' fun pair member => same' pair member
          (clear.group (.inr (List.of_mem_zip member).1))]

theorem clearOutside {ts : List Token} (contains : ∀ t ∈ ts, Contains t)
    (outside : ∀ t ∈ ts, t.span.stop ≤ p.start ∨ p.stop ≤ t.span.start) : Clear p ts := by
  have apart {t : Token} (here : t ∈ ts) {level : List Token} (member : level ∈ [t] :: t.inner)
      {u : Token} (inside : u ∈ level) :
      u.span.start < u.span.stop ∧ (u.span.stop ≤ p.start ∨ p.stop ≤ u.span.start) := by
    have within := contains t here level member u inside
    have apart := outside t here
    omega
  intro level member u inside
  rcases List.mem_cons.mp member with rfl | deeper
  · exact apart inside List.mem_cons_self List.mem_cons_self
  · obtain ⟨t, here, held⟩ := innerMember.mp deeper
    exact apart here (List.mem_cons_of_mem _ held) inside

theorem Sized.split {as bs ys : List Token} (sized : Sized p (as ++ bs) ys) :
    ∃ as' bs', ys = as' ++ bs' ∧ Sized p as as' ∧ Sized p bs bs' := by
  induction as generalizing ys with
  | nil => exact ⟨[], ys, rfl, .nothing, sized⟩
  | cons a as ih =>
      cases sized with
      | token _ later =>
          obtain ⟨as', bs', rfl, first, second⟩ := ih later
          exact ⟨a :: as', bs', rfl, .token a first, second⟩
      | word sizes later =>
          obtain ⟨as', bs', rfl, first, second⟩ := ih later
          exact ⟨_ :: a :: as', bs', rfl, .word sizes first, second⟩
      | command many each many' each' later =>
          obtain ⟨as', bs', rfl, first, second⟩ := ih later
          exact ⟨_ :: as', bs', rfl, .command many each many' each' first, second⟩

end Apart

section Statements

variable {p : Span} {xs ys : List Token}

theorem Sized.around {before within behind : List Token}
    (sized : Sized p (before ++ (within ++ behind)) ys) (place : spanOf within = some p)
    (contains : ∀ t ∈ before ++ (within ++ behind), Contains t)
    (ascends : (before ++ (within ++ behind)).Pairwise fun t u => t.span.stop ≤ u.span.start) :
    ∃ within', ys = before ++ (within' ++ behind) ∧ Sized p within within' := by
  obtain ⟨before', rest, rfl, first, sized⟩ := sized.split
  obtain ⟨within', behind', rfl, second, third⟩ := sized.split
  cases within with
  | nil => cases place
  | cons v within =>
      have same := Option.some.inj ((spanOfCons v within).symm.trans place)
      have start : v.span.start = p.start := by rw [← same]
      have stop : (within.getLastD v).span.stop = p.stop := by rw [← same]
      obtain ⟨-, later, across⟩ := List.pairwise_append.mp ascends
      obtain ⟨-, -, across'⟩ := List.pairwise_append.mp later
      have last : within.getLastD v ∈ v :: within := by
        rw [← List.getLast_eq_getLastD (List.cons_ne_nil v within)]
        exact List.getLast_mem _
      have clear : Clear p before := clearOutside
        (fun t member => contains t (List.mem_append_left _ member))
        fun t member => .inl (start ▸ across t member v (by simp))
      have clear' : Clear p behind := clearOutside
        (fun t member => contains t (List.mem_append_right _ (List.mem_append_right _ member)))
        fun t member => .inr (stop ▸ across' _ last t member)
      exact ⟨within', by rw [first.clear clear, third.clear clear'], second⟩

theorem undecidedSized (sized : Sized p xs ys) (none : ∀ t ∈ xs, isDecidingSign t = false) :
    ∀ t ∈ ys, isDecidingSign t = false := by
  have passive {w : Word} (passive : w.passive = true) (place : Span) :
      isDecidingSign (.plain w place) = false := by
    cases w <;> first | rfl | cases passive
  induction sized with
  | nothing => exact none
  | token t _ ih =>
      obtain ⟨first, none⟩ := List.forall_mem_cons.mp none
      exact List.forall_mem_cons.mpr ⟨first, ih none⟩
  | word sizes _ ih =>
      obtain ⟨first, none⟩ := List.forall_mem_cons.mp none
      obtain ⟨w, sizing, quiet, -⟩ := sizingPassive sizes.sizing
      exact List.forall_mem_cons.mpr
        ⟨sizing ▸ passive quiet _, List.forall_mem_cons.mpr ⟨first, ih none⟩⟩
  | command _ _ _ _ _ _ _ ih =>
      exact List.forall_mem_cons.mpr ⟨rfl, ih (List.forall_mem_cons.mp none).2⟩

theorem openAfterSized (sized : Sized p xs ys) (depth : Nat) :
    openAfter depth xs = openAfter depth ys := by
  induction sized generalizing depth with
  | nothing => rfl
  | token t _ ih =>
      simp only [openAfter, List.foldlM_cons]
      cases bracketStep depth t with
      | none => rfl
      | some next => exact ih next
  | @word s t _ _ sizes _ ih =>
      obtain ⟨name, word⟩ := sizingWord sizes.sizing
      have step : bracketStep depth s = some depth := by
        rw [stubWord word]
        rfl
      rw [openAfterCons step]
      simp only [openAfter, List.foldlM_cons]
      cases bracketStep depth t with
      | none => rfl
      | some next => exact ih next
  | command _ _ _ _ _ _ _ ih => exact ih depth

theorem mapMAlike {α β : Type} {R : α → α → Prop} {f : α → Parsed β} {as bs : List α}
    {cs : List β} (alike : List.Forall₂ R as bs)
    (same : ∀ a b c, R a b → f a = .ok c → f b = .ok c) (read : as.mapM f = .ok cs) :
    bs.mapM f = .ok cs := by
  induction alike generalizing cs with
  | nil => exact read
  | cons first _ ih =>
      rw [List.mapM_cons] at read ⊢
      obtain ⟨c, one, read⟩ := bindIsOk.mp read
      obtain ⟨cs, others, made⟩ := bindIsOk.mp read
      cases made
      rw [same _ _ c first one, bindOk, ih others]
      rfl

theorem membersSized (sized : Sized p xs ys) {es : List Expr} (read : parseMembers xs = .ok es) :
    parseMembers ys = .ok es := by
  unfold parseMembers at read ⊢
  cases xs with
  | nil =>
      cases sized
      exact read
  | cons x xs =>
      obtain ⟨y, ys, rfl⟩ := List.exists_cons_of_ne_nil (sized.filled (by simp))
      exact mapMAlike (splitTopSized sized 0) (fun _ _ _ sized read => valueSized sized read) read

theorem definitionSized {signature body body' : List Token} {d : FunctionDefinition}
    (sized : Sized p body body') (read : parseFunctionDefinition signature body = .ok d) :
    parseFunctionDefinition signature body' = .ok d := by
  unfold parseFunctionDefinition at read ⊢
  cases cut : cutAt (Token.opens .paren) signature with
  | none =>
      rw [cut] at read
      cases read
  | some parts =>
      simp only [cut] at read ⊢
      cases closing : splitClosing 0 parts.2.2 with
      | none =>
          simp only [closing] at read
          cases read
      | some parts' =>
          simp only [closing] at read ⊢
          obtain ⟨_, closes, read⟩ := bindIsOk.mp read
          split at read
          · cases read
          · rename_i nothing
            obtain ⟨name, named, read⟩ := bindIsOk.mp read
            obtain ⟨params, listed, read⟩ := bindIsOk.mp read
            split at read
            · cases read
            · rename_i once
              obtain ⟨e, value, made⟩ := bindIsOk.mp read
              simp only [closes, bindOk, if_neg nothing, named, listed, if_neg once,
                valueSized sized value]
              exact made

theorem valueDeclarationSized {name value value' : List Token} {s : Statement}
    (other : ∀ opener rest, value ≠ .plain (.opening .escapedBrace) opener :: rest)
    (sized : Sized p value value') (read : parseValueDeclaration name value = .ok s) :
    parseValueDeclaration name value' = .ok s := by
  obtain ⟨n, named, found⟩ := bindIsOk.mp read
  clear read
  split at found
  · exact absurd rfl (other _ _)
  · obtain ⟨e, reads, made⟩ := bindIsOk.mp found
    rw [parseValueDeclaration, named, bindOk]
    split
    · cases sized with
      | token => exact absurd rfl (other _ _)
      | word sizes _ => cases sizes.sizing
    · rw [valueSized sized reads]
      exact made

theorem setRead {name rest : List Token} {opener : Span} {s : Statement}
    (read : parseValueDeclaration name (.plain (.opening .escapedBrace) opener :: rest) = .ok s) :
    ∃ inside closer, rest = inside ++ [closer] ∧ ∀ inside', Sized p inside inside' →
      parseValueDeclaration name (.plain (.opening .escapedBrace) opener :: (inside' ++ [closer]))
        = .ok s := by
  obtain ⟨n, named, found⟩ := bindIsOk.mp read
  clear read
  simp only at found
  cases cut : splitClosing 0 rest with
  | none =>
      simp only [cut] at found
      cases found
  | some parts =>
      obtain ⟨inside, closer, after⟩ := parts
      obtain ⟨rfl, level, b, closes⟩ := splitClosingFound cut
      simp only [cut] at found
      obtain ⟨_, same, later⟩ := bindIsOk.mp found
      split at later
      · cases later
      · rename_i nothing
        obtain rfl : after = [] := by simpa only [Bool.not_eq_true', Bool.not_eq_false,
          List.isEmpty_iff] using nothing
        obtain ⟨members, listed, made⟩ := bindIsOk.mp later
        refine ⟨inside, closer, rfl, fun inside' sized => ?_⟩
        have again := splitClosingAt ((openAfterSized sized 0).symm.trans level) closes []
        simp only [parseValueDeclaration, named, bindOk, again, same, membersSized sized listed]
        exact made

def memberPart : List Token → List Token
  | .plain (.opening .escapedBrace) _ :: rest => rest.dropLast
  | value => value

def valuePart (slice : List Token) : List Token :=
  match shape slice with
  | .expression => slice
  | .functionDeclaration .. => []
  | .valueDeclaration _ value => memberPart value
  | .functionDefinition _ body => body

theorem statementSized {slice slice' : List Token} {s : Statement}
    (read : parseStatement slice = .ok s) (place : spanOf (valuePart slice) = some p)
    (contains : ∀ t ∈ slice, Contains t)
    (ascends : slice.Pairwise fun t u => t.span.stop ≤ u.span.start)
    (sized : Sized p slice slice') : parseStatement slice' = .ok s := by
  have whole := sized.place
  unfold parseStatement at read ⊢
  rw [← whole]
  obtain none | ⟨before, sign, after, rfl, none, found⟩ := cutAtAll isDecidingSign slice
  · have shapes : shape slice = .expression := by rw [shape, cutAtNone none]
    have shapes' : shape slice' = .expression := by
      rw [shape, cutAtNone (undecidedSized sized none)]
    simp only [shapes] at read
    obtain ⟨e, value, made⟩ := bindIsOk.mp read
    simp only [shapes', valueSized sized value]
    exact made
  · have shapes (after : List Token) : shape (before ++ sign :: after)
        = if sign.word? = some .colon then .functionDeclaration before after
          else if mentions (.opening .paren) before then .functionDefinition before after
          else .valueDeclaration before after := by rw [shape, cutAtFirst none found]
    have front (ts : List Token) : before ++ sign :: ts
        = (before ++ [sign]) ++ (ts ++ []) := by simp
    by_cases colon : sign.word? = some .colon
    · rw [valuePart, shapes, if_pos colon] at place
      cases place
    simp only [if_neg colon] at shapes
    by_cases paren : mentions (.opening .paren) before = true
    · simp only [if_pos paren] at shapes
      simp only [valuePart, shapes] at place read
      rw [front] at contains ascends sized
      obtain ⟨after', rfl, inner⟩ := sized.around place contains ascends
      obtain ⟨d, defined, made⟩ := bindIsOk.mp read
      rw [← front]
      simp only [shapes, definitionSized inner defined]
      exact made
    simp only [if_neg paren] at shapes
    simp only [valuePart, shapes] at place read
    obtain ⟨s', declared, made⟩ := bindIsOk.mp read
    by_cases set : ∃ opener rest, after = .plain (.opening .escapedBrace) opener :: rest
    · obtain ⟨opener, rest, rfl⟩ := set
      obtain ⟨inside, closer, rfl, again⟩ := @setRead p _ _ _ _ declared
      have braced (inside : List Token) : before ++ sign :: .plain (.opening .escapedBrace) opener
          :: (inside ++ [closer]) = (before ++ [sign, .plain (.opening .escapedBrace) opener])
            ++ (inside ++ [closer]) := by simp
      have place : spanOf (inside ++ [closer]).dropLast = some p := place
      rw [List.dropLast_concat] at place
      rw [braced] at contains ascends sized
      obtain ⟨inside', rfl, inner⟩ := sized.around place contains ascends
      rw [← braced]
      simp only [shapes, again inside' inner]
      exact made
    · have other (opener : Span) (rest : List Token) :
          after ≠ .plain (.opening .escapedBrace) opener :: rest := fun same => set ⟨_, _, same⟩
      have all : memberPart after = after := by
        unfold memberPart
        split
        · exact absurd rfl (other _ _)
        · rfl
      rw [all] at place
      rw [front] at contains ascends sized
      obtain ⟨after', rfl, inner⟩ := sized.around place contains ascends
      rw [← front]
      simp only [shapes, valueDeclarationSized other inner declared]
      exact made

end Statements
end LiterateMath
