import LiterateMath.Proofs.Brackets

/-! Calls made of the pieces around a stretch whose brackets pair up. Either all calls before it
are closed before it, or it lies within the arguments of one. -/
namespace LiterateMath

open Lexical

def ReadsMore {α : Type} (f g : List α → Parsed Expr) : Prop := ∀ as e, f as = .ok e → g as = .ok e

theorem mapMReadsMore {α : Type} {f g : List α → Parsed Expr} (more : ReadsMore f g)
    {parts : List (List α)} {es : List Expr} (h : parts.mapM f = .ok es) :
    parts.mapM g = .ok es := by
  induction parts generalizing es with
  | nil => exact h
  | cons part rest ih =>
      rw [List.mapM_cons] at h ⊢
      obtain ⟨e, first, later⟩ := bindIsOk.mp h
      obtain ⟨es', others, same⟩ := bindIsOk.mp later
      cases same
      rw [more part e first, bindOk, ih others]
      rfl

theorem mapMRead {α β : Type} {parse : List α → Parsed β} {parts : List (List α)}
    {es : List β} (h : parts.mapM parse = .ok es) :
    ∀ part ∈ parts, ∃ e, parse part = .ok e := by
  have each := mapMEach h
  clear h
  induction each with
  | nil => simp
  | @cons _ e _ _ first _ ih =>
      intro other member
      rcases List.mem_cons.mp member with rfl | inside
      · exact ⟨e, first⟩
      · exact ih other inside

theorem splitConditionalOk {α : Type} [Lexical α] {a : α} {rest condition ifTrue ifFalse : List α} :
    splitConditional a rest = .ok (condition, ifTrue, ifFalse) ↔
      ∃ more, cutAtKeyword .thenWord 0 rest = some (condition, more) ∧
        cutAtKeyword .elseWord 0 more = some (ifTrue, ifFalse) ∧
        (condition ≠ [] ∧ ifTrue ≠ [] ∧ ifFalse ≠ []) := by
  constructor
  · intro parts
    unfold splitConditional at parts
    cases found : conditionalParts rest with
    | none =>
        rw [found] at parts
        cases parts
    | some all =>
        rw [found] at parts
        obtain ⟨⟨_, more⟩, cut, later⟩ := Option.bind_eq_some_iff.mp found
        obtain ⟨⟨_, _⟩, cut', same⟩ := Option.bind_eq_some_iff.mp later
        cases same
        simp only at parts
        split at parts
        · cases parts
        · rename_i filled
          cases parts
          exact ⟨more, cut, cut', by simpa [and_assoc] using filled⟩
  · rintro ⟨more, cut, cut', filled⟩
    simp [splitConditional, conditionalParts, cut, cut', filled]

theorem parseConditionalOk {α : Type} [Lexical α] {parse : List α → Parsed Expr} {a : α}
    {rest : List α} {e : Expr} : parseConditional parse a rest = .ok e ↔
      ∃ condition more ifTrue ifFalse c t f,
        cutAtKeyword .thenWord 0 rest = some (condition, more) ∧
        cutAtKeyword .elseWord 0 more = some (ifTrue, ifFalse) ∧
        (condition ≠ [] ∧ ifTrue ≠ [] ∧ ifFalse ≠ []) ∧
        parse condition = .ok c ∧ parse ifTrue = .ok t ∧ parse ifFalse = .ok f ∧
        e = .conditional c t f (spanOf (a :: rest)) := by
  constructor
  · intro h
    obtain ⟨⟨condition, ifTrue, ifFalse⟩, parts, h⟩ := bindIsOk.mp h
    obtain ⟨c, first, h⟩ := bindIsOk.mp h
    obtain ⟨t, second, h⟩ := bindIsOk.mp h
    obtain ⟨f, third, same⟩ := bindIsOk.mp h
    cases same
    obtain ⟨more, cut, cut', filled⟩ := splitConditionalOk.mp parts
    exact ⟨_, more, _, _, c, t, f, cut, cut', filled, first, second, third, rfl⟩
  · rintro ⟨condition, more, ifTrue, ifFalse, c, t, f, cut, cut', filled, first, second, third, rfl⟩
    have parts : splitConditional a rest = .ok (condition, ifTrue, ifFalse) :=
      splitConditionalOk.mpr ⟨more, cut, cut', filled⟩
    simp [parseConditional, parts, first, second, third]

theorem parseConditionalReadsMore {α : Type} [Lexical α] {f g : List α → Parsed Expr}
    (more : ReadsMore f g) {a : α} {rest : List α} {e : Expr}
    (h : parseConditional f a rest = .ok e) : parseConditional g a rest = .ok e := by
  obtain ⟨_, _, _, _, _, _, _, cut, cut', filled, first, second, third, same⟩ :=
    parseConditionalOk.mp h
  exact parseConditionalOk.mpr ⟨_, _, _, _, _, _, _, cut, cut', filled, more _ _ first,
    more _ _ second, more _ _ third, same⟩

theorem parseArgumentsReadsMore {f g : List Piece → Parsed Expr} (more : ReadsMore f g)
    {inside : List Piece} {args : List Expr} (h : parseArguments f inside = .ok args) :
    parseArguments g inside = .ok args := by
  unfold parseArguments at h ⊢
  cases empty : inside.isEmpty with
  | true => simpa [empty] using h
  | false =>
      simp only [empty, Bool.false_eq_true, if_false] at h ⊢
      exact mapMReadsMore more h

def callsNext : Piece → List Piece → Bool
  | .name _ _, opener :: _ => opener.word? = some (.opening .paren)
  | _, _ => false

theorem callsNextAppend (p : Piece) {ps : List Piece} (filled : ps ≠ []) (qs : List Piece) :
    callsNext p (ps ++ qs) = callsNext p ps := by
  cases ps with
  | nil => exact absurd rfl filled
  | cons q ps => cases p <;> rfl

inductive Called (parse : List Piece → Parsed Expr) : List Piece → List Piece → Prop where
  | nil : Called parse [] []
  | call {f : Name} {place : Span} {opener closer : Piece} {inside after qs : List Piece}
      {args : List Expr} (opens : opener.word? = some (.opening .paren))
      (balanced : Balanced inside) (closes : closer.word? = some (.closing .paren))
      (read : parseArguments parse inside = .ok args) (rest : Called parse after qs) :
      Called parse (.name f place :: opener :: (inside ++ closer :: after))
        (.call f args (place.through closer.span) :: qs)
  | other {p : Piece} {ps qs : List Piece} (plain : callsNext p ps = false)
      (rest : Called parse ps qs) : Called parse (p :: ps) (p :: qs)

section Calls

variable {parse : List Piece → Parsed Expr} {f : Name} {place : Span} {opener closer : Piece}
  {inside after ps qs : List Piece}

theorem makeCallsCall (opens : opener.word? = some (.opening .paren)) (balanced : Balanced inside)
    (closes : closer.word? = some (.closing .paren)) :
    makeCalls parse (.name f place :: opener :: (inside ++ closer :: after)) = do
      let args ← parseArguments parse inside
      return .call f args (place.through closer.span) :: (← makeCalls parse after) := by
  have cut := splitClosingAt balanced closes after
  rw [makeCalls, if_pos opens]
  split
  · rename_i none
    rw [cut] at none
    cases none
  · rename_i found
    rw [cut] at found
    cases found
    have right : checkClosing .paren opener.span closer = .ok () := checkClosingOk.mpr closes
    rw [right]
    rfl

theorem makeCallsOther {p : Piece} (plain : callsNext p ps = false) :
    makeCalls parse (p :: ps) = do return p :: (← makeCalls parse ps) := by
  cases p with
  | name f place =>
      cases ps with
      | nil => simp [makeCalls]
      | cons opener rest =>
          have closed : ¬ opener.word? = some (.opening .paren) := of_decide_eq_false plain
          rw [makeCalls, if_neg closed]
  | _ => simp [makeCalls]

theorem makeCallsCalled : makeCalls parse ps = .ok qs ↔ Called parse ps qs := by
  constructor
  · intro h
    fun_induction makeCalls parse ps generalizing qs with
    | case1 =>
        cases h
        exact .nil
    | case2 => cases h
    | case3 f place opener rest opens inside closer after cut ih =>
        obtain ⟨u, closes, h⟩ := bindIsOk.mp h
        obtain ⟨args, read, h⟩ := bindIsOk.mp h
        obtain ⟨others, later, same⟩ := bindIsOk.mp h
        cases same
        obtain ⟨rfl, balanced, -⟩ := splitClosingFound cut
        exact .call opens balanced (checkClosingOk.mp closes) read (ih later)
    | case4 f place opener rest closed ih =>
        obtain ⟨others, later, same⟩ := bindIsOk.mp h
        cases same
        exact .other (decide_eq_false closed) (ih later)
    | case5 p rest shape ih =>
        obtain ⟨others, later, same⟩ := bindIsOk.mp h
        cases same
        refine .other ?_ (ih later)
        unfold callsNext
        split
        · exact absurd rfl (shape _ _ _ _ rfl)
        · rfl
  · intro h
    induction h with
    | nil => simp [makeCalls]
    | call opens balanced closes read _ ih =>
        rw [makeCallsCall opens balanced closes, read, ih]
        rfl
    | other plain _ ih =>
        rw [makeCallsOther plain, ih]
        rfl

theorem Called.readsMore {g : List Piece → Parsed Expr} (h : Called parse ps qs)
    (more : ReadsMore parse g) : Called g ps qs := by
  induction h with
  | nil => exact .nil
  | call opens balanced closes read _ ih =>
      exact .call opens balanced closes (parseArgumentsReadsMore more read) ih
  | other plain _ ih => exact .other plain ih

def Parts (ps qs : List Piece) : Prop := ∀ p, ps.getLast? = some p → callsNext p qs = false

theorem Parts.later {before : List Piece} (h : Parts (before ++ ps) qs) : Parts ps qs := by
  intro p last
  apply h p
  rw [List.getLast?_append, last]
  rfl

theorem makeCallsAppend (h : Called parse ps qs) {rest : List Piece} (parts : Parts ps rest) :
    makeCalls parse (ps ++ rest) = (makeCalls parse rest).map (qs ++ ·) := by
  induction h with
  | nil =>
      rw [List.nil_append]
      cases makeCalls parse rest <;> rfl
  | @call f place opener closer inside after qs args opens balanced closes read _ ih =>
      have parts : Parts ((.name f place :: opener :: (inside ++ [closer])) ++ after) rest := by
        simpa using parts
      have whole : .name f place :: opener :: (inside ++ closer :: after) ++ rest
          = .name f place :: opener :: (inside ++ closer :: (after ++ rest)) := by simp
      rw [whole, makeCallsCall opens balanced closes, read, bindOk, ih parts.later]
      cases makeCalls parse rest <;> rfl
  | @other p ps qs plain _ ih =>
      have stays : callsNext p (ps ++ rest) = false := by
        cases ps with
        | nil => exact parts p rfl
        | cons q ps => rw [callsNextAppend p (by simp), plain]
      have parts : Parts ([p] ++ ps) rest := parts
      rw [List.cons_append, makeCallsOther stays, ih parts.later]
      cases makeCalls parse rest <;> rfl

theorem Called.append {rest rest' : List Piece} (h : Called parse ps qs) (parts : Parts ps rest)
    (h' : Called parse rest rest') : Called parse (ps ++ rest) (qs ++ rest') := by
  apply makeCallsCalled.mp
  rw [makeCallsAppend h parts, makeCallsCalled.mpr h']
  rfl

theorem Called.later {rest all : List Piece} (h : Called parse ps qs) (parts : Parts ps rest)
    (h' : Called parse (ps ++ rest) all) :
    ∃ rest', Called parse rest rest' ∧ all = qs ++ rest' := by
  have whole := makeCallsCalled.mpr h'
  rw [makeCallsAppend h parts] at whole
  cases made : makeCalls parse rest with
  | error e =>
      rw [made] at whole
      cases whole
  | ok rest' =>
      rw [made] at whole
      cases whole
      exact ⟨rest', makeCallsCalled.mp made, rfl⟩

theorem Called.same {qs' : List Piece} (h : Called parse ps qs) (h' : Called parse ps qs') :
    qs = qs' := Except.ok.inj ((makeCallsCalled.mpr h).symm.trans (makeCallsCalled.mpr h'))

/-- Where a stretch stands between others: all calls before it are closed before it, or it lies,
with what is next to it, between the parentheses of one. -/
inductive Placed (parse : List Piece → Parsed Expr) (middle : List Piece) :
    (before after all : List Piece) → Prop where
  | level {before after all as : List Piece} (made : Called parse before as) :
      Placed parse middle before after all
  | argument {lead rest inner outer as bs : List Piece} {f : Name} {place : Span}
      {opener closer : Piece} {args : List Expr}
      (opens : opener.word? = some (.opening .paren))
      (closes : closer.word? = some (.closing .paren))
      (inside : Balanced (inner ++ (middle ++ outer)))
      (read : parseArguments parse (inner ++ (middle ++ outer)) = .ok args)
      (first : Called parse lead as) (later : Called parse rest bs) :
      Placed parse middle (lead ++ .name f place :: opener :: inner) (outer ++ closer :: rest)
        (as ++ .call f args (place.through closer.span) :: bs)

theorem Called.placed {xs zs ys all : List Piece} (balanced : Balanced zs)
    (h : Called parse (xs ++ (zs ++ ys)) all) : Placed parse zs xs ys all := by
  generalize whole : xs ++ (zs ++ ys) = ps at h
  induction h generalizing xs with
  | nil =>
      obtain ⟨rfl, -⟩ := List.append_eq_nil_iff.mp whole
      exact .level .nil
  | @call f place opener closer inside after qs args opens inner closes read later ih =>
      cases xs with
      | nil => exact .level .nil
      | cons x xs =>
          obtain ⟨rfl, tail⟩ := List.cons.inj whole
          cases xs with
          | nil => exact .level (.other rfl .nil)
          | cons x xs =>
              obtain ⟨rfl, deeper⟩ := List.cons.inj tail
              have deeper : xs ++ (zs ++ ys) = inside ++ closer :: after := deeper
              have cut := splitClosingAt inner closes after
              rw [← deeper] at cut
              cases found : splitClosing 0 xs with
              | some parts =>
                  obtain ⟨inside', closer', after'⟩ := parts
                  have longer := splitClosingLonger found (zs ++ ys)
                  rw [cut] at longer
                  cases longer
                  obtain ⟨rfl, -, -⟩ := splitClosingFound found
                  cases ih rfl with
                  | level made => exact .level (.call opens inner closes read made)
                  | @argument lead _ _ _ as _ _ _ _ _ _ opens' closes' inside' read' first last =>
                      have before : Called parse (.name f place :: x :: (inside ++ closer :: lead))
                          _ := .call opens inner closes read first
                      simpa using Placed.argument opens' closes' inside' read' before last
              | none =>
                  -- the call is still open where the stretch begins, so it closes after it
                  obtain ⟨middle, opened⟩ := splitClosingNone found
                  rw [splitClosingOver opened, splitClosingOver (balanced.alone middle)] at cut
                  obtain ⟨cut', found', same⟩ := Option.map_eq_some_iff.mp cut
                  obtain ⟨⟨outer, closer', rest⟩, last, rfl⟩ := Option.map_eq_some_iff.mp found'
                  cases same
                  obtain ⟨rfl, -, -⟩ := splitClosingFound last
                  exact .argument opens closes inner read .nil later
  | @other p ps qs plain later ih =>
      cases xs with
      | nil => exact .level .nil
      | cons x xs =>
          obtain ⟨rfl, rfl⟩ := List.cons.inj whole
          have alone : callsNext x xs = false := by
            cases xs with
            | nil => cases x <;> rfl
            | cons y xs => cases x <;> exact plain
          cases ih rfl with
          | level made => exact .level (.other alone made)
          | @argument lead _ _ _ as _ _ _ _ _ _ opens closes inside read first last =>
              have plain : callsNext x lead = false := by
                cases lead with
                | nil => cases x <;> rfl
                | cons y lead => cases x <;> exact alone
              have before : Called parse (x :: lead) (x :: as) := .other plain first
              exact .argument opens closes inside read before last

theorem wordlessStep {p : Piece} (h : p.word? = none) (depth : Nat) :
    bracketStep depth p = some depth :=
  bracketStepOther (fun b word => by cases h.symm.trans word)
    (fun b word => by cases h.symm.trans word) depth

theorem Called.divide {rest all : List Piece} (balanced : Balanced ps) (parts : Parts ps rest)
    (h : Called parse (ps ++ rest) all) :
    ∃ as bs, Called parse ps as ∧ Called parse rest bs ∧ all = as ++ bs := by
  have placed : Placed parse [] ps rest all := Called.placed rfl h
  cases placed with
  | level made =>
      obtain ⟨bs, later, rfl⟩ := made.later parts h
      exact ⟨_, bs, made, later, rfl⟩
  | @argument lead rest inner outer as bs f place opener closer args opens closes inside _ _ _ =>
      obtain ⟨depth, -, ends⟩ := openAfterParts balanced
      obtain ⟨deeper, opened, -⟩ := openAfterParts inside
      rw [openAfterCons (wordlessStep rfl depth), openAfterCons (bracketStepOpening opens depth)]
        at ends
      have raised := openAfterRaise opened (depth + 1)
      rw [Nat.zero_add] at raised
      have impossible := Option.some.inj (raised.symm.trans ends)
      omega

end Calls
end LiterateMath
