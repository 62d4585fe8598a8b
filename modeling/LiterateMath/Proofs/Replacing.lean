import LiterateMath.Proofs.Surroundings

/-! A stretch of a value replaced by another. The tree stays as it is just if the tree of the
innermost part around the stretch does: the argument of a call, or the part of a conditional. -/
namespace LiterateMath

open Lexical

def SameTree (r : Parsed Expr) (e : Expr) : Prop := ∃ e', r = .ok e' ∧ e'.bare = e.bare

structure SameJustIf (test : Bool) (r : Parsed Expr) (e : Expr) : Prop where
  kept : test = true → r = .ok e
  found : SameTree r e → test = true

/-- Whether a reading comes to its tree is decided by another, that of a part of it. -/
structure Carries (inner : Parsed Expr) (part : Expr) (outer : Parsed Expr) (e : Expr) : Prop where
  kept : inner = .ok part → outer = .ok e
  found : SameTree outer e → SameTree inner part

theorem Carries.sameJustIf {inner outer : Parsed Expr} {part e : Expr} {test : Bool}
    (h : Carries inner part outer e) (h' : SameJustIf test inner part) :
    SameJustIf test outer e where
  kept alone := h.kept (h'.kept alone)
  found same := h'.found (h.found same)

section Ends

variable {α : Type} [Lexical α]

structure EndsAlike (as bs : List α) : Prop where
  filled : as ≠ []
  filled' : bs ≠ []
  first : as.head?.map span = bs.head?.map span
  last : as.getLast?.map span = bs.getLast?.map span

theorem spanOfEnds (as : List α) : spanOf as = (as.head?.map span).bind fun first =>
    (as.getLast?.map span).map fun last => first.through last := by
  cases as with
  | nil => rfl
  | cons a rest => simp [spanOf, List.getLast?_eq_some_getLast]

theorem EndsAlike.spanOf {as bs : List α} (h : EndsAlike as bs) :
    LiterateMath.spanOf as = LiterateMath.spanOf bs := by
  rw [spanOfEnds, spanOfEnds, h.first, h.last]

theorem EndsAlike.within {as bs : List α} (h : EndsAlike as bs) (xs ys : List α) :
    EndsAlike (xs ++ as ++ ys) (xs ++ bs ++ ys) where
  filled := by simp [h.filled]
  filled' := by simp [h.filled']
  first := by
    have first := h.first
    cases xs with
    | nil =>
        obtain ⟨a, as, rfl⟩ := List.exists_cons_of_ne_nil h.filled
        obtain ⟨b, bs, rfl⟩ := List.exists_cons_of_ne_nil h.filled'
        exact first
    | cons x xs => rfl
  last := by
    have last := h.last
    simp only [List.getLast?_append, List.getLast?_eq_some_getLast h.filled,
      List.getLast?_eq_some_getLast h.filled', Option.some_or] at last ⊢
    cases ys.getLast? with
    | some y => rfl
    | none => exact last

end Ends

section Conditional

variable {α : Type} [Lexical α] {parse : List α → Parsed Expr}

theorem readConditional {a : α} {rest more condition ifTrue ifFalse : List α} {c t f : Expr}
    {place : Option Span} (cut : cutAtKeyword .thenWord 0 rest = some (condition, more))
    (cut' : cutAtKeyword .elseWord 0 more = some (ifTrue, ifFalse))
    (filled : condition ≠ [] ∧ ifTrue ≠ [] ∧ ifFalse ≠ []) (stands : place = spanOf (a :: rest))
    (first : parse condition = .ok c) (second : parse ifTrue = .ok t)
    (third : parse ifFalse = .ok f) :
    parseConditional parse a rest = .ok (.conditional c t f place) :=
  parseConditionalOk.mpr ⟨_, _, _, _, c, t, f, cut, cut', filled, first, second, third,
    by rw [stands]⟩

theorem sameConditional {a : α} {rest more condition ifTrue ifFalse : List α} {c t f : Expr}
    {place : Option Span} (cut : cutAtKeyword .thenWord 0 rest = some (condition, more))
    (cut' : cutAtKeyword .elseWord 0 more = some (ifTrue, ifFalse))
    (h : SameTree (parseConditional parse a rest) (.conditional c t f place)) :
    SameTree (parse condition) c ∧ SameTree (parse ifTrue) t ∧ SameTree (parse ifFalse) f := by
  obtain ⟨e, read, same⟩ := h
  obtain ⟨_, _, _, _, c', t', f', found, found', -, first, second, third, rfl⟩ :=
    parseConditionalOk.mp read
  cases cut.symm.trans found
  cases cut'.symm.trans found'
  simp only [Expr.bare, Expr.conditional.injEq] at same
  exact ⟨⟨c', first, same.1⟩, ⟨t', second, same.2.1⟩, ⟨f', third, same.2.2.1⟩⟩

theorem conditionalAround {a : α} {xs middle ys : List α} {e : Expr} (whole : Whole middle)
    (starts : word? a = some (.keyword .ifWord))
    (h : parseConditional parse a (xs ++ middle ++ ys) = .ok e) :
    ∃ lead sep inner k, a :: xs = lead ++ sep :: inner ∧ word? sep = some (.keyword k) ∧
      ∃ outer, (ys = outer ∨
          ∃ sep' k' rest, word? sep' = some (.keyword k') ∧ ys = outer ++ sep' :: rest) ∧
        ∃ part, parse (inner ++ middle ++ outer) = .ok part ∧
          ∀ other, Whole other → EndsAlike middle other →
            Carries (parse (inner ++ other ++ outer)) part
              (parseConditional parse a (xs ++ other ++ ys)) e := by
  obtain ⟨condition, more, ifTrue, ifFalse, c, t, f, cut, cut', filled, first, second, third,
    rfl⟩ := parseConditionalOk.mp h
  have stands {other : List α} (ends : EndsAlike middle other) :
      spanOf (a :: (xs ++ middle ++ ys)) = spanOf (a :: (xs ++ other ++ ys)) :=
    (ends.within (a :: xs) ys).spanOf
  obtain ⟨sep, tail, word, rfl, rfl, anyway⟩ | ⟨sep, tail, word, rfl, rfl, anyway⟩ :=
    cutAtKeywordAround whole cut
  · obtain ⟨sep', last, word', rfl, rfl, anyway'⟩ | ⟨sep', last, word', rfl, rfl, anyway'⟩ :=
      cutAtKeywordAround whole cut'
    · refine ⟨a :: condition ++ sep :: ifTrue, sep', last, _, by simp, word', ys, .inl rfl, f,
        third, fun other stays ends => ?_⟩
      have found : cutAtKeyword .thenWord 0
          (condition ++ sep :: (ifTrue ++ sep' :: last) ++ other ++ ys)
          = some (condition, ifTrue ++ sep' :: last ++ other ++ ys) := by
        simpa using anyway (other ++ ys)
      have found' : cutAtKeyword .elseWord 0 (ifTrue ++ sep' :: last ++ other ++ ys)
          = some (ifTrue, last ++ other ++ ys) := by
        simpa using anyway' (other ++ ys)
      have filled' := And.intro filled.1 (And.intro filled.2.1 (ends.within last ys).filled')
      exact ⟨readConditional found found' filled' (stands ends) first second,
        fun same => (sameConditional found found' same).2.2⟩
    · refine ⟨a :: condition, sep, tail, _, by simp, word, last,
        .inr ⟨sep', _, ifFalse, word', rfl⟩, t, second, fun other stays ends => ?_⟩
      have found : cutAtKeyword .thenWord 0
          (condition ++ sep :: tail ++ other ++ (last ++ sep' :: ifFalse))
          = some (condition, tail ++ other ++ (last ++ sep' :: ifFalse)) := by
        simpa using anyway (other ++ (last ++ sep' :: ifFalse))
      have found' := anyway' other stays
      have filled' := And.intro filled.1 (And.intro (ends.within tail last).filled' filled.2.2)
      exact ⟨fun read => readConditional found found' filled' (stands ends) first read third,
        fun same => (sameConditional found found' same).2.1⟩
  · refine ⟨[], a, xs, _, rfl, starts, tail, .inr ⟨sep, _, more, word, rfl⟩, c, first,
      fun other stays ends => ?_⟩
    have found := anyway other stays
    have filled' := And.intro (ends.within xs tail).filled' filled.2
    exact ⟨fun read => readConditional found cut' filled' (stands ends) read second third,
      fun same => (sameConditional found cut' same).1⟩

end Conditional

def Uncut (as : List Piece) : Prop :=
  ∀ (depth : Nat) bs, splitTop .comma depth (as ++ bs)
    = (splitTop .comma depth bs).modifyHead (as ++ ·)

theorem Uncut.append {as bs : List Piece} (h : Uncut as) (h' : Uncut bs) : Uncut (as ++ bs) := by
  intro depth cs
  rw [List.append_assoc, h, h', modifyHeadTwice]

theorem Uncut.single {p : Piece} (plain : p.word? ≠ some .comma)
    (opens : ∀ b, p.word? ≠ some (.opening b)) (closes : ∀ b, p.word? ≠ some (.closing b)) :
    Uncut [p] := by
  intro depth bs
  have stays := depthStepOpen (bracketStepOther (a := p) opens closes depth)
  rw [List.cons_append, splitTop, if_neg fun both => plain both.1, stays]
  rfl

theorem uncutBracketed {place : Span} {ps : List Piece} (h : Balanced ps) :
    Uncut (bracketed place ps) := by
  intro depth bs
  have group := @splitTopOverGroup Piece _ .comma .paren .paren
    (.token (.plain (.opening .paren) place)) (.token (.plain (.closing .paren) place)) ps h rfl rfl
    (fun _ => ⟨by simp, by simp⟩) depth bs
  simpa [bracketed] using group

theorem uncutSpliced {place : Span} {sign : Sign} {first second : List Piece} (h : Balanced first)
    (h' : Balanced second) : Uncut (spliced place sign first second) := by
  have between : Uncut [.token (.plain (.sign sign) place)] :=
    .single (by rintro ⟨⟩) (by rintro b ⟨⟩) (by rintro b ⟨⟩)
  exact (uncutBracketed h).append (between.append (uncutBracketed h'))

section Arguments

variable {parse : List Piece → Parsed Expr}

theorem mapMAround {front rest : List (List Piece)} {part : List Piece} {args : List Expr} :
    (front ++ part :: rest).mapM parse = .ok args ↔
      ∃ before e after, front.mapM parse = .ok before ∧ parse part = .ok e ∧
        rest.mapM parse = .ok after ∧ args = before ++ e :: after := by
  rw [List.mapM_append]
  constructor
  · intro h
    obtain ⟨before, first, h⟩ := bindIsOk.mp h
    rw [List.mapM_cons] at h
    obtain ⟨others, read, same⟩ := bindIsOk.mp h
    cases same
    obtain ⟨e, second, read⟩ := bindIsOk.mp read
    obtain ⟨after, third, same⟩ := bindIsOk.mp read
    cases same
    exact ⟨before, e, after, first, second, third, rfl⟩
  · rintro ⟨before, e, after, first, second, third, rfl⟩
    rw [first, bindOk, List.mapM_cons, second, bindOk, third]
    rfl

theorem argumentsAround {inner middle outer : List Piece} {args : List Expr} {depth : Nat}
    (opened : openAfter 0 inner = some depth) (uncut : Uncut middle) (filled : middle ≠ [])
    (h : parseArguments parse (inner ++ (middle ++ outer)) = .ok args) :
    ∃ last next part,
      (inner = last ∨ ∃ lead sep, word? sep = some .comma ∧ inner = lead ++ sep :: last) ∧
      (outer = next ∨ ∃ sep rest, word? sep = some .comma ∧ outer = next ++ sep :: rest) ∧
      parse (last ++ middle ++ next) = .ok part ∧
      ∀ other, Uncut other → other ≠ [] →
        (parse (last ++ other ++ next) = .ok part →
          parseArguments parse (inner ++ (other ++ outer)) = .ok args) ∧
        ∀ args', parseArguments parse (inner ++ (other ++ outer)) = .ok args' →
          Expr.bares args' = Expr.bares args → SameTree (parse (last ++ other ++ next)) part := by
  obtain ⟨front, last, split, lies⟩ :=
    @splitTopLast Piece _ .comma (fun _ => ⟨by simp, by simp⟩) 0 depth inner opened
  obtain ⟨next, rest, cut, ends⟩ := splitTopFirst .comma depth outer
  have parts : ∀ other, Uncut other → other ≠ [] →
      parseArguments parse (inner ++ (other ++ outer))
        = (front ++ (last ++ other ++ next) :: rest).mapM parse := by
    intro other passes nonempty
    have all := split (other ++ outer)
    rw [passes, cut] at all
    have some : (inner ++ (other ++ outer)).isEmpty = false := by simp [nonempty]
    simp only [parseArguments, some, Bool.false_eq_true, if_false]
    simpa using congrArg (List.mapM parse) all
  rw [parts middle uncut filled] at h
  obtain ⟨before, e, after, first, second, third, rfl⟩ := mapMAround.mp h
  refine ⟨last, next, e, ?_, ?_, second, fun other passes nonempty => ?_⟩
  · obtain ⟨-, same⟩ | ⟨-, lead, sep, word, same⟩ := lies
    · exact .inl same
    · exact .inr ⟨lead, sep, word, same⟩
  · obtain ⟨same, -⟩ | ⟨sep, tail, word, same, -⟩ := ends
    · exact .inl same
    · exact .inr ⟨sep, tail, word, same⟩
  · rw [parts other passes nonempty]
    constructor
    · intro second'
      exact mapMAround.mpr ⟨before, e, after, first, second', third, rfl⟩
    · intro args' read same
      obtain ⟨before', e', after', first', second', third', rfl⟩ := mapMAround.mp read
      cases first.symm.trans first'
      cases third.symm.trans third'
      exact ⟨e', second', by simpa [Expr.baresMap] using same⟩

end Arguments

theorem assembledKept {ps qs : List Piece} {items items' : List Postfix} {e : Expr}
    (h : assemble ps = .ok e) (put : toPostfix ps = .ok items) (put' : toPostfix qs = .ok items')
    (same : items'.map Postfix.kept = items.map Postfix.kept) (stands : spanOf ps = spanOf qs) :
    assemble qs = .ok e := by
  obtain ⟨_, root, found, folded, rfl⟩ := assembleOk.mp h
  cases put.symm.trans found
  rw [stands] at folded ⊢
  exact assembleOk.mpr ⟨items', root, put', foldKept same.symm folded, rfl⟩

theorem assembledMarks {ps qs : List Piece} {items : List Postfix} {e : Expr}
    (h : assemble ps = .ok e) (put : toPostfix ps = .ok items) (h' : SameTree (assemble qs) e) :
    ∃ items', toPostfix qs = .ok items' ∧ items'.map Postfix.mark = items.map Postfix.mark := by
  obtain ⟨_, root, found, folded, rfl⟩ := assembleOk.mp h
  cases put.symm.trans found
  obtain ⟨e', read, same⟩ := h'
  obtain ⟨items', root', put', folded', rfl⟩ := assembleOk.mp read
  rw [Expr.bareSettled, Expr.bareSettled] at same
  refine ⟨items', put', ?_⟩
  rw [← foldSpelled folded, ← foldSpelled folded', ← Expr.spelledBare root', same, Expr.spelledBare]

theorem sameCall {before after : List Piece} {f : Name} {args args' : List Expr} {place : Span}
    {e : Expr} (h : assemble (before ++ .call f args place :: after) = .ok e)
    (h' : SameTree (assemble (before ++ .call f args' place :: after)) e) :
    Expr.bares args' = Expr.bares args := by
  obtain ⟨items, root, put, -, -⟩ := assembleOk.mp h
  obtain ⟨items', put', marks⟩ := assembledMarks h put h'
  obtain ⟨y, ran, rest⟩ := Yard.runParts put
  have steps (as : List Expr) : y.step (.call f as place)
      = .ok ⟨.operand (.call f as) place :: y.emitted, y.waiting, false⟩ := rfl
  rw [Yard.runCons (steps args)] at rest
  obtain ⟨new, rfl, runs⟩ := Yard.runOver rest
  have put'' : toPostfix (before ++ .call f args' place :: after)
      = .ok ((.operand (.call f args') place :: y.emitted).reverse ++ new) := by
    refine (Yard.runAppend ran _).trans ((Yard.runCons (steps args') _).trans ?_)
    exact runs _
  cases put'.symm.trans put''
  simpa [Postfix.mark, Operand.leaf, Expr.bare] using marks

theorem callAround {parse : List Piece → Parsed Expr} {lead as inside rest bs : List Piece}
    {f : Name} {place : Span} {opener closer : Piece} {args : List Expr} {e : Expr}
    (opens : opener.word? = some (.opening .paren)) (balanced : Balanced inside)
    (closes : closer.word? = some (.closing .paren)) (made : Called parse lead as)
    (later : Called parse rest bs)
    (h : assemble (as ++ .call f args (place.through closer.span) :: bs) = .ok e) :
    (parseArguments parse inside = .ok args →
      makeCalls parse (lead ++ .name f place :: opener :: (inside ++ closer :: rest)) >>= assemble
        = .ok e) ∧
    (SameTree (makeCalls parse (lead ++ .name f place :: opener :: (inside ++ closer :: rest))
        >>= assemble) e →
      ∃ args', parseArguments parse inside = .ok args' ∧ Expr.bares args' = Expr.bares args) := by
  have apart : Parts lead (.name f place :: opener :: (inside ++ closer :: rest)) := by
    intro p _
    cases p <;> rfl
  rw [makeCallsAppend made apart, makeCallsCall opens balanced closes, makeCallsCalled.mpr later]
  constructor
  · intro read
    rw [read]
    exact h
  · intro same
    cases read : parseArguments parse inside with
    | error fault =>
        obtain ⟨e', impossible, -⟩ := same
        rw [read] at impossible
        cases impossible
    | ok args' =>
        rw [read] at same
        exact ⟨args', rfl, sameCall h same⟩

theorem endsSpliced (place : Span) (sign : Sign) (first second : List Piece) :
    EndsAlike (spliced place sign first second)
      (bracketed place (spliced place sign first second)) where
  filled := by simp [spliced, bracketed]
  filled' := by simp [bracketed]
  first := rfl
  last := by simp [spliced, bracketed, List.getLast?_append, List.getLast?_cons]

theorem sameSpliced {place : Span} {sign : Sign} {first second before after : List Piece}
    {as others : List Postfix} {o : Operand} {at_ : Span} {e : Expr}
    (ha : toPostfix first = .ok as) (hb : toPostfix second = .ok (.operand o at_ :: others))
    (h : assemble (before ++ spliced place sign first second ++ after) = .ok e) :
    SameJustIf (standsAlone (.operator sign.operator) before after)
      (assemble (before ++ bracketed place (spliced place sign first second) ++ after)) e := by
  obtain ⟨items, root, put, -, -⟩ := assembleOk.mp h
  obtain ⟨alike, ends⟩ := splicedAlone place sign ha hb put
  constructor
  · intro alone
    obtain ⟨items', put', same⟩ := alike alone
    exact assembledKept h put put' same ((endsSpliced place sign first second).within _ _).spanOf
  · intro same
    obtain ⟨items', put', marks⟩ := assembledMarks h put same
    exact ends items' put' marks

end LiterateMath
