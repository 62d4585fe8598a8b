import LiterateMath.Proofs.Limits
import LiterateMath.Proofs.Naming

/-! Arguments of a call. In a call the passes have gone over the pieces of an argument before it is
cut out and read, alone a conditional is divided before any pass. Both ways of reading a value come
to the same tree, and no comma stands in a value outside of brackets. -/
namespace LiterateMath

open Lexical

section Commas

theorem splitTopStep {p : Piece} (plain : p.word? ≠ some .comma) {depth next : Nat}
    (step : bracketStep depth p = some next) (bs : List Piece) :
    splitTop .comma depth (p :: bs) = (splitTop .comma next bs).modifyHead (p :: ·) := by
  rw [splitTop, if_neg fun both => plain both.1, depthStepOpen step]

theorem Called.undivided {parse : List Piece → Parsed Expr} {ps qs : List Piece}
    (h : Called parse ps qs) (plain : ∀ q ∈ qs, q.word? ≠ some .comma) {depth last : Nat}
    (opened : openAfter depth qs = some last) (bs : List Piece) :
    splitTop .comma depth (ps ++ bs) = (splitTop .comma last bs).modifyHead (ps ++ ·) := by
  induction h generalizing depth with
  | nil =>
      cases opened
      exact (modifyHeadNothing _).symm
  | @call f place opener closer inside after qs args opens balanced closes _ _ ih =>
      rw [openAfterCons (wordlessStep rfl depth)] at opened
      have later := ih (fun q member => plain q (List.mem_cons_of_mem _ member)) opened
      have group :=
        splitTopOverGroup (w := .comma) balanced opens closes (by simp) depth (after ++ bs)
      have unnamed : (Piece.name f place).word? ≠ some .comma := by simp [Piece.word?]
      have whole : Piece.name f place :: opener :: (inside ++ closer :: after) ++ bs
          = .name f place :: (opener :: inside ++ closer :: (after ++ bs)) := by simp
      rw [whole, splitTopStep unnamed (wordlessStep rfl depth), group, later, modifyHeadTwice]
      refine (modifyHeadTwice [Piece.name f place] _ _).trans ?_
      simp
  | @other p ps qs _ _ ih =>
      obtain ⟨next, step, more⟩ := Option.bind_eq_some_iff.mp opened
      have later := ih (fun q member => plain q (List.mem_cons_of_mem p member)) more
      rw [List.cons_append, splitTopStep (plain p List.mem_cons_self) step, later]
      exact modifyHeadTwice [p] ps _

theorem Called.solid {parse : List Piece → Parsed Expr} {ps qs : List Piece} {items : List Postfix}
    (h : Called parse ps qs) (put : toPostfix qs = .ok items) : Solid ps where
  balanced := h.depth (postfixBalanced put)
  undivided := by
    obtain ⟨last, ran, -⟩ := bindIsOk.mp put
    exact h.undivided (stepsStray ran fun _ => ⟨_, rfl⟩) (postfixBalanced put)

end Commas

section Values

structure ReadAlike (limit : Nat) (ps : List Piece) (e : Expr) : Prop where
  solid : Solid ps
  whole : Whole ps
  read : ∃ e', parseArgument limit ps = .ok e' ∧ e'.bare = e.bare

theorem ReadAlike.filled {limit : Nat} {ps : List Piece} {e : Expr} (h : ReadAlike limit ps e) :
    ps ≠ [] := by
  rintro rfl
  obtain ⟨e', read, -⟩ := h.read
  cases limit <;> cases read

theorem readAlikeAssembled {limit : Nat} {ps qs : List Piece} {e : Expr}
    (called : Called (parseArgument limit) ps qs) (assembled : assemble qs = .ok e) :
    ReadAlike (limit + 1) ps e := by
  obtain ⟨items, root, put, folded, -⟩ := assembleOk.mp assembled
  obtain ⟨last, ran, -⟩ := bindIsOk.mp put
  have one := oneValueAssembled called assembled
  refine ⟨called.solid put, one.whole, e, ?_, rfl⟩
  cases called with
  | nil =>
      obtain ⟨o, at_, more, same⟩ := foldFirst folded
      cases put
      cases same
  | call opens balanced closes read rest =>
      rw [parseArgumentAssembled rfl, makeCallsCalled.mpr (.call opens balanced closes read rest)]
      exact assembled
  | @other p ps qs plain rest =>
      have starts : startsConditional p = false :=
        decide_eq_false (stepsPlain ran p List.mem_cons_self .ifWord)
      rw [parseArgumentAssembled starts, makeCallsCalled.mpr (.other plain rest)]
      exact assembled

theorem keywordSolid {t : Token} {k : Keyword} (word : t.word? = some (.keyword k)) :
    Solid [Piece.token t] := .single word rfl

theorem readAlikeConditional {limit : Nat} {a b c : Token} {condition ifTrue ifFalse : List Piece}
    {x y z : Expr} (first : a.word? = some (.keyword .ifWord))
    (second : b.word? = some (.keyword .thenWord)) (third : c.word? = some (.keyword .elseWord))
    (h : ReadAlike limit condition x) (h' : ReadAlike limit ifTrue y)
    (h'' : ReadAlike limit ifFalse z) (place : Option Span) :
    ReadAlike (limit + 1) (.token a :: condition ++ .token b :: ifTrue ++ .token c :: ifFalse)
      (.conditional x y z place) := by
  have starts : startsConditional (Piece.token a) = true := decide_eq_true first
  refine ⟨?_, .conditional first second third h.whole h'.whole h''.whole, ?_⟩
  · have all := (keywordSolid first).append (h.solid.append ((keywordSolid second).append
      (h'.solid.append ((keywordSolid third).append h''.solid))))
    simpa using all
  · obtain ⟨x', reads, same⟩ := h.read
    obtain ⟨y', reads', same'⟩ := h'.read
    obtain ⟨z', reads'', same''⟩ := h''.read
    have cut : cutAtKeyword .thenWord 0 (condition ++ .token b :: (ifTrue ++ .token c :: ifFalse))
        = some (condition, ifTrue ++ .token c :: ifFalse) := by
      rw [h.whole]
      simp [cutAtKeyword, show word? (Piece.token b) = _ from second]
    have cut' : cutAtKeyword .elseWord 0 (ifTrue ++ .token c :: ifFalse)
        = some (ifTrue, ifFalse) := by
      rw [h'.whole]
      simp [cutAtKeyword, show word? (Piece.token c) = _ from third]
    have parts := parseConditionalOk (a := Piece.token a) |>.mpr ⟨_, _, _, _, _, _, _, cut, cut',
      ⟨h.filled, h'.filled, h''.filled⟩, reads, reads', reads'', rfl⟩
    have form : Piece.token a :: condition ++ .token b :: ifTrue ++ .token c :: ifFalse
        = .token a :: (condition ++ .token b :: (ifTrue ++ .token c :: ifFalse)) := by simp
    rw [form]
    exact ⟨_, (parseArgumentConditional starts).trans parts,
      by simp [Expr.bare, same, same', same'']⟩

theorem piecesReadAlike {limit : Nat} {ts : List Token} {e : Expr}
    (h : parseValue limit ts = .ok e) : ∃ ps, toPieces ts = .ok ps ∧ ReadAlike limit ps e := by
  induction limit generalizing ts e with
  | zero => cases h
  | succ limit ih =>
      obtain ⟨t, rest, rfl, ⟨starts, read⟩ | ⟨-, ps, qs, made, called, assembled⟩⟩ := parseValueOk h
      · obtain ⟨condition, more, ifTrue, ifFalse, x, y, z, cut, cut', -, first, second, third,
          rfl⟩ := parseConditionalOk.mp read
        obtain ⟨thenWord, word, rfl⟩ := cutAtKeywordFound cut
        obtain ⟨elseWord, word', rfl⟩ := cutAtKeywordFound cut'
        obtain ⟨ps, made, alike⟩ := ih first
        obtain ⟨ps', made', alike'⟩ := ih second
        obtain ⟨ps'', made'', alike''⟩ := ih third
        have starts : t.word? = some (.keyword .ifWord) := of_decide_eq_true starts
        have later := (toPiecesKeyword word').mpr ⟨ps', ps'', made', made'', rfl⟩
        have inner := (toPiecesKeyword word).mpr ⟨ps, _, made, later, rfl⟩
        have all := (toPiecesKeyword starts).mpr ⟨[], _, toPiecesNothing, inner, rfl⟩
        refine ⟨_, all, ?_⟩
        simpa using readAlikeConditional starts word word' alike alike' alike'' _
      · exact ⟨ps, made, readAlikeAssembled called assembled⟩

end Values

section Lists

inductive Listed : List (List Token) → List Token → Prop where
  | none : Listed [] []
  | last (part : List Token) : Listed [part] part
  | more {part next inside : List Token} {parts : List (List Token)} {comma : Token}
      (word : comma.word? = some .comma) (rest : Listed (next :: parts) inside) :
      Listed (part :: next :: parts) (part ++ comma :: inside)

theorem toPiecesPlain {t : Token} {w : Word} (word : t.word? = some w)
    (separates : w.separates = true) (unsized : isSizing (.plain w t.span) = false)
    {xs ys : List Token} {as bs : List Piece}
    (first : toPieces xs = .ok as) (second : toPieces ys = .ok bs) :
    toPieces (xs ++ t :: ys) = .ok (as ++ .token t :: bs) := by
  cases t with
  | command => cases word
  | plain w' place =>
      cases word
      exact (toPiecesSeparated separates unsized).mpr ⟨as, bs, first, second, rfl⟩

theorem listedReadAlike {limit : Nat} {part inside : List Token} {parts : List (List Token)}
    {e : Expr} {es : List Expr} (listed : Listed (part :: parts) inside)
    (read : parseValue limit part = .ok e)
    (others : List.Forall₂ (fun part e => parseValue limit part = .ok e) parts es) :
    ∃ ps es', toPieces inside = .ok ps ∧ ps ≠ [] ∧ Balanced ps ∧
      (splitTop .comma 0 ps).mapM (parseArgument limit) = .ok es' ∧
      Expr.bares es' = Expr.bares (e :: es) := by
  obtain ⟨ps, made, alike⟩ := piecesReadAlike read
  obtain ⟨e', argument, same⟩ := alike.read
  induction parts generalizing part inside e es ps e' with
  | nil =>
      cases others
      cases listed
      have single : splitTop .comma 0 ps = [ps] := by
        simpa [splitTop] using alike.solid.undivided []
      refine ⟨ps, [e'], made, alike.filled, alike.solid.balanced, ?_, by simp [Expr.bares, same]⟩
      rw [single, List.mapM_cons, argument]
      rfl
  | cons next parts ih =>
      cases others with
      | @cons _ f _ es first others =>
          cases listed with
          | @more _ _ inside _ comma word rest =>
              obtain ⟨ps', made', alike'⟩ := piecesReadAlike first
              obtain ⟨f', argument', same'⟩ := alike'.read
              obtain ⟨qs, es', pieces, -, balanced, arguments, sames⟩ :=
                ih rest first others ps' made' alike' f' argument' same'
              have between : Balanced [Piece.token comma] :=
                .single (fun b other => by cases word.symm.trans other)
                  fun b other => by cases word.symm.trans other
              have parted : splitTop .comma 0 (ps ++ .token comma :: qs)
                  = ps :: splitTop .comma 0 qs := by
                rw [alike.solid.undivided, splitTop, if_pos ⟨word, rfl⟩]
                simp
              refine ⟨ps ++ .token comma :: qs, e' :: es', toPiecesPlain word rfl rfl made pieces,
                by simp, alike.solid.balanced.append (between.append balanced), ?_, ?_⟩
              · rw [parted, List.mapM_cons, argument, bindOk, arguments]
                rfl
              · rw [Expr.bares, sames, same]
                rfl

theorem argumentsReadAlike {limit : Nat} {inside : List Token} {parts : List (List Token)}
    {es : List Expr} (listed : Listed parts inside)
    (read : List.Forall₂ (fun part e => parseValue limit part = .ok e) parts es) :
    ∃ ps es', toPieces inside = .ok ps ∧ Balanced ps ∧
      parseArguments (parseArgument limit) ps = .ok es' ∧ Expr.bares es' = Expr.bares es := by
  cases read with
  | nil =>
      cases listed
      exact ⟨[], [], toPiecesNothing, rfl, rfl, rfl⟩
  | cons first others =>
      obtain ⟨ps, es', made, filled, balanced, arguments, same⟩ :=
        listedReadAlike listed first others
      refine ⟨ps, es', made, balanced, ?_, same⟩
      rw [parseArguments, if_neg (by simpa using filled)]
      exact arguments

end Lists

section Calls

theorem parseValueHigher {limit higher : Nat} (more : limit ≤ higher) (ts : List Token) :
    Shallower (parseValue limit ts) (parseValue higher ts) := by
  have shallower := parseValueShallower (l := .standard) (m := .standard) (Nat.le_refl _)
    (Nat.le_refl _) more ts
  rwa [parseValueStandard, parseValueStandard] at shallower

theorem assembleCall (f : Name) (args : List Expr) (place : Span) :
    assemble [.call f args place] = .ok (.call f args (some place)) := rfl

/-- A name with values in parentheses after it, commas between them, is the call of that name with
just the trees that these values are read to alone. That is so at the first limit under which a
call of the values can be read, and at any other limit the reading may only go too deep. -/
theorem argumentsReadAlone {limit : Nat} {t opener closer : Token} {subs inside : List Token}
    {function : Name} {parts : List (List Token)} {es : List Expr} (starts : startsName t = true)
    (called : parseName subscriptDepth false (t :: subs) = .ok function)
    (read : List.Forall₂ (fun part e => parseValue limit part = .ok e) parts es)
    (listed : Listed parts inside) (opens : opener.word? = some (.opening .paren))
    (closes : closer.word? = some (.closing .paren)) :
    ∃ e, e.bare = (Expr.call function es none).bare ∧
      parseValue (limit + 1) (t :: subs ++ opener :: (inside ++ [closer])) = .ok e ∧
      ∀ other,
        Shallower (parseValue other (t :: subs ++ opener :: (inside ++ [closer]))) (.ok e) := by
  obtain ⟨place, name⟩ := namePieces starts called
  obtain ⟨ps, es', made, balanced, arguments, same⟩ := argumentsReadAlike listed read
  have closing : toPieces (inside ++ closer :: []) = .ok (ps ++ [.token closer]) :=
    toPiecesPlain closes rfl rfl made toPiecesNothing
  have whole : toPieces (t :: subs ++ opener :: (inside ++ [closer]))
      = .ok (.name function place :: .token opener :: (ps ++ [.token closer])) :=
    toPiecesPlain opens rfl rfl name closing
  have unconditional : startsConditional t = false := by
    refine decide_eq_false fun word => ?_
    simp [startsName, show t.word? = _ from word] at starts
  have front : (Piece.token opener).word? = some (.opening .paren) := opens
  have back : (Piece.token closer).word? = some (.closing .paren) := closes
  have reading : parseValue (limit + 1) (t :: subs ++ opener :: (inside ++ [closer]))
      = .ok (.call function es' (some (place.through closer.span))) := by
    rw [List.cons_append] at whole ⊢
    rw [parseValueAssembled unconditional whole, makeCallsCall front balanced back, arguments,
      bindOk, makeCalls]
    exact assembleCall function es' _
  refine ⟨_, ?_, reading, fun other => ?_⟩
  · simp [Expr.bare, same]
  · rw [← (parseValueHigher (Nat.le_max_right other (limit + 1)) _).read reading]
    exact parseValueHigher (Nat.le_max_left other (limit + 1)) _

theorem callOfTwoRead :
    let choice : List Token := [.plain (.keyword .ifWord) ⟨2, 4⟩, .plain (.number "1") ⟨5, 6⟩,
      .plain (.keyword .thenWord) ⟨7, 11⟩, .plain (.number "2") ⟨12, 13⟩,
      .plain (.keyword .elseWord) ⟨14, 18⟩, .plain (.number "3") ⟨19, 20⟩]
    let product : List Token := [.plain (.number "4") ⟨22, 23⟩, .plain (.sign .star) ⟨23, 24⟩,
      .plain (.number "5") ⟨24, 25⟩]
    let literal (n : Int) : Expr := .literal (.integer n) none
    ∃ e, e.bare = .call (.text "f") [.conditional (literal 1) (literal 2) (literal 3) none,
        .binary (.operator .multiplication) (literal 4) (literal 5) none] none ∧
      parseValue valueDepth (.plain (.text "f") ⟨0, 1⟩ :: [] ++ .plain (.opening .paren) ⟨1, 2⟩
        :: (choice ++ .plain .comma ⟨20, 21⟩ :: product ++ [.plain (.closing .paren) ⟨25, 26⟩]))
        = .ok e := by
  intro choice product literal
  have called : parseName subscriptDepth false [.plain (.text "f") ⟨0, 1⟩]
      = .ok (.text "f") := by cbv
  have first : parseValue 327 choice = .ok (.conditional (.literal (.integer 1) (some ⟨5, 6⟩))
      (.literal (.integer 2) (some ⟨12, 13⟩)) (.literal (.integer 3) (some ⟨19, 20⟩))
      (some ⟨2, 20⟩)) := by cbv
  have second : parseValue 327 product = .ok (.binary (.operator .multiplication)
      (.literal (.integer 4) (some ⟨22, 23⟩)) (.literal (.integer 5) (some ⟨24, 25⟩))
      (some ⟨22, 25⟩)) := by cbv
  have listed : Listed [choice, product] (choice ++ .plain .comma ⟨20, 21⟩ :: product) :=
    .more rfl (.last product)
  have opens : (Token.plain (.opening .paren) ⟨1, 2⟩).word? = some (.opening .paren) := rfl
  have closes : (Token.plain (.closing .paren) ⟨25, 26⟩).word? = some (.closing .paren) := rfl
  obtain ⟨e, bare, reads, -⟩ := argumentsReadAlone rfl called (.cons first (.cons second .nil))
    listed opens closes
  exact ⟨e, bare, reads⟩

end Calls

end LiterateMath
