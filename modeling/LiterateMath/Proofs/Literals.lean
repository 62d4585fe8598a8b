import LiterateMath.Proofs.Limits

/-! What reading can fail for, whatever the limits. A text may be malformed. No pass makes a
number, so where a literal is too long the slice has it among its words; and nothing goes too deep
that is smaller than its limit. -/
namespace LiterateMath

open Lexical

theorem FailsOnly.foldlM {ε α β : Type} {kind : ε → Prop} {f : β → α → Except ε β} {as : List α}
    (each : ∀ b, ∀ a ∈ as, FailsOnly kind (f b a)) (b : β) : FailsOnly kind (as.foldlM f b) := by
  induction as generalizing b with
  | nil => exact .ok b
  | cons a rest ih =>
      rw [List.foldlM_cons]
      refine (each b a List.mem_cons_self).bind fun next _ => ih ?_ next
      exact fun b a member => each b a (List.mem_cons_of_mem _ member)

section Short

def Token.short (t : Token) : Prop :=
  ∀ digits, Word.number digits ∈ t.words → digits.length ≤ longestLiteral

theorem asKeywordShort {t : Token} (h : t.short) : (asKeyword t).short := by
  unfold asKeyword
  split
  · split
    · rintro digits member
      cases List.mem_singleton.mp member
    · exact h
  · exact h

theorem shortKept : KeptByLowering Token.short Token.short where
  put isPut place digits member := by
    cases List.mem_singleton.mp member
    obtain rfl : digits = "2" := of_decide_eq_true isPut
    decide
  stays _ h := h
  groups whole group member t inside := by
    obtain ⟨t', kept, rfl⟩ := List.mem_map.mp inside
    refine asKeywordShort fun digits word => whole digits ?_
    rw [Token.words, groupWordsMap, groupWordsMap, ← List.flatMap_append]
    refine List.mem_flatMap.mpr ⟨group, member, ?_⟩
    rw [tokenWordsMap]
    exact List.mem_flatMap.mpr
      ⟨t', dropCommentsPart false group (List.mem_filter.mp kept).1, word⟩

def Piece.short : Piece → Prop
  | token t => t.short
  | _ => True

def Operand.short : Operand → Prop
  | number digits => digits.length ≤ longestLiteral
  | _ => True

def Postfix.short : Postfix → Prop
  | operand o _ => o.short
  | operation .. => True

theorem gatherNamesShort {limit : Nat} {ts : List Token} {ps : List Piece}
    (h : gatherNamesWithin limit ts = .ok ps) (short : ∀ t ∈ ts, t.short) : ∀ p ∈ ps, p.short := by
  fun_induction gatherNamesWithin limit ts generalizing ps with
  | case1 =>
      cases h
      simp
  | case2 => cases h
  | case3 t rest starts subs after taken ih =>
      obtain rfl := takeSubscriptsParts taken
      obtain ⟨name, -, h⟩ := bindIsOk.mp h
      obtain ⟨others, later, same⟩ := bindIsOk.mp h
      cases same
      intro p member
      rcases List.mem_cons.mp member with rfl | inside
      · trivial
      · exact ih later (fun t' kept => short t' (by simp [kept])) p inside
  | case4 t rest other ih =>
      obtain ⟨others, later, same⟩ := bindIsOk.mp h
      cases same
      intro p member
      rcases List.mem_cons.mp member with rfl | inside
      · exact short t List.mem_cons_self
      · exact ih later (fun t' kept => short t' (by simp [kept])) p inside

theorem toPiecesShort {l : Limits} {ts : List Token} {ps : List Piece}
    (h : toPiecesWithin l ts = .ok ps) (short : ∀ t ∈ ts, t.short) : ∀ p ∈ ps, p.short := by
  obtain ⟨lowered, spelled, gathered⟩ := bindIsOk.mp h
  exact gatherNamesShort gathered (joinRealsKept shortKept (lowerKept shortKept spelled short))

theorem calledShort {parse : List Piece → Parsed Expr} {ps qs : List Piece}
    (h : Called parse ps qs) (short : ∀ p ∈ ps, p.short) : ∀ q ∈ qs, q.short := by
  induction h with
  | nil => exact short
  | call _ _ _ _ _ ih =>
      intro q member
      rcases List.mem_cons.mp member with rfl | later
      · trivial
      · exact ih (fun p kept => short p (by simp [kept])) q later
  | other _ _ ih =>
      intro q member
      rcases List.mem_cons.mp member with rfl | later
      · exact short q List.mem_cons_self
      · exact ih (fun p kept => short p (List.mem_cons_of_mem _ kept)) q later

theorem roleShort {p : Piece} {expecting : Bool} {o : Operand} (h : p.short)
    (role : p.role expecting = .operand o) : o.short := by
  cases p with
  | token t =>
      cases t with
      | plain w place =>
          cases w with
          | number digits =>
              cases role
              exact h digits List.mem_cons_self
          | real value =>
              cases role
              trivial
          | sign s =>
              simp only [Piece.role, Word.role] at role
              split at role <;> cases role
          | _ => cases role
      | command => cases role
  | _ =>
      cases role
      trivial

end Short

def Reaches (kind : ParseFailure → Prop) (limit size : Nat) : Prop :=
  kind .tooDeep ∨ size < limit

def Readable (kind : ParseFailure → Prop) (short : Prop) : Prop := kind .literalTooLong ∨ short

section Names

variable {kind : ParseFailure → Prop} {limit size : Nat}

theorem Reaches.within {smaller : Nat} (h : Reaches kind limit size) (less : smaller ≤ size) :
    Reaches kind limit smaller := h.imp_right fun bound => by omega

theorem Reaches.below {smaller : Nat} (h : Reaches kind (limit + 1) size) (less : smaller < size) :
    Reaches kind limit smaller := h.imp_right fun bound => by omega

theorem Reaches.zero (h : Reaches kind 0 size) : kind .tooDeep :=
  h.resolve_right (Nat.not_lt_zero _)

theorem Readable.mono {short short' : Prop} (h : Readable kind short) (more : short → short') :
    Readable kind short' := h.imp_right more

variable (proper : ∀ fault place, kind (.malformed fault place))
include proper

theorem malformedFails {α : Type} (fault : ParseFault) (place : Option Span) :
    FailsOnly kind (malformed fault place : Parsed α) := .error (proper fault place)

theorem checkClosingFails {α : Type} [Lexical α] (b : Bracket) (opener : Span) (closer : α) :
    FailsOnly kind (checkClosing b opener closer) := by
  unfold checkClosing
  split
  · exact .ok ()
  · exact malformedFails proper _ _

theorem stripBracesFails (ts : List Token) : FailsOnly kind (stripBraces ts) := by
  fun_induction stripBraces ts with
  | case1 => exact .ok _
  | case2 => exact .ok _
  | case3 t rest _ inside closer after cut ih =>
      refine (checkClosingFails proper _ _ _).bind fun _ _ => ?_
      split
      · exact ih
      · exact .ok _
  | case4 => exact .ok _

theorem parseAtomFails (asSubscript : Bool) (ts : List Token) :
    FailsOnly kind (parseAtom asSubscript ts) := by
  unfold parseAtom
  repeat' split
  all_goals first | exact .ok _ | exact malformedFails proper _ _

theorem parseNameFails (asSubscript : Bool) (ts : List Token)
    (enough : Reaches kind limit ts.length) :
    FailsOnly kind (parseName limit asSubscript ts) := by
  induction limit generalizing asSubscript ts with
  | zero => exact .error enough.zero
  | succ limit ih =>
      refine (stripBracesFails proper ts).bind fun stripped strips => ?_
      have shorter := stripBracesLength strips
      split
      · exact parseAtomFails proper asSubscript stripped
      · rename_i base sub cut
        obtain ⟨u, -, rfl⟩ := splitOnceFound cut
        simp only [List.length_append, List.length_cons] at shorter
        exact (ih _ _ (enough.below (by omega))).bind fun _ _ =>
          (ih _ _ (enough.below (by omega))).bind fun _ _ => .ok _

theorem takeSubscriptsFails (ts : List Token) : FailsOnly kind (takeSubscripts ts) := by
  fun_induction takeSubscripts ts with
  | case1 => exact .ok _
  | case2 => exact malformedFails proper _ _
  | case3 => exact malformedFails proper _ _
  | case4 u _ t rest _ inside closer after cut ih =>
      exact (checkClosingFails proper _ _ _).bind fun _ _ => ih.bind fun _ _ => .ok _
  | case5 u _ t rest _ ih => exact ih.bind fun _ _ => .ok _
  | case6 => exact .ok _

theorem gatheringFails (ts : List Token) (enough : Reaches kind limit ts.length) :
    FailsOnly kind (gatherNamesWithin limit ts) := by
  fun_induction gatherNamesWithin limit ts with
  | case1 => exact .ok _
  | case2 t rest _ failure taken => exact .error (takeSubscriptsFails proper rest failure taken)
  | case3 t rest _ subs after taken ih =>
      have := takeSubscriptsLength taken
      simp only [List.length_cons] at enough
      refine (parseNameFails proper _ _ (enough.within ?_)).bind fun _ _ => ?_
      · simp only [List.length_cons]
        omega
      · exact (ih (enough.within (by omega))).bind fun _ _ => .ok _
  | case4 t rest _ ih =>
      simp only [List.length_cons] at enough
      exact (ih (enough.within (by omega))).bind fun _ _ => .ok _

theorem lowerTokenFails {lower : List Token → Parsed (List Token)} (t : Token)
    (fails : ∀ g, nesting (groupCode g) < t.nesting → FailsOnly kind (lower g)) :
    FailsOnly kind (lowerToken lower t) := by
  cases t with
  | plain w place => exact .ok _
  | command name required optional place =>
      have group {g : List Token} (member : g ∈ required ++ optional) : FailsOnly kind (lower g) :=
        fails g (groupCodeSmaller member).2
      simp only [lowerToken]
      split
      · split
        · exact (group (by simp)).bind fun _ _ => (group (by simp)).bind fun _ _ => .ok _
        · exact malformedFails proper _ _
      · split
        · split
          · exact (group (by simp)).bind fun _ _ => .ok _
          · exact (group (by simp)).bind fun _ _ => (group (by simp)).bind fun _ _ => .ok _
          · exact malformedFails proper _ _
        · exact malformedFails proper _ _

theorem lowerCommandsFails (ts : List Token) (enough : Reaches kind limit (nesting ts)) :
    FailsOnly kind (lowerCommands limit ts) := by
  induction limit generalizing ts with
  | zero => exact .error enough.zero
  | succ limit ih =>
      refine FailsOnly.bind (.mapM fun t member => ?_) fun _ _ => .ok _
      have within : t.nesting ≤ nesting ts := by
        have single := nestingSublist (List.singleton_sublist.mpr member)
        simpa [nesting] using single
      exact lowerTokenFails proper t fun g deeper => ih (groupCode g) (enough.below (by omega))

theorem toPiecesFails {l : Limits} (ts : List Token)
    (commands : Reaches kind l.commands (nesting ts)) (names : Reaches kind l.names (bulk ts)) :
    FailsOnly kind (toPiecesWithin l ts) := by
  refine (lowerCommandsFails proper ts commands).bind fun lowered spelled => ?_
  have shorter := (joinRealsLength lowered).trans (lowerLength spelled)
  exact gatheringFails proper _ (names.within shorter)

end Names

section Values

variable {kind : ParseFailure → Prop} (proper : ∀ fault place, kind (.malformed fault place))
include proper

theorem stepFails (y : Yard) (p : Piece) : FailsOnly kind (y.step p) := by
  unfold Yard.step Yard.close
  dsimp only
  repeat' split
  all_goals first | exact .ok _ | exact malformedFails proper _ _

theorem toPostfixFails (ps : List Piece) : FailsOnly kind (toPostfix ps) := by
  refine (FailsOnly.foldlM (fun y p _ => stepFails proper y p) _).bind fun y _ => ?_
  unfold Yard.finish
  dsimp only
  split
  · exact malformedFails proper _ _
  · exact .ok _

omit proper in
theorem toExprFails {o : Operand} (readable : Readable kind o.short) (place : Span) :
    FailsOnly kind (o.toExpr place) := by
  cases o with
  | number digits =>
      rw [Operand.toExpr]
      split
      · rename_i long
        exact .error (readable.resolve_right fun short => Nat.not_lt.mpr short long)
      · exact .ok _
  | _ => exact .ok _

theorem applyItemFails {item : Postfix} (readable : Readable kind item.short)
    (operands : List Expr) : FailsOnly kind (applyItem operands item) := by
  unfold applyItem
  split
  · exact (toExprFails readable _).bind fun _ _ => .ok _
  all_goals
    split
    · exact .ok _
    · exact malformedFails proper _ _

theorem foldFails {items : List Postfix} (readable : Readable kind (∀ i ∈ items, i.short))
    (place : Option Span) : FailsOnly kind (fold items place) := by
  have applied := FailsOnly.foldlM fun operands i member =>
    applyItemFails proper (readable.mono fun short => short i member) operands
  refine (applied []).bind fun operands _ => ?_
  split
  · exact .ok _
  · exact malformedFails proper _ _

theorem assembleFails {ps : List Piece} (readable : Readable kind (∀ p ∈ ps, p.short)) :
    FailsOnly kind (assemble ps) := by
  refine (toPostfixFails proper ps).bind fun items put => ?_
  have items : Readable kind (∀ i ∈ items, i.short) := readable.mono fun short =>
    postfixKept put (fun _ _ => trivial) fun p member _ _ role => roleShort (short p member) role
  exact (foldFails proper items _).bind fun _ _ => .ok _

theorem parseConditionalFails {α : Type} [Lexical α] {parse : List α → Parsed Expr} {first : α}
    {rest : List α} (fails : ∀ part, part.Sublist rest → FailsOnly kind (parse part)) :
    FailsOnly kind (parseConditional parse first rest) := by
  have split : FailsOnly kind (splitConditional first rest) := by
    unfold splitConditional
    repeat' split
    all_goals first | exact .ok _ | exact malformedFails proper _ _
  refine split.bind fun ⟨condition, ifTrue, ifFalse⟩ parts => ?_
  obtain ⟨more, cut, cut', -⟩ := splitConditionalOk.mp parts
  obtain ⟨thenWord, -, rfl⟩ := cutAtKeywordFound cut
  obtain ⟨elseWord, -, rfl⟩ := cutAtKeywordFound cut'
  have after : (ifTrue ++ elseWord :: ifFalse).Sublist
      (condition ++ thenWord :: (ifTrue ++ elseWord :: ifFalse)) :=
    (List.sublist_cons_self _ _).trans (List.sublist_append_right _ _)
  have last : ifFalse.Sublist (ifTrue ++ elseWord :: ifFalse) :=
    (List.sublist_cons_self _ _).trans (List.sublist_append_right _ _)
  exact (fails _ (List.sublist_append_left _ _)).bind fun _ _ =>
    (fails _ ((List.sublist_append_left _ _).trans after)).bind fun _ _ =>
      (fails _ (last.trans after)).bind fun _ _ => .ok _

omit proper in
theorem parseArgumentsFails {parse : List Piece → Parsed Expr} {inside : List Piece}
    (fails : ∀ part, part.Sublist inside → FailsOnly kind (parse part)) :
    FailsOnly kind (parseArguments parse inside) := by
  unfold parseArguments
  split
  · exact .ok _
  · exact FailsOnly.mapM fun part found =>
      fails part (splitTopSublist found)

theorem makeCallsFails {parse : List Piece → Parsed Expr} {ps : List Piece}
    (fails : ∀ part, part.Sublist ps → part.length < ps.length → FailsOnly kind (parse part)) :
    FailsOnly kind (makeCalls parse ps) := by
  fun_induction makeCalls parse ps with
  | case1 => exact .ok _
  | case2 => exact malformedFails proper _ _
  | case3 function place opener rest _ inside closer after cut ih =>
      obtain ⟨rfl, -, -⟩ := splitClosingFound cut
      have within :
          inside.Sublist (.name function place :: opener :: (inside ++ closer :: after)) :=
        ((List.sublist_append_left inside _).cons _).cons _
      have behind : after.Sublist (inside ++ closer :: after) :=
        (List.sublist_cons_self closer after).trans (List.sublist_append_right inside _)
      have later : after.Sublist (.name function place :: opener :: (inside ++ closer :: after)) :=
        (behind.cons _).cons _
      refine (checkClosingFails proper _ _ _).bind fun _ _ => ?_
      refine (parseArgumentsFails fun part found =>
        fails part (found.trans within) ?_).bind fun _ _ => ?_
      · have := found.length_le
        simp only [List.length_cons, List.length_append]
        omega
      · refine (ih fun part found shorter =>
          fails part (found.trans later) ?_).bind fun _ _ => .ok _
        have := later.length_le
        omega
  | case4 function place opener rest _ ih =>
      refine (ih fun part found shorter => fails part (found.cons _) ?_).bind fun _ _ => .ok _
      exact shorter.trans (by simp)
  | case5 p rest _ ih =>
      refine (ih fun part found shorter => fails part (found.cons _) ?_).bind fun _ _ => .ok _
      exact shorter.trans (by simp)

theorem calledFails {parse : List Piece → Parsed Expr} {ps : List Piece}
    (fails : ∀ part, part.Sublist ps → part.length < ps.length → FailsOnly kind (parse part))
    (readable : Readable kind (∀ p ∈ ps, p.short)) :
    FailsOnly kind (makeCalls parse ps >>= assemble) :=
  (makeCallsFails proper fails).bind fun _ made =>
    assembleFails proper (readable.mono fun short => calledShort (makeCallsCalled.mp made) short)

theorem parseArgumentFails {limit : Nat} {ps : List Piece} (enough : Reaches kind limit ps.length)
    (readable : Readable kind (∀ p ∈ ps, p.short)) : FailsOnly kind (parseArgument limit ps) := by
  induction limit generalizing ps with
  | zero => exact .error enough.zero
  | succ limit ih =>
      have part {qs : List Piece} (inside : qs.Sublist ps) (shorter : qs.length < ps.length) :
          FailsOnly kind (parseArgument limit qs) :=
        ih (enough.below shorter) (readable.mono fun short q member => short q (inside.mem member))
      cases ps with
      | nil => exact malformedFails proper _ _
      | cons p rest =>
          rw [parseArgument]
          split
          · refine parseConditionalFails proper fun qs inside => part (inside.cons p) ?_
            exact Nat.lt_succ_of_le inside.length_le
          · exact calledFails proper (fun _ inside shorter => part inside shorter) readable

variable {l : Limits}

theorem parseValueFails {limit : Nat} {ts : List Token} (values : Reaches kind limit (bulk ts))
    (commands : Reaches kind l.commands (nesting ts)) (names : Reaches kind l.names (bulk ts))
    (readable : Readable kind (∀ t ∈ ts, t.short)) :
    FailsOnly kind (parseValueWithin l limit ts) := by
  induction limit generalizing ts with
  | zero => exact .error values.zero
  | succ limit ih =>
      cases ts with
      | nil => exact malformedFails proper _ _
      | cons t rest =>
          rw [parseValueWithin]
          split
          · rename_i starts
            have keyword : t.bulk = 1 := by
              cases t with
              | plain => rfl
              | command => cases of_decide_eq_true starts
            refine parseConditionalFails proper fun part inside => ?_
            have whole := inside.cons t
            have smaller := bulkSublist inside
            refine ih (values.below ?_) (commands.within (nestingSublist whole))
              (names.within (bulkSublist whole))
              (readable.mono fun short t' member => short t' (whole.mem member))
            rw [bulk, keyword]
            omega
          · refine (toPiecesFails proper _ commands names).bind fun ps made => ?_
            have short := readable.mono fun short => toPiecesShort made short
            have length := toPiecesLength made
            refine calledFails proper (fun part inside shorter => ?_) short
            exact parseArgumentFails proper (values.below (by omega))
              (short.mono fun short p member => short p (inside.mem member))

end Values

section Statements

variable {kind : ParseFailure → Prop} (proper : ∀ fault place, kind (.malformed fault place))
  {l : Limits}

structure Limits.Reach (l : Limits) (kind : ParseFailure → Prop) (ts : List Token) : Prop where
  values : Reaches kind l.values (bulk ts)
  commands : Reaches kind l.commands (nesting ts)
  names : Reaches kind l.names (bulk ts)

theorem Limits.Reach.sublist {as bs : List Token} (h : l.Reach kind bs) (inside : as.Sublist bs) :
    l.Reach kind as where
  values := h.values.within (bulkSublist inside)
  commands := h.commands.within (nestingSublist inside)
  names := h.names.within (bulkSublist inside)

omit proper in
theorem listFails {α : Type} {read : List Token → Parsed α} {inside : List Token}
    (fails : ∀ part, part.Sublist inside → FailsOnly kind (read part)) :
    FailsOnly kind (listWithin read inside) := by
  unfold listWithin
  split
  · exact .ok _
  · exact FailsOnly.mapM fun part found =>
      fails part (splitTopSublist found)

include proper

theorem nameFails {ts : List Token} (enough : l.Reach kind ts) :
    FailsOnly kind (parseName l.names false ts) :=
  parseNameFails proper false ts (enough.names.within (bulkLength ts))

theorem valueFails {ts : List Token} (enough : l.Reach kind ts)
    (readable : Readable kind (∀ t ∈ ts, t.short)) :
    FailsOnly kind (parseValueWithin l l.values ts) :=
  parseValueFails proper enough.values enough.commands enough.names readable

theorem declarationFails {name signature : List Token} {place : Option Span}
    (enough : l.Reach kind name) : FailsOnly kind (declarationWithin l name signature place) := by
  have numberSet (role : String) (near : Option Span) (ts : List Token) :
      FailsOnly kind (parseNumberSet role near ts) := by
    unfold parseNumberSet
    split
    · exact .ok _
    · exact malformedFails proper _ _
  refine (nameFails proper enough).bind fun _ _ => ?_
  split
  · exact malformedFails proper _ _
  · exact (numberSet _ _ _).bind fun _ _ => (numberSet _ _ _).bind fun _ _ => .ok _

theorem definitionFails {signature body : List Token} (before : l.Reach kind signature)
    (after : l.Reach kind body) (readable : Readable kind (∀ t ∈ body, t.short)) :
    FailsOnly kind (definitionWithin l signature body) := by
  unfold definitionWithin
  split
  · exact malformedFails proper _ _
  · rename_i name opener rest cut
    obtain ⟨-, rfl⟩ := cutAtFound cut
    split
    · exact malformedFails proper _ _
    · rename_i inside closer tail closing
      obtain ⟨rfl, -, -⟩ := splitClosingFound closing
      have within : inside.Sublist (name ++ opener :: (inside ++ closer :: tail)) :=
        ((List.sublist_append_left inside _).cons _).trans (List.sublist_append_right _ _)
      refine (checkClosingFails proper _ _ _).bind fun _ _ => ?_
      dsimp only
      split
      · exact malformedFails proper _ _
      · refine (nameFails proper (before.sublist (List.sublist_append_left _ _))).bind fun _ _ => ?_
        refine (listFails fun part found =>
          nameFails proper (before.sublist (found.trans within))).bind fun _ _ => ?_
        split
        · exact malformedFails proper _ _
        · exact (valueFails proper after readable).bind fun _ _ => .ok _

theorem valueDeclarationFails {name value : List Token} (before : l.Reach kind name)
    (after : l.Reach kind value) (readable : Readable kind (∀ t ∈ value, t.short)) :
    FailsOnly kind (valueDeclarationWithin l name value) := by
  refine (nameFails proper before).bind fun _ _ => ?_
  split
  · rename_i opener rest
    split
    · exact malformedFails proper _ _
    · rename_i inside closer tail closing
      obtain ⟨rfl, -, -⟩ := splitClosingFound closing
      have within : inside.Sublist (.plain (.opening .escapedBrace) opener
          :: (inside ++ closer :: tail)) := (List.sublist_append_left inside _).cons _
      refine (checkClosingFails proper _ _ _).bind fun _ _ => ?_
      dsimp only
      split
      · exact malformedFails proper _ _
      · refine FailsOnly.bind (listFails fun part found => ?_) fun _ _ => .ok _
        have whole := found.trans within
        exact valueFails proper (after.sublist whole)
          (readable.mono fun short t member => short t (whole.mem member))
  · exact (valueFails proper after readable).bind fun _ _ => .ok _

theorem parseStatementFails {slice : List Token} (enough : l.Reach kind slice)
    (readable : Readable kind (∀ t ∈ slice, t.short)) :
    FailsOnly kind (parseStatementWithin l slice) := by
  unfold parseStatementWithin shape
  cases cut : cutAt isDecidingSign slice with
  | none => exact (valueFails proper enough readable).bind fun _ _ => .ok _
  | some parts =>
      obtain ⟨before, sign, after⟩ := parts
      obtain ⟨-, rfl⟩ := cutAtFound cut
      have front := enough.sublist (List.sublist_append_left before (sign :: after))
      have tail : after.Sublist (before ++ sign :: after) :=
        (List.sublist_cons_self sign after).trans (List.sublist_append_right before _)
      have back := readable.mono fun short t member => short t (tail.mem member)
      by_cases colon : sign.word? = some .colon
      · simp only [if_pos colon]
        exact (declarationFails proper front).bind fun _ _ => .ok _
      · simp only [if_neg colon]
        by_cases paren : mentions (.opening .paren) before = true
        · simp only [if_pos paren]
          exact (definitionFails proper front (enough.sublist tail) back).bind fun _ _ => .ok _
        · simp only [if_neg paren]
          exact (valueDeclarationFails proper front (enough.sublist tail) back).bind
            fun _ _ => .ok _

omit proper in
theorem shortSlice {slice : List Token} (none : ¬ ∃ digits, Word.number digits ∈ tokenWords slice ∧
    longestLiteral < digits.length) : ∀ t ∈ slice, t.short := by
  refine fun t member digits word => Nat.not_lt.mp fun long => none ⟨digits, ?_, long⟩
  rw [tokenWordsMap]
  exact List.mem_flatMap.mpr ⟨t, member, word⟩

omit proper in
theorem longLiteralInSlice {slice : List Token}
    (failed : parseStatement slice = .error .literalTooLong) :
    ∃ digits, Word.number digits ∈ tokenWords slice ∧ longestLiteral < digits.length := by
  by_contra none
  rw [← parseStatementStandard] at failed
  have deep : (.tooDeep : ParseFailure) ≠ .literalTooLong := nofun
  have others : FailsOnly (· ≠ .literalTooLong) (parseStatementWithin .standard slice) :=
    parseStatementFails (fun _ _ => nofun) ⟨.inl deep, .inl deep, .inl deep⟩
      (.inr (shortSlice none))
  exact others _ failed rfl

end Statements

section Documents

theorem filterRegionsFits (inComment : Bool) (opened : Option (Region × Span)) (ts : List Token) :
    FailsOnly (· ≠ .literalTooLong) (filterRegions inComment opened ts) := by
  fun_induction filterRegions inComment opened ts with
  | case1 => exact .ok _
  | case2 => exact .error nofun
  | _ =>
      rename_i ih
      first | exact ih | exact ih.bind fun _ _ => .ok _

theorem codeTokensFits (text : String) : FailsOnly (· ≠ .literalTooLong) (codeTokens text) := by
  refine FailsOnly.bind ?_ fun tokens _ => filterRegionsFits _ _ tokens
  unfold commandTokens
  dsimp only
  split
  · exact .error nofun
  · exact .ok _

end Documents
end LiterateMath
