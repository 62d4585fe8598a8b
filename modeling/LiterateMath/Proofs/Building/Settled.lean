import LiterateMath.Proofs.Building.Passes

/-! Commands spelled out among pieces, and pieces that no pass changes any more. The exponent of a
root is spelled out twice and the arguments of a call run through every pass again, and all that
changes nothing. -/
namespace LiterateMath.Building

open Lexical

section Code

structure Clean (t : Token) : Prop where
  visible : isWhitespace t = false
  uncommented : t.word? ≠ some .percent
  same : asKeyword t = t

theorem asKeywordTwice (t : Token) : asKeyword (asKeyword t) = asKeyword t := by
  rw [asKeyword.eq_def t]
  split
  · split
    · rfl
    · rename_i none
      simp only [asKeyword, none]
  · rename_i other
    rw [asKeyword.eq_def]
    split
    · exact absurd rfl (other _ _)
    · rfl

theorem asKeywordVisible {t : Token} (h : isWhitespace t = false) :
    isWhitespace (asKeyword t) = false := by
  unfold asKeyword
  split
  · split
    · rfl
    · exact h
  · exact h

theorem asKeywordPercent {t : Token} (h : t.word? ≠ some .percent) :
    (asKeyword t).word? ≠ some .percent := by
  unfold asKeyword
  split
  · split
    · simp [Token.word?]
    · exact h
  · exact h

theorem dropCommentsUncommented (inComment : Bool) (ts : List Token) :
    ∀ t ∈ dropComments inComment ts, t.word? ≠ some .percent := by
  induction ts generalizing inComment with
  | nil => simp [dropComments]
  | cons t rest ih =>
      rw [dropComments]
      split
      · exact ih true
      · split
        · exact ih true
        · rename_i other
          exact List.forall_mem_cons.mpr ⟨other, ih false⟩

theorem groupCodeClean (inside : List Token) : ∀ t ∈ groupCode inside, Clean t := by
  intro t member
  obtain ⟨t', kept, rfl⟩ := List.mem_map.mp member
  obtain ⟨code, visible⟩ := List.mem_filter.mp kept
  exact ⟨asKeywordVisible (by simpa using visible),
    asKeywordPercent (dropCommentsUncommented false inside t' code), asKeywordTwice t'⟩

theorem groupCodeSame {ts : List Token} (clean : ∀ t ∈ ts, Clean t) : groupCode ts = ts := by
  have code : dropComments false ts = ts := by
    induction ts with
    | nil => rfl
    | cons t rest ih =>
        obtain ⟨first, later⟩ := List.forall_mem_cons.mp clean
        rw [dropComments, if_neg (by simp), if_neg first.uncommented, ih later]
  rw [groupCode, code, normalize, List.filter_eq_self.mpr fun t member => by
    simp [(clean t member).visible]]
  exact (List.map_congr_left fun t member => (clean t member).same).trans (List.map_id' ts)

end Code

section Lowering

theorem putInClean {w : Word} (isPut : w.putIn = true) (place : Span) :
    Clean (.plain w place) ∧ (Token.plain w place).spelledOut = true := by
  unfold Word.putIn at isPut
  split at isPut <;> first | exact ⟨⟨rfl, nofun, rfl⟩, rfl⟩ | cases isPut

theorem cleanKept : KeptByLowering Clean fun t => Clean t ∧ t.spelledOut = true where
  put := putInClean
  stays spelled clean := ⟨clean, spelled⟩
  groups _ _ _ := groupCodeClean _

theorem spelledKept : KeptByLowering (fun _ => True) fun t => t.spelledOut = true where
  put isPut place := (putInClean isPut place).2
  stays spelled _ := spelled
  groups _ _ _ _ _ := trivial

theorem lowerAgain {ts : List Token} (h : ∀ t ∈ ts, Clean t ∧ t.spelledOut = true) (limit : Nat) :
    LiterateMath.lowerCommands (limit + 1) (groupCode ts) = .ok ts := by
  rw [groupCodeSame fun t member => (h t member).1]
  exact lowerSpelledOut (fun t member => (h t member).2) limit

theorem lowerOverIndexAgain {limit : Nat} {index lowered : List Token}
    (h : LiterateMath.lowerCommands limit (groupCode index) = .ok lowered) (place : Span) :
    LiterateMath.lowerCommands limit (groupCode (overIndex place lowered))
      = .ok (overIndex place lowered) := by
  cases limit with
  | zero => cases h
  | succ limit =>
      have spelled := lowerKept cleanKept h (groupCodeClean index)
      exact lowerAgain (overIndexKept cleanKept spelled place) limit

theorem groupBuilt {lower : List Token → Built (List Token)}
    {lower' : List Token → Parsed (List Token)} (same : ∀ ts, lower ts = lift (lower' ts))
    (place : Span) (inside : List Token) : group lower place inside
      = lift ((lower' (groupCode inside)).map (parenthesized place)) := by
  rw [group, same]
  cases lower' (groupCode inside) <;> rfl

theorem lowerSquare (limit : Nat) (radicand : List Token) (place : Span) : (do
      return root place
        (← LiterateMath.lowerCommands limit (groupCode [.plain (.number "2") place]))
        (← LiterateMath.lowerCommands limit (groupCode radicand)) : Parsed (List Token)) = do
      return root place [.plain (.number "2") place]
        (← LiterateMath.lowerCommands limit (groupCode radicand)) := by
  cases limit with
  | zero => rfl
  | succ limit =>
      rw [lowerAgain (List.forall_mem_singleton.mpr (putInClean rfl place)) limit]
      rfl

section Built

variable {limit : Nat}
  (same : ∀ ts, lowerTokens limit ts = lift (LiterateMath.lowerCommands limit ts))

include same

theorem fractionBuilt (required optional : List (List Token)) (place : Span) :
    lowerToken (lowerTokens limit) (.command "frac" required optional place)
      = lift (LiterateMath.lowerToken
          (fun inside => LiterateMath.lowerCommands limit (groupCode inside))
          (.command "frac" required optional place)) := by
  simp only [lowerToken, LiterateMath.lowerToken, if_pos, groupBuilt same]
  by_cases fits : required.length = 2 ∧ optional = []
  · obtain ⟨two, rfl⟩ := fits
    obtain ⟨numerator, denominator, rfl⟩ := List.length_eq_two.mp two
    rw [if_neg (by simp)]
    simp only [itemFirst, itemSecond, bindOk]
    cases LiterateMath.lowerCommands limit (groupCode numerator) with
    | error e => rfl
    | ok above => cases LiterateMath.lowerCommands limit (groupCode denominator) <;> rfl
  · rw [if_pos (not_and_or.mp fits)]
    split
    · exact absurd ⟨rfl, rfl⟩ fits
    · rfl

theorem powerBuilt (index radicand : List Token) (place : Span) : (do
    let exponent ← group (lowerTokens limit) place index
    let radicand ← group (lowerTokens limit) place radicand
    let power ← group (lowerTokens limit) place
      (.plain (.real 1.0) place :: .plain (.sign .slash) place :: exponent)
    return radicand ++ .plain (.sign .caret) place :: power) = lift (do
      return root place (← LiterateMath.lowerCommands limit (groupCode index))
        (← LiterateMath.lowerCommands limit (groupCode radicand))) := by
  simp only [groupBuilt same]
  cases lowers : LiterateMath.lowerCommands limit (groupCode index) with
  | error e => rfl
  | ok exponent =>
      cases LiterateMath.lowerCommands limit (groupCode radicand) with
      | error e => rfl
      | ok inside =>
          have again := lowerOverIndexAgain lowers place
          rw [overIndex] at again
          simp only [Except.map, liftOk, bindOk, again, pureOk]
          rfl

theorem rootBuilt (required optional : List (List Token)) (place : Span) :
    lowerToken (lowerTokens limit) (.command "sqrt" required optional place)
      = lift (LiterateMath.lowerToken
          (fun inside => LiterateMath.lowerCommands limit (groupCode inside))
          (.command "sqrt" required optional place)) := by
  have other : ¬ "sqrt" = "frac" := by decide
  simp only [lowerToken, LiterateMath.lowerToken, if_neg other, if_pos]
  by_cases fits : required.length = 1 ∧ optional.length ≤ 1
  · obtain ⟨one, most⟩ := fits
    obtain ⟨radicand, rfl⟩ := List.length_eq_one_iff.mp one
    rw [if_neg (by simp; omega)]
    cases optional with
    | nil =>
        exact (powerBuilt same _ radicand place).trans
          (congrArg lift (lowerSquare limit radicand place))
    | cons index rest =>
        obtain rfl : rest = [] := by simpa using most
        exact powerBuilt same index radicand place
  · rw [if_pos (by omega)]
    split
    · exact absurd ⟨rfl, by simp⟩ fits
    · exact absurd ⟨rfl, by simp⟩ fits
    · rfl

theorem lowerTokenBuilt (t : Token) : lowerToken (lowerTokens limit) t = lift
    (LiterateMath.lowerToken (fun inside => LiterateMath.lowerCommands limit (groupCode inside))
      t) := by
  cases t with
  | plain w place => rfl
  | command name required optional place =>
      by_cases frac : name = "frac"
      · rw [frac]
        exact fractionBuilt same required optional place
      · by_cases sqrt : name = "sqrt"
        · rw [sqrt]
          exact rootBuilt same required optional place
        · simp only [lowerToken, LiterateMath.lowerToken, if_neg frac, if_neg sqrt]
          rfl

end Built

theorem lowerTokensBuilt (limit : Nat) (ts : List Token) :
    lowerTokens limit ts = lift (LiterateMath.lowerCommands limit ts) := by
  induction limit generalizing ts with
  | zero => rfl
  | succ limit ih =>
      rw [lowerTokens, LiterateMath.lowerCommands, liftMapM fun t _ => lowerTokenBuilt ih t,
        liftBind]
      rfl

theorem lowerPiecesBuilt (limit : Nat) (ts : List Token) :
    (pieces ts).mapM (lowerPiece (lowerTokens limit))
      = lift ((ts.mapM (LiterateMath.lowerToken fun inside =>
        LiterateMath.lowerCommands limit (groupCode inside))).map (List.map pieces)) := by
  induction ts with
  | nil => rfl
  | cons t rest ih =>
      rw [piecesCons, List.mapM_cons, List.mapM_cons, ih, lowerPiece,
        lowerTokenBuilt (lowerTokensBuilt limit)]
      cases LiterateMath.lowerToken _ t with
      | error e => rfl
      | ok out => cases rest.mapM (LiterateMath.lowerToken _) <;> rfl

theorem lowerCommandsBuilt (limit : Nat) (ts : List Token) : lowerCommands limit (pieces ts)
    = lift ((LiterateMath.lowerCommands limit ts).map pieces) := by
  cases limit with
  | zero => rfl
  | succ limit =>
      rw [lowerCommands, LiterateMath.lowerCommands, lowerPiecesBuilt]
      cases ts.mapM (LiterateMath.lowerToken _) with
      | error e => rfl
      | ok parts => exact congrArg Except.ok List.map_flatten.symm

end Lowering

section Joining

def StartsReal (p : Piece) (rest : List Piece) : Prop :=
  ∃ whole middle last fraction more, p.word? = some (.number whole) ∧
    rest = middle :: last :: more ∧ middle.word? = some .point ∧
      last.word? = some (.number fraction)

theorem joinRealsPast {p : Piece} {rest : List Piece} (h : ¬ StartsReal p rest) :
    joinReals (p :: rest) = do return p :: (← joinReals rest) := by
  rw [joinReals]
  split
  · rename_i whole word
    obtain _ | ⟨middle, _ | ⟨last, more⟩⟩ := rest
    · rfl
    · rfl
    · rw [if_pos (by simp)]
      simp only [itemSecond, bindOk,
        show item (p :: middle :: last :: more) 2 = .ok last from rfl]
      split
      · rename_i fraction point number
        exact absurd ⟨whole, middle, last, fraction, more, word, rfl, point, number⟩ h
      · rfl
  · rfl

theorem joinRealsBuilt (ts : List Token) :
    joinReals (pieces ts) = .ok (pieces (LiterateMath.joinReals ts)) := by
  fun_induction LiterateMath.joinReals ts with
  | case1 whole first at_ fraction last rest ih =>
      rw [piecesCons, piecesCons, piecesCons, joinReals]
      simp [Token.word?, item, orBreak, ih, Token.span]
  | case2 t rest single ih =>
      rw [piecesCons, joinRealsPast, ih]
      · rfl
      · rintro ⟨whole, middle, last, fraction, more, word, same, point, number⟩
        obtain ⟨m, tail, rfl, rfl, same'⟩ := List.map_eq_cons_iff.mp same
        obtain ⟨l, after, rfl, rfl, -⟩ := List.map_eq_cons_iff.mp same'
        exact single whole t.span m.span fraction l.span after (plainOf word)
          (by rw [← plainOf point, ← plainOf number])
  | case3 =>
      rw [piecesNil, joinReals]

def Joined : List Piece → Prop
  | [] => True
  | p :: rest => ¬ StartsReal p rest ∧ Joined rest

theorem StartsReal.longer {p : Piece} {rest : List Piece} (h : StartsReal p rest)
    (others : List Piece) : StartsReal p (rest ++ others) := by
  obtain ⟨whole, middle, last, fraction, more, word, rfl, point, number⟩ := h
  exact ⟨whole, middle, last, fraction, more ++ others, word, rfl, point, number⟩

theorem Joined.parts {ps qs : List Piece} (h : Joined (ps ++ qs)) : Joined ps ∧ Joined qs := by
  induction ps with
  | nil => exact ⟨trivial, h⟩
  | cons p rest ih =>
      obtain ⟨here, later⟩ := ih h.2
      exact ⟨⟨fun starts => h.1 (starts.longer qs), here⟩, later⟩

theorem joinRealsJoined {ps : List Piece} (h : Joined ps) : joinReals ps = .ok ps := by
  induction ps with
  | nil => rw [joinReals]
  | cons p rest ih =>
      rw [joinRealsPast h.1, ih h.2]
      rfl

theorem joinRealsFront {ts more : List Token} {m : Token}
    (h : LiterateMath.joinReals ts = m :: more) (unreal : ∀ v, m.word? ≠ some (.real v)) :
    ∃ rest, ts = m :: rest ∧ LiterateMath.joinReals rest = more := by
  unfold LiterateMath.joinReals at h
  split at h
  · cases h
    exact absurd rfl (unreal _)
  · cases h
    exact ⟨_, rfl, rfl⟩
  · cases h

theorem joinedReals (ts : List Token) : Joined (pieces (LiterateMath.joinReals ts)) := by
  fun_induction LiterateMath.joinReals ts with
  | case1 whole first at_ fraction last rest ih =>
      refine ⟨?_, ih⟩
      rintro ⟨_, _, _, _, _, word, -⟩
      cases word
  | case2 t rest single ih =>
      refine ⟨?_, ih⟩
      rintro ⟨whole, middle, last, fraction, more, word, same, point, number⟩
      obtain ⟨m, tail, front, rfl, same'⟩ := List.map_eq_cons_iff.mp same
      obtain ⟨n, tail, rfl, rfl, -⟩ := List.map_eq_cons_iff.mp same'
      obtain ⟨rest, rfl, front'⟩ := joinRealsFront front fun v other => by
        cases point.symm.trans other
      obtain ⟨rest, rfl, -⟩ := joinRealsFront front' fun v other => by
        cases number.symm.trans other
      exact single whole t.span m.span fraction n.span rest (plainOf word)
        (by rw [← plainOf point, ← plainOf number])
  | case3 => trivial

theorem gatherNamesFront {limit : Nat} {ts : List Token} {p : Piece} {more : List Piece} {w : Word}
    (h : gatherNamesWithin limit ts = .ok (p :: more)) (word : p.word? = some w) :
    ∃ t rest, ts = t :: rest ∧ p = .token t ∧ gatherNamesWithin limit rest = .ok more := by
  unfold gatherNamesWithin at h
  split at h
  · cases h
  · rename_i t rest
    split at h
    · split at h
      · cases h
      · obtain ⟨name, -, h⟩ := bindIsOk.mp h
        obtain ⟨others, -, same⟩ := bindIsOk.mp h
        cases same
        cases word
    · obtain ⟨others, later, same⟩ := bindIsOk.mp h
      cases same
      exact ⟨t, rest, rfl, rfl, later⟩

theorem gatherNamesJoined {limit : Nat} {ts : List Token} {ps : List Piece}
    (h : gatherNamesWithin limit ts = .ok ps) (joined : Joined (pieces ts)) : Joined ps := by
  fun_induction gatherNamesWithin limit ts generalizing ps with
  | case1 =>
      cases h
      trivial
  | case2 => cases h
  | case3 t rest starts subs after taken ih =>
      obtain ⟨name, -, h⟩ := bindIsOk.mp h
      obtain ⟨others, later, same⟩ := bindIsOk.mp h
      cases same
      obtain rfl := takeSubscriptsParts taken
      rw [piecesCons, piecesAppend] at joined
      refine ⟨?_, ih later joined.2.parts.2⟩
      rintro ⟨_, _, _, _, _, word, -⟩
      cases word
  | case4 t rest other ih =>
      obtain ⟨others, later, same⟩ := bindIsOk.mp h
      cases same
      refine ⟨?_, ih later joined.2⟩
      rintro ⟨whole, middle, last, fraction, more, word, rfl, point, number⟩
      obtain ⟨m, rest, rfl, rfl, later'⟩ := gatherNamesFront later point
      obtain ⟨n, rest, rfl, rfl, -⟩ := gatherNamesFront later' number
      exact joined.1 ⟨whole, _, _, fraction, _, word, rfl, point, number⟩

end Joining

section Settled

def isSettled : Piece → Prop
  | .token t => t.spelledOut = true ∧ startsName t = false
  | _ => True

structure Settled (ps : List Piece) : Prop where
  each : ∀ p ∈ ps, isSettled p
  joined : Joined ps

theorem Settled.within {ps qs : List Piece} (h : Settled ps) (within : qs <:+: ps) :
    Settled qs := by
  refine ⟨fun p member => h.each p (within.subset member), ?_⟩
  obtain ⟨us, vs, rfl⟩ := within
  exact h.joined.parts.1.parts.2

theorem lowerPieceSettled {p : Piece} (h : isSettled p) (lower : List Token → Built (List Token)) :
    lowerPiece lower p = .ok [p] := by
  match p with
  | .token (.plain w place) =>
      have unsized : isSizing (.plain w place) = false := by
        simpa [Token.spelledOut, Token.word?] using h.1
      simp [lowerPiece, lowerToken, unsized]
  | .token (.command ..) => cases h.1
  | .name .. => rfl
  | .call .. => rfl

theorem lowerSettled {ps : List Piece} (h : ∀ p ∈ ps, isSettled p) (limit : Nat) :
    lowerCommands (limit + 1) ps = .ok ps := by
  have each : ps.mapM (lowerPiece (lowerTokens limit)) = .ok (ps.map fun p => [p]) := by
    induction ps with
    | nil => rfl
    | cons p rest ih =>
        obtain ⟨first, later⟩ := List.forall_mem_cons.mp h
        rw [List.mapM_cons, lowerPieceSettled first, ih later]
        rfl
  rw [lowerCommands, each]
  exact congrArg Except.ok (List.flatMap_singleton' ps)

theorem gatherSettled {ps : List Piece} (h : ∀ p ∈ ps, isSettled p) (limit : Nat) :
    gatherNames limit ps = .ok ps := by
  induction ps with
  | nil => rw [gatherNames]
  | cons p rest ih =>
      obtain ⟨first, later⟩ := List.forall_mem_cons.mp h
      have unnamed : isName p = false := by
        cases p with
        | token t => exact first.2
        | _ => rfl
      rw [gatherNames, if_neg (by simp [unnamed]), ih later]
      rfl

theorem gatherNamesSettled {limit : Nat} {ts : List Token} {ps : List Piece}
    (h : gatherNamesWithin limit ts = .ok ps) (spelled : ∀ t ∈ ts, t.spelledOut = true) :
    ∀ p ∈ ps, isSettled p := by
  fun_induction gatherNamesWithin limit ts generalizing ps with
  | case1 =>
      cases h
      simp
  | case2 => cases h
  | case3 t rest starts subs after taken ih =>
      obtain ⟨name, -, h⟩ := bindIsOk.mp h
      obtain ⟨others, later, same⟩ := bindIsOk.mp h
      cases same
      obtain rfl := takeSubscriptsParts taken
      exact List.forall_mem_cons.mpr
        ⟨trivial, ih later fun t' member => spelled t' (by simp [member])⟩
  | case4 t rest other ih =>
      obtain ⟨others, later, same⟩ := bindIsOk.mp h
      cases same
      obtain ⟨first, rest⟩ := List.forall_mem_cons.mp spelled
      exact List.forall_mem_cons.mpr ⟨⟨first, by simpa using other⟩, ih later rest⟩

theorem toPiecesSettled {l : Limits} {ts : List Token} {ps : List Piece}
    (h : toPiecesWithin l ts = .ok ps) : Settled ps := by
  obtain ⟨lowered, spelled, gathered⟩ := bindIsOk.mp h
  have plain := joinRealsKept spelledKept (lowerKept spelledKept spelled fun _ _ => trivial)
  exact ⟨gatherNamesSettled gathered plain, gatherNamesJoined gathered (joinedReals lowered)⟩

end Settled

end LiterateMath.Building
