import LiterateMath.Proofs.Calls
import LiterateMath.Proofs.Passes
import LiterateMath.Proofs.Places.Basic

/-! Reading does not look at places. Tokens in other places are read as the same statements
in other places, or not read for the same reason. -/
namespace LiterateMath

variable {r : Relocation}

section Names

@[simp] theorem wordMoved (t : Token) : (t.moved r).word? = t.word? := (tokenMoves r).word t

@[simp] theorem spanMoved (t : Token) : (t.moved r).span = r.move t.span := (tokenMoves r).span t

@[simp] theorem opensMoved (b : Bracket) (t : Token) : (t.moved r).opens b = t.opens b := by
  cases t with
  | plain w place => cases w <;> rfl
  | command => rfl

theorem plainOfMoved {t : Token} {w : Word} {place : Span} (h : t.moved r = .plain w place) :
    ∃ before, t = .plain w before := by
  cases t with
  | plain w' before =>
      cases h
      exact ⟨before, rfl⟩
  | command => cases h

theorem startsNameMoved (t : Token) : startsName (t.moved r) = startsName t := by
  rw [startsName, startsName, wordMoved]

theorem stripBracesOpening {t closer : Token} {rest inside after : List Token}
    (opens : t.opens .brace = true) (cut : splitClosing 0 rest = some (inside, closer, after)) :
    stripBraces (t :: rest) = do
      checkClosing .brace t.span closer
      if after.isEmpty then stripBraces inside else return t :: rest := by
  rw [stripBraces, if_pos opens]
  split
  · rename_i none
    rw [cut] at none
    cases none
  · rename_i found
    rw [cut] at found
    cases found
    rfl

theorem stripBracesUnclosed {t : Token} {rest : List Token}
    (cut : t.opens .brace = false ∨ splitClosing 0 rest = none) :
    stripBraces (t :: rest) = .ok (t :: rest) := by
  rw [stripBraces]
  split
  · rename_i opens
    split
    · rfl
    · rename_i found
      rcases cut with plain | none
      · simp [plain] at opens
      · rw [none] at found
        cases found
  · rfl

section Any

variable {m : Token → Token} (h : Moves r m)

include h

theorem Moves.tokenWord (t : Token) : (m t).word? = t.word? := h.word t

theorem Moves.tokenSpan (t : Token) : (m t).span = r.move t.span := h.span t

theorem Moves.plain (w : Word) (place : Span) : m (.plain w place) = .plain w (r.move place) := by
  have word := h.tokenWord (.plain w place)
  have span := h.tokenSpan (.plain w place)
  cases same : m (.plain w place) with
  | plain w' place' =>
      rw [same] at word span
      cases word
      cases span
      rfl
  | command =>
      rw [same] at word
      cases word

theorem Moves.opens (b : Bracket) (t : Token) : (m t).opens b = t.opens b := by
  have opensWord (t : Token) : t.opens b = decide (t.word? = some (.opening b)) := by
    cases t with
    | plain w place => cases w <;> simp [Token.opens, Token.word?]
    | command => rfl
  rw [opensWord, opensWord, h.tokenWord]

theorem stripBracesMoved (ts : List Token) :
    stripBraces (ts.map m) = r.outcome (List.map m) (stripBraces ts) := by
  fun_induction stripBraces ts with
  | case1 => simp [stripBraces]
  | case2 t rest opens cut =>
      have cut' := splitClosingMoved h 0 rest
      rw [cut] at cut'
      rw [List.map_cons, stripBracesUnclosed (.inr cut')]
      rfl
  | case3 t rest opens inside closer after cut ih =>
      have cut' := splitClosingMoved h 0 rest
      rw [cut] at cut'
      rw [List.map_cons, stripBracesOpening (by rw [h.opens, opens]) cut', h.tokenSpan]
      refine outcomeBind (checkClosingMoved h _ _ _) fun _ _ => ?_
      rw [List.isEmpty_map]
      split
      · exact ih
      · rfl
  | case4 t rest plain =>
      rw [List.map_cons, stripBracesUnclosed (.inl (by simpa [h.opens] using plain))]
      rfl

theorem parseAtomMoved (asSubscript : Bool) (ts : List Token) :
    parseAtom asSubscript (ts.map m) = r.outcome id (parseAtom asSubscript ts) := by
  match ts with
  | [] => rfl
  | [t] =>
      simp only [List.map_cons, List.map_nil, parseAtom, h.tokenWord, h.tokenSpan]
      split
      · rfl
      · rfl
      · split <;> rfl
      · rfl
  | t :: u :: rest =>
      have whole := spanOfMoved h (t :: u :: rest)
      simp only [List.map_cons] at whole
      simp only [List.map_cons, parseAtom, whole]
      rfl

theorem parseNameMoved (limit : Nat) (asSubscript : Bool) (ts : List Token) :
    parseName limit asSubscript (ts.map m) = r.outcome id (parseName limit asSubscript ts) := by
  induction limit generalizing asSubscript ts with
  | zero => rfl
  | succ limit ih =>
      rw [parseName, parseName]
      refine outcomeBind (stripBracesMoved h ts) fun stripped _ => ?_
      rw [splitOnceMoved h]
      cases splitOnce .underscore stripped with
      | none => exact parseAtomMoved h asSubscript stripped
      | some cut =>
          refine outcomeBind (ih asSubscript cut.1) fun base _ => ?_
          exact outcomeBind (ih true cut.2) fun sub _ => rfl

end Any

end Names

section Tokens

theorem asKeywordMoved {m : Token → Token} (h : Moves r m) (t : Token) :
    asKeyword (m t) = m (asKeyword t) := by
  cases t with
  | plain w place =>
      rw [h.plain]
      cases w with
      | text letters =>
          simp only [asKeyword]
          split <;> rw [h.plain]
      | _ => exact (h.plain _ _).symm
  | command name required optional place =>
      have word := h.tokenWord (.command name required optional place)
      cases same : m (.command name required optional place) with
      | plain => simp [same, Token.word?] at word
      | command => exact same.symm

theorem normalizeMoved {m : Token → Token} (h : Moves r m) (ts : List Token) :
    normalize (ts.map m) = (normalize ts).map m := by
  simp only [normalize, List.filter_map, List.map_map, Function.comp_def, isWhitespace,
    h.tokenWord, asKeywordMoved h]

theorem normalizeAppend (ts us : List Token) :
    normalize (ts ++ us) = normalize ts ++ normalize us := by
  simp [normalize]

theorem dropCommentsMoved {m : Token → Token} (h : Moves r m) (inComment : Bool)
    (ts : List Token) :
    dropComments inComment (ts.map m) = (dropComments inComment ts).map m := by
  induction ts generalizing inComment with
  | nil => rfl
  | cons t rest ih =>
      simp only [List.map_cons, dropComments, h.tokenWord, ih]
      split
      · rfl
      · split <;> rfl

theorem groupCodeMoved (inside : List Token) :
    groupCode (inside.map (Token.moved r)) = (groupCode inside).map (Token.moved r) := by
  rw [groupCode, groupCode, dropCommentsMoved (tokenMoves r), normalizeMoved (tokenMoves r)]

theorem parenthesizedMoved (place : Span) (inside : List Token) :
    parenthesized (r.move place) (inside.map (Token.moved r))
      = (parenthesized place inside).map (Token.moved r) := by
  simp [parenthesized]

theorem fractionMoved (place : Span) (numerator denominator : List Token) :
    fraction (r.move place) (numerator.map (Token.moved r)) (denominator.map (Token.moved r))
      = (fraction place numerator denominator).map (Token.moved r) := by
  simp only [fraction, parenthesizedMoved, List.map_append, List.map_cons, movedPlain]

theorem rootMoved (place : Span) (index radicand : List Token) :
    root (r.move place) (index.map (Token.moved r)) (radicand.map (Token.moved r))
      = (root place index radicand).map (Token.moved r) := by
  simp only [root, List.map_append, List.map_cons, movedPlain, ← parenthesizedMoved]

theorem isSizingMoved (t : Token) : isSizing (t.moved r) = isSizing t := by
  rw [isSizing, isSizing, wordMoved]

structure KeepsCode (r : Relocation) (m : Token → Token) (inner : List Token → List Token) : Prop
    extends Moves r m where
  command (name : String) (required optional : List (List Token)) (place : Span) :
    m (.command name required optional place)
      = .command name (required.map inner) (optional.map inner) (r.move place)
  normal (group : List Token) : normalize (inner group) = (normalize group).map m
  code (group : List Token) : groupCode (inner group) = (groupCode group).map m

theorem tokenKeepsCode (r : Relocation) :
    KeepsCode r (Token.moved r) (List.map (Token.moved r)) where
  toMoves := tokenMoves r
  command := movedCommand
  normal := normalizeMoved (tokenMoves r)
  code := groupCodeMoved

variable {m : Token → Token} {inner : List Token → List Token}

theorem lowerTokenMoved (h : KeepsCode r m inner) {lower : List Token → Parsed (List Token)}
    (same : ∀ ts, lower (inner ts) = r.outcome (List.map (Token.moved r)) (lower ts)) (t : Token) :
    lowerToken lower (m t) = r.outcome (List.map (Token.moved r)) (lowerToken lower t) := by
  cases t with
  | plain w place =>
      have sizing := isSizingMoved (r := r) (.plain w place)
      rw [movedPlain] at sizing
      rw [h.plain]
      simp only [lowerToken, sizing, outcomeOk]
      split <;> rfl
  | command name required optional place =>
      rw [h.command]
      simp only [lowerToken]
      by_cases isFraction : name = "frac"
      · simp only [if_pos isFraction]
        rcases required with _ | ⟨numerator, _ | ⟨denominator, _ | ⟨third, more⟩⟩⟩
        case cons.cons.nil =>
          cases optional with
          | nil =>
              refine outcomeBind (same numerator) fun above _ => ?_
              refine outcomeBind (same denominator) fun below _ => ?_
              simp [fractionMoved]
          | cons => rfl
        all_goals rfl
      · simp only [if_neg isFraction]
        by_cases isRoot : name = "sqrt"
        · simp only [if_pos isRoot]
          rcases required with _ | ⟨radicand, _ | ⟨second, more⟩⟩
          case cons.nil =>
            rcases optional with _ | ⟨index, _ | ⟨second, more⟩⟩
            · refine outcomeBind (same radicand) fun base _ => ?_
              have two := rootMoved (r := r) place [.plain (.number "2") place] base
              simp only [List.map_cons, List.map_nil, movedPlain] at two
              simp [two]
            · refine outcomeBind (same index) fun degree _ => ?_
              refine outcomeBind (same radicand) fun base _ => ?_
              simp [rootMoved]
            · rfl
          all_goals rfl
        · simp only [if_neg isRoot]
          rfl

theorem lowerCommandsMoved (h : KeepsCode r m inner) (limit : Nat) (ts : List Token) :
    lowerCommands limit (ts.map m)
      = r.outcome (List.map (Token.moved r)) (lowerCommands limit ts) := by
  induction limit generalizing ts with
  | zero => rfl
  | succ limit ih =>
      rw [lowerCommands, lowerCommands]
      refine outcomeBind (outcomeMapM fun t _ => lowerTokenMoved h (fun inside => ?_) t)
        fun spelled _ => ?_
      · rw [h.code, ih]
      · simp [List.map_flatten]

theorem joinRealsMoved (ts : List Token) :
    joinReals (ts.map (Token.moved r)) = (joinReals ts).map (Token.moved r) := by
  fun_induction joinReals ts with
  | case1 whole first mark fraction last rest ih =>
      simp only [List.map_cons, movedPlain, joinReals, ih, r.through]
  | case2 t rest other ih =>
      rw [List.map_cons, joinReals, ih, List.map_cons]
      intro whole first mark fraction last rest' same same'
      obtain ⟨_, rfl⟩ := plainOfMoved same
      obtain ⟨point, more, rfl, same', later⟩ := List.map_eq_cons_iff.mp same'
      obtain ⟨_, rfl⟩ := plainOfMoved same'
      obtain ⟨digits, more, rfl, same', -⟩ := List.map_eq_cons_iff.mp later
      obtain ⟨_, rfl⟩ := plainOfMoved same'
      exact other _ _ _ _ _ _ rfl rfl
  | case3 => rfl

section Subscripts

variable {u t closer : Token} {rest inside after : List Token}

theorem takeSubscriptsUnclosed (under : u.word? = some .underscore)
    (opens : t.opens .brace = true) (cut : splitClosing 0 rest = none) :
    takeSubscripts (u :: t :: rest) = malformed .subscriptNeverClosed (some t.span) := by
  rw [takeSubscripts, if_pos under, if_pos opens]
  split
  · rfl
  · rename_i found
    rw [cut] at found
    cases found

theorem takeSubscriptsGroup (under : u.word? = some .underscore)
    (opens : t.opens .brace = true) (cut : splitClosing 0 rest = some (inside, closer, after)) :
    takeSubscripts (u :: t :: rest) = do
      checkClosing .brace t.span closer
      let more ← takeSubscripts after
      return (u :: t :: inside ++ closer :: more.1, more.2) := by
  rw [takeSubscripts, if_pos under, if_pos opens]
  split
  · rename_i none
    rw [cut] at none
    cases none
  · rename_i found
    rw [cut] at found
    cases found
    rfl

theorem takeSubscriptsSingle (under : u.word? = some .underscore)
    (single : t.opens .brace = false) :
    takeSubscripts (u :: t :: rest) = do
      let more ← takeSubscripts rest
      return (u :: t :: more.1, more.2) := by
  rw [takeSubscripts, if_pos under, if_neg (by simp [single])]

end Subscripts

theorem takeSubscriptsMoved (ts : List Token) :
    takeSubscripts (ts.map (Token.moved r))
      = r.outcome (fun cut => (cut.1.map (Token.moved r), cut.2.map (Token.moved r)))
          (takeSubscripts ts) := by
  fun_induction takeSubscripts ts with
  | case1 => simp [takeSubscripts]
  | case2 u under => simp [takeSubscripts, under]
  | case3 u under t rest opens cut =>
      have cut' := splitClosingMoved (tokenMoves r) 0 rest
      rw [cut] at cut'
      rw [List.map_cons, List.map_cons, takeSubscriptsUnclosed (by rw [wordMoved, under])
        (by rw [opensMoved, opens]) cut', spanMoved]
      rfl
  | case4 u under t rest opens inside closer after cut ih =>
      have cut' := splitClosingMoved (tokenMoves r) 0 rest
      rw [cut] at cut'
      rw [List.map_cons, List.map_cons, takeSubscriptsGroup (by rw [wordMoved, under])
        (by rw [opensMoved, opens]) cut', spanMoved]
      refine outcomeBind (checkClosingMoved (tokenMoves r) _ _ _) fun _ _ => ?_
      exact outcomeBind ih fun more _ => by simp
  | case5 u under t rest plain ih =>
      rw [List.map_cons, List.map_cons, takeSubscriptsSingle (by rw [wordMoved, under])
        (by simpa using plain)]
      exact outcomeBind ih fun more _ => by simp
  | case6 u rest other =>
      rw [List.map_cons, takeSubscriptsOther (by rw [wordMoved]; exact other)]
      rfl

theorem gatherNamesFails {t : Token} {rest : List Token} {failure : ParseFailure}
    (starts : startsName t = true) (fails : takeSubscripts rest = .error failure) :
    gatherNames (t :: rest) = .error failure := by
  rw [gatherNames, if_pos starts]
  split
  · rename_i found
    rw [fails] at found
    cases found
    rfl
  · rename_i found
    rw [fails] at found
    cases found

theorem gatherNamesMoved (ts : List Token) :
    gatherNames (ts.map (Token.moved r))
      = r.outcome (List.map (Piece.moved r)) (gatherNames ts) := by
  fun_induction gatherNames ts with
  | case1 => simp [gatherNames]
  | case2 t rest starts failure fails =>
      have fails' := takeSubscriptsMoved (r := r) rest
      rw [fails] at fails'
      rw [List.map_cons, gatherNamesFails (by rw [startsNameMoved, starts]) fails']
      rfl
  | case3 t rest starts subs after taken ih =>
      have taken' := takeSubscriptsMoved (r := r) rest
      rw [taken] at taken'
      rw [List.map_cons, gatherNamesName (by rw [startsNameMoved, starts]) taken']
      have named := parseNameMoved (tokenMoves r) subscriptDepth false (t :: subs)
      refine outcomeBind named fun name _ => ?_
      refine outcomeBind ih fun more _ => ?_
      have last : ((t :: subs).map (Token.moved r)).getLast (List.cons_ne_nil _ _)
          = ((t :: subs).getLast (List.cons_ne_nil _ _)).moved r := List.getLast_map _
      simp only [List.map_cons] at last
      simp only [last, spanMoved, ← r.through]
      rfl
  | case4 t rest other ih =>
      rw [List.map_cons, gatherNamesOther (by simpa [startsNameMoved] using other)]
      exact outcomeBind ih fun more _ => rfl

theorem toPiecesMoved (h : KeepsCode r m inner) (ts : List Token) :
    toPieces (ts.map m) = r.outcome (List.map (Piece.moved r)) (toPieces ts) := by
  refine outcomeBind (lowerCommandsMoved h spelledDepth ts) fun lowered _ => ?_
  rw [joinRealsMoved, gatherNamesMoved]

end Tokens

section Operations

def Operand.moved (r : Relocation) : Operand → Operand
  | .call function args => .call function (args.map (Expr.moved r))
  | o => o

def Role.moved (r : Relocation) : Role → Role
  | .operand o => .operand (o.moved r)
  | role => role

def Waiting.moved (r : Relocation) : Waiting → Waiting
  | .bracket b place => .bracket b (r.move place)
  | .operation op place => .operation op (r.move place)

def Postfix.moved (r : Relocation) : Postfix → Postfix
  | .operand o place => .operand (o.moved r) (r.move place)
  | .operation op place => .operation op (r.move place)

def Yard.moved (r : Relocation) (y : Yard) : Yard :=
  ⟨y.emitted.map (Postfix.moved r), y.waiting.map (Waiting.moved r), y.expecting⟩

@[simp] theorem pieceSpanMoved (p : Piece) : (p.moved r).span = r.move p.span :=
  (pieceMoves r).span p

theorem roleMoved (expecting : Bool) (p : Piece) :
    (p.moved r).role expecting = (p.role expecting).moved r := by
  cases p with
  | token t =>
      cases t with
      | plain w place =>
          cases w with
          | sign s =>
              simp only [Piece.moved, movedPlain, Piece.role, Word.role]
              split <;> rfl
          | _ => rfl
      | command => simp [Piece.moved, Piece.role, Role.moved]
  | _ => rfl

theorem releaseMoved (test : Operation → Bool) (emitted : List Postfix) (waiting : List Waiting) :
    Yard.release test (emitted.map (Postfix.moved r)) (waiting.map (Waiting.moved r))
      = ((Yard.release test emitted waiting).1.map (Postfix.moved r),
          (Yard.release test emitted waiting).2.map (Waiting.moved r)) := by
  induction waiting generalizing emitted with
  | nil => rfl
  | cons top rest ih =>
      cases top with
      | bracket b place => rfl
      | operation op place =>
          simp only [List.map_cons, Waiting.moved, Yard.release]
          split
          · exact ih (.operation op place :: emitted)
          · rfl

theorem closeMoved (y : Yard) (b : Bracket) (place : Span) :
    (y.moved r).close b (r.move place) = r.outcome (Yard.moved r) (y.close b place) := by
  simp only [Yard.close, Yard.moved, releaseMoved]
  cases (Yard.release (fun _ => true) y.emitted y.waiting).2 with
  | nil => rfl
  | cons top rest =>
      cases top with
      | operation op at_ => rfl
      | bracket opener at_ =>
          simp only [List.map_cons, Waiting.moved]
          split
          · rfl
          · simp [r.through]

theorem operateMoved (y : Yard) (op : Operation) (place : Span) :
    (y.moved r).operate op (r.move place) = (y.operate op place).moved r := by
  cases op with
  | unary u => rfl
  | binary c =>
      simp only [Yard.operate, Yard.moved, releaseMoved]
      rfl

theorem stepMoved (y : Yard) (p : Piece) :
    (y.moved r).step (p.moved r) = r.outcome (Yard.moved r) (y.step p) := by
  have role := roleMoved (r := r) y.expecting p
  unfold Yard.step
  simp only [Yard.moved, role, pieceSpanMoved]
  cases p.role y.expecting with
  | closing b => exact closeMoved y b p.span
  | operation op => exact congrArg Except.ok (operateMoved y op p.span)
  | _ => rfl

theorem stepsMoved (y : Yard) (ps : List Piece) :
    (ps.map (Piece.moved r)).foldlM Yard.step (y.moved r)
      = r.outcome (Yard.moved r) (ps.foldlM Yard.step y) := by
  induction ps generalizing y with
  | nil => rfl
  | cons p ps ih =>
      rw [List.map_cons, List.foldlM_cons, List.foldlM_cons]
      exact outcomeBind (stepMoved y p) fun next _ => ih next

theorem finishMoved (y : Yard) :
    (y.moved r).finish = r.outcome (List.map (Postfix.moved r)) y.finish := by
  simp only [Yard.finish, Yard.moved, releaseMoved]
  cases (Yard.release (fun _ => true) y.emitted y.waiting).2 with
  | nil => simp
  | cons top rest => cases top <;> simp [Waiting.moved]

theorem toPostfixMoved (ps : List Piece) :
    toPostfix (ps.map (Piece.moved r))
      = r.outcome (List.map (Postfix.moved r)) (toPostfix ps) :=
  outcomeBind (stepsMoved Yard.empty ps) fun y _ => finishMoved y

theorem toExprMoved (o : Operand) (place : Span) :
    (o.moved r).toExpr (r.move place) = r.outcome (Expr.moved r) (o.toExpr place) := by
  cases o with
  | number digits =>
      simp only [Operand.moved, Operand.toExpr]
      split <;> rfl
  | call function args => simp [Operand.moved, Operand.toExpr, Expr.moved]
  | _ => rfl

theorem applyItemMoved (operands : List Expr) (item : Postfix) :
    applyItem (operands.map (Expr.moved r)) (item.moved r)
      = r.outcome (List.map (Expr.moved r)) (applyItem operands item) := by
  cases item with
  | operand o place => exact outcomeBind (toExprMoved o place) fun e _ => rfl
  | operation op place =>
      cases op with
      | unary u => cases operands <;> rfl
      | binary c =>
          match operands with
          | [] => rfl
          | [_] => rfl
          | _ :: _ :: _ => rfl

theorem foldMoved (items : List Postfix) (place : Option Span) :
    fold (items.map (Postfix.moved r)) (place.map r.move)
      = r.outcome (Expr.moved r) (fold items place) := by
  have applied : ∀ operands : List Expr,
      (items.map (Postfix.moved r)).foldlM applyItem (operands.map (Expr.moved r))
        = r.outcome (List.map (Expr.moved r)) (items.foldlM applyItem operands) := by
    induction items with
    | nil => exact fun operands => rfl
    | cons item rest ih =>
        intro operands
        rw [List.map_cons, List.foldlM_cons, List.foldlM_cons]
        exact outcomeBind (applyItemMoved operands item) fun next _ => ih next
  refine outcomeBind (applied []) fun operands _ => ?_
  match operands with
  | [] => rfl
  | [e] => rfl
  | _ :: _ :: _ => rfl

theorem placeMoved (e : Expr) : (e.moved r).place = e.place.map r.move := by
  cases e <;> rfl

theorem putAtMoved (place : Option Span) (e : Expr) :
    (e.moved r).putAt (place.map r.move) = (e.putAt place).moved r := by
  cases e <;> rfl

theorem settleAtMoved (place : Option Span) (e : Expr) :
    (e.moved r).settleAt (place.map r.move) = (e.settleAt place).moved r := by
  unfold Expr.settleAt
  rw [placeMoved, putAtMoved]
  cases e.place <;> rfl

theorem assembleMoved (ps : List Piece) :
    assemble (ps.map (Piece.moved r)) = r.outcome (Expr.moved r) (assemble ps) := by
  have whole := spanOfMoved (pieceMoves r) ps
  rw [assemble, assemble, whole]
  refine outcomeBind (toPostfixMoved ps) fun items _ => ?_
  refine outcomeBind (foldMoved items (spanOf ps)) fun e _ => ?_
  rw [settleAtMoved]
  rfl

end Operations

section Values

theorem parseArgumentsMoved {parse : List Piece → Parsed Expr}
    (same : ∀ ps, parse (ps.map (Piece.moved r)) = r.outcome (Expr.moved r) (parse ps))
    (inside : List Piece) : parseArguments parse (inside.map (Piece.moved r))
      = r.outcome (List.map (Expr.moved r)) (parseArguments parse inside) := by
  rw [parseArguments, parseArguments, List.isEmpty_map, splitTopMoved (pieceMoves r)]
  split
  · rfl
  · exact outcomeMapM fun part _ => same part

theorem makeCallsUnclosed {parse : List Piece → Parsed Expr} {f : Name} {place : Span}
    {opener : Piece} {rest : List Piece} (opens : opener.word? = some (.opening .paren))
    (cut : splitClosing 0 rest = none) : makeCalls parse (.name f place :: opener :: rest)
      = malformed .argumentsNeverClosed (some opener.span) := by
  rw [makeCalls, if_pos opens]
  split
  · rfl
  · rename_i found
    rw [cut] at found
    cases found

theorem makeCallsGroup {parse : List Piece → Parsed Expr} {f : Name} {place : Span}
    {opener closer : Piece} {rest inside after : List Piece}
    (opens : opener.word? = some (.opening .paren))
    (cut : splitClosing 0 rest = some (inside, closer, after)) :
    makeCalls parse (.name f place :: opener :: rest) = do
      checkClosing .paren opener.span closer
      let args ← parseArguments parse inside
      return .call f args (place.through closer.span) :: (← makeCalls parse after) := by
  rw [makeCalls, if_pos opens]
  split
  · rename_i none
    rw [cut] at none
    cases none
  · rename_i found
    rw [cut] at found
    cases found
    rfl

theorem callsNextMoved (p : Piece) (ps : List Piece) :
    callsNext (p.moved r) (ps.map (Piece.moved r)) = callsNext p ps := by
  cases p with
  | name f place =>
      cases ps with
      | nil => rfl
      | cons opener rest =>
          have word : (opener.moved r).word? = opener.word? := (pieceMoves r).word opener
          simp only [List.map_cons]
          rw [Piece.moved, callsNext, callsNext, word]
  | _ => rfl

theorem makeCallsMoved {parse : List Piece → Parsed Expr}
    (same : ∀ ps, parse (ps.map (Piece.moved r)) = r.outcome (Expr.moved r) (parse ps))
    (ps : List Piece) : makeCalls parse (ps.map (Piece.moved r))
      = r.outcome (List.map (Piece.moved r)) (makeCalls parse ps) := by
  have word (p : Piece) : (p.moved r).word? = p.word? := (pieceMoves r).word p
  fun_induction makeCalls parse ps with
  | case1 => simp [makeCalls]
  | case2 f place opener rest opens cut =>
      have cut' := splitClosingMoved (pieceMoves r) 0 rest
      rw [cut] at cut'
      rw [List.map_cons, List.map_cons, Piece.moved, makeCallsUnclosed (by rw [word, opens]) cut',
        pieceSpanMoved]
      rfl
  | case3 f place opener rest opens inside closer after cut ih =>
      have cut' := splitClosingMoved (pieceMoves r) 0 rest
      rw [cut] at cut'
      rw [List.map_cons, List.map_cons, Piece.moved, makeCallsGroup (by rw [word, opens]) cut',
        pieceSpanMoved]
      refine outcomeBind (checkClosingMoved (pieceMoves r) _ _ _) fun _ _ => ?_
      refine outcomeBind (parseArgumentsMoved same inside) fun args _ => ?_
      refine outcomeBind ih fun more _ => ?_
      rw [pieceSpanMoved, ← r.through]
      rfl
  | case4 f place opener rest plain ih =>
      have other : callsNext (.name f place) (opener :: rest) = false := by
        simpa [callsNext] using plain
      rw [List.map_cons, makeCallsOther (by rw [callsNextMoved, other])]
      exact outcomeBind ih fun more _ => rfl
  | case5 p rest plain ih =>
      have other : callsNext p rest = false := by
        cases p with
        | name f place =>
            cases rest with
            | nil => rfl
            | cons opener rest => exact absurd rfl (plain f place opener rest rfl)
        | _ => rfl
      rw [List.map_cons, makeCallsOther (by rw [callsNextMoved, other])]
      exact outcomeBind ih fun more _ => rfl

theorem parseArgumentMoved (limit : Nat) (ps : List Piece) :
    parseArgument limit (ps.map (Piece.moved r))
      = r.outcome (Expr.moved r) (parseArgument limit ps) := by
  induction limit generalizing ps with
  | zero => rfl
  | succ limit ih =>
      cases ps with
      | nil => rfl
      | cons p rest =>
          simp only [List.map_cons, parseArgument, startsConditionalMoved (pieceMoves r)]
          split
          · exact parseConditionalMoved (pieceMoves r) ih p rest
          · exact outcomeBind (makeCallsMoved ih (p :: rest)) fun qs _ => assembleMoved qs

theorem parseValueMoved {m : Token → Token} {inner : List Token → List Token}
    (h : KeepsCode r m inner) (limit : Nat) (ts : List Token) :
    parseValue limit (ts.map m) = r.outcome (Expr.moved r) (parseValue limit ts) := by
  induction limit generalizing ts with
  | zero => rfl
  | succ limit ih =>
      cases ts with
      | nil => rfl
      | cons t rest =>
          simp only [List.map_cons, parseValue, startsConditionalMoved h.toMoves]
          split
          · exact parseConditionalMoved h.toMoves ih t rest
          · refine outcomeBind (toPiecesMoved h (t :: rest)) fun ps _ => ?_
            exact outcomeBind (makeCallsMoved (parseArgumentMoved limit) ps) fun qs _ =>
              assembleMoved qs

end Values

section Statements

variable {m : Token → Token} {inner : List Token → List Token} (h : KeepsCode r m inner)

include h

theorem numberSetMoved (ts : List Token) : numberSet? (ts.map m) = numberSet? ts := by
  match ts with
  | [] => rfl
  | [.plain w place] =>
      rw [List.map_cons, h.plain]
      cases w <;> rfl
  | [.command name [letters] optional place] =>
      rw [List.map_cons, h.command]
      by_cases isSet : name = "mathbb"
      · subst isSet
        simp only [List.map_cons, List.map_nil, numberSet?, h.normal]
        match normalize letters with
        | [] => rfl
        | [.plain w place] =>
            rw [List.map_cons, h.plain]
            cases w <;> rfl
        | [.command ..] => simp [h.command]
        | _ :: _ :: _ => simp
      · simp [numberSet?, isSet]
  | [.command name [] optional place] => simp [numberSet?, h.command]
  | [.command name (_ :: _ :: _) optional place] => simp [numberSet?, h.command]
  | _ :: _ :: _ => simp [numberSet?]

theorem parseNumberSetMoved (role : String) (near : Option Span) (ts : List Token) :
    parseNumberSet role (near.map r.move) (ts.map m)
      = r.outcome id (parseNumberSet role near ts) := by
  have whole := spanOfMoved h.toMoves ts
  rw [parseNumberSet, parseNumberSet, numberSetMoved h, whole]
  cases numberSet? ts with
  | some s => rfl
  | none => cases spanOf ts <;> rfl

theorem parseFunctionDeclarationMoved (name signature : List Token) (place : Option Span) :
    parseFunctionDeclaration (name.map m) (signature.map m) (place.map r.move)
      = r.outcome (FunctionDeclaration.moved r)
          (parseFunctionDeclaration name signature place) := by
  refine outcomeBind (parseNameMoved h.toMoves subscriptDepth false name) fun n _ => ?_
  rw [splitOnceMoved h.toMoves]
  cases splitOnce .arrow signature with
  | none => rfl
  | some cut =>
      refine outcomeBind (parseNumberSetMoved h "domain" place cut.1) fun domain _ => ?_
      exact outcomeBind (parseNumberSetMoved h "codomain" place cut.2) fun codomain _ => rfl

theorem parseParametersMoved (inside : List Token) :
    parseParameters (inside.map m) = r.outcome id (parseParameters inside) := by
  rw [parseParameters, parseParameters, List.isEmpty_map, splitTopMoved h.toMoves]
  split
  · rfl
  · rw [← List.map_id_fun]
    exact outcomeMapM fun part _ => parseNameMoved h.toMoves subscriptDepth false part

theorem parseFunctionDefinitionMoved (signature body : List Token) :
    parseFunctionDefinition (signature.map m) (body.map m)
      = r.outcome (FunctionDefinition.moved r) (parseFunctionDefinition signature body) := by
  rw [parseFunctionDefinition, parseFunctionDefinition, cutAtMoved (h.opens .paren)]
  cases cutAt (Token.opens .paren) signature with
  | none =>
      simp only [Option.map_none, outcomeMalformed, List.getLast?_map, Option.map_map]
      congr 2
      funext t
      exact h.tokenSpan t
  | some cut =>
      simp only [Option.map_some, splitClosingMoved h.toMoves]
      cases splitClosing 0 cut.2.2 with
      | none => simp [h.tokenSpan]
      | some group =>
          simp only [Option.map_some, h.tokenSpan, List.isEmpty_map]
          refine outcomeBind (checkClosingMoved h.toMoves _ _ _) fun _ _ => ?_
          by_cases more : (!group.2.2.isEmpty) = true
          · simp only [if_pos more, spanOfMoved h.toMoves]
            rfl
          simp only [if_neg more]
          refine outcomeBind (parseNameMoved h.toMoves subscriptDepth false cut.1) fun n _ => ?_
          refine outcomeBind (parseParametersMoved h group.1) fun params _ => ?_
          by_cases twice : hasRepeat params = true
          · simp only [id, if_pos twice, spanOfMoved h.toMoves]
            rfl
          simp only [id, if_neg twice]
          exact outcomeBind (parseValueMoved h valueDepth body) fun e _ => rfl

theorem parseMembersMoved (inside : List Token) :
    parseMembers (inside.map m) = r.outcome (List.map (Expr.moved r)) (parseMembers inside) := by
  rw [parseMembers, parseMembers, List.isEmpty_map, splitTopMoved h.toMoves]
  split
  · rfl
  · exact outcomeMapM fun part _ => parseValueMoved h valueDepth part

theorem parseValueDeclarationMoved (name value : List Token) :
    parseValueDeclaration (name.map m) (value.map m)
      = r.outcome (Statement.moved r) (parseValueDeclaration name value) := by
  refine outcomeBind (parseNameMoved h.toMoves subscriptDepth false name) fun n _ => ?_
  have plain : (parseValue valueDepth (value.map m) >>= fun e =>
        pure (Statement.valueDeclaration n e none))
      = r.outcome (Statement.moved r) (parseValue valueDepth value >>= fun e =>
          pure (.valueDeclaration n e none)) :=
    outcomeBind (parseValueMoved h valueDepth value) fun e _ => rfl
  match value with
  | [] => exact plain
  | .command .. :: _ =>
      rw [List.map_cons, h.command] at plain ⊢
      exact plain
  | .plain w opener :: rest =>
      by_cases isSet : w = .opening .escapedBrace
      · subst isSet
        simp only [List.map_cons, h.plain, splitClosingMoved h.toMoves, id]
        cases splitClosing 0 rest with
        | none => rfl
        | some group =>
            simp only [Option.map_some, List.isEmpty_map]
            refine outcomeBind (checkClosingMoved h.toMoves _ _ _) fun _ _ => ?_
            by_cases more : (!group.2.2.isEmpty) = true
            · simp only [if_pos more, spanOfMoved h.toMoves]
              rfl
            simp only [if_neg more]
            exact outcomeBind (parseMembersMoved h group.1) fun members _ => rfl
      · rw [List.map_cons, h.plain] at plain ⊢
        simpa [isSet] using plain

omit h in
def Shape.map (m : Token → Token) : Shape → Shape
  | .expression => .expression
  | .functionDeclaration name signature => .functionDeclaration (name.map m) (signature.map m)
  | .valueDeclaration name value => .valueDeclaration (name.map m) (value.map m)
  | .functionDefinition signature body => .functionDefinition (signature.map m) (body.map m)

theorem shapeMoved (ts : List Token) : shape (ts.map m) = (shape ts).map m := by
  have deciding (t : Token) : isDecidingSign (m t) = isDecidingSign t := by
    rw [isDecidingSign, isDecidingSign, h.tokenWord]
  have mentioned (w : Word) (ts : List Token) : mentions w (ts.map m) = mentions w ts := by
    simp [mentions, Function.comp_def, h.tokenWord]
  rw [shape, shape, cutAtMoved deciding]
  cases cutAt isDecidingSign ts with
  | none => rfl
  | some cut =>
      simp only [Option.map_some, h.tokenWord, mentioned]
      split
      · rfl
      · split <;> rfl

omit h in
theorem statementPutAtMoved (place : Option Span) (s : Statement) :
    (s.moved r).putAt (place.map r.move) = (s.putAt place).moved r := by
  cases s with
  | expression e => exact congrArg Statement.expression (putAtMoved place e)
  | functionDefinition d =>
      cases d
      rfl
  | _ => rfl

theorem parseStatementAlong (slice : List Token) :
    parseStatement (slice.map m) = r.outcome (Statement.moved r) (parseStatement slice) := by
  rw [parseStatement, parseStatement, shapeMoved h, spanOfMoved h.toMoves]
  have put (s : Statement) : (Except.ok ((s.moved r).putAt ((spanOf slice).map r.move))
      : Parsed Statement) = .ok ((s.putAt (spanOf slice)).moved r) :=
    congrArg Except.ok (statementPutAtMoved (spanOf slice) s)
  cases shape slice with
  | expression =>
      exact outcomeBind (parseValueMoved h valueDepth slice) fun e _ => put (.expression e)
  | functionDeclaration name signature =>
      exact outcomeBind (parseFunctionDeclarationMoved h name signature (spanOf slice)) fun d _ =>
        put (.functionDeclaration d)
  | functionDefinition signature body =>
      exact outcomeBind (parseFunctionDefinitionMoved h signature body) fun d _ =>
        put (.functionDefinition d)
  | valueDeclaration name value =>
      exact outcomeBind (parseValueDeclarationMoved h name value) fun s _ => put s

omit h in
theorem parseStatementMoved (slice : List Token) :
    parseStatement (slice.map (Token.moved r))
      = r.outcome (Statement.moved r) (parseStatement slice) :=
  parseStatementAlong (tokenKeepsCode r) slice

end Statements
end LiterateMath
