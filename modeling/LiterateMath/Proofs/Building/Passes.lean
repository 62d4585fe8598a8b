import LiterateMath.Proofs.Building.Steps

/-! The passes over a list of pieces, taken step by step. None of them breaks: what comes out is
what reading by division of the list comes to. -/
namespace LiterateMath.Building

open Lexical

section Lifting

variable {α β : Type}

def lift (r : Parsed α) : Built α := r.mapError .failure

@[simp] theorem liftOk (a : α) : lift (.ok a) = .ok a := rfl

@[simp] theorem liftError (f : ParseFailure) :
    lift (.error f : Parsed α) = .error (.failure f) := rfl

@[simp] theorem liftMalformed (fault : ParseFault) (place : Option Span) :
    lift (malformed fault place : Parsed α) = fail fault place := rfl

theorem liftBind (r : Parsed α) (f : α → Parsed β) :
    lift (r >>= f) = lift r >>= fun a => lift (f a) := by
  cases r <;> rfl

theorem liftMapM {f : α → Parsed β} {g : α → Built β} {as : List α}
    (same : ∀ a ∈ as, g a = lift (f a)) : as.mapM g = lift (as.mapM f) := by
  induction as with
  | nil => rfl
  | cons a rest ih =>
      rw [List.mapM_cons, List.mapM_cons, same a List.mem_cons_self,
        ih fun b member => same b (List.mem_cons_of_mem a member), liftBind]
      simp only [liftBind]
      rfl

end Lifting

section Lists

variable {α : Type}

theorem itemAt (before : List α) (a : α) (after : List α) :
    item (before ++ a :: after) before.length = .ok a := by
  simp [item, orBreak]

@[simp] theorem itemFirst (a : α) (as : List α) : item (a :: as) 0 = .ok a := rfl

@[simp] theorem itemSecond (a b : α) (as : List α) : item (a :: b :: as) 1 = .ok b := rfl

theorem betweenAt {as : List α} {start stop : Nat} (before inside after : List α)
    (same : as = before ++ (inside ++ after)) (first : start = before.length)
    (last : stop = before.length + inside.length) : between as start stop = inside := by
  subst same first last
  simp [between, List.take_append]

def pieces (ts : List Token) : List Piece := ts.map .token

@[simp] theorem piecesNil : pieces [] = [] := rfl

@[simp] theorem piecesCons (t : Token) (ts : List Token) :
    pieces (t :: ts) = .token t :: pieces ts := rfl

@[simp] theorem tokenWord (t : Token) : (Piece.token t).word? = t.word? := rfl

@[simp] theorem tokenSpan (t : Token) : (Piece.token t).span = t.span := rfl

@[simp] theorem piecesAppend (as bs : List Token) : pieces (as ++ bs) = pieces as ++ pieces bs :=
  List.map_append

@[simp] theorem piecesLength (ts : List Token) : (pieces ts).length = ts.length := List.length_map _

@[simp] theorem piecesEmpty (ts : List Token) : (pieces ts).isEmpty = ts.isEmpty := by
  cases ts <;> rfl

theorem spanOfPieces (ts : List Token) : spanOf (pieces ts) = spanOf ts := by
  cases ts with
  | nil => rfl
  | cons t rest =>
      have last : (pieces (t :: rest)).getLast (by simp)
          = .token ((t :: rest).getLast (List.cons_ne_nil t rest)) := List.getLast_map (by simp)
      simp only [spanOf, piecesCons] at last ⊢
      rw [last]
      rfl

theorem cutAtPieces {test : Piece → Bool} {test' : Token → Bool}
    (same : ∀ t, test (.token t) = test' t) (ts : List Token) : cutAt test (pieces ts)
      = (cutAt test' ts).map fun cut => (pieces cut.1, .token cut.2.1, pieces cut.2.2) := by
  induction ts with
  | nil => rfl
  | cons t rest ih =>
      rw [piecesCons, cutAt, cutAt, same, ih]
      split
      · rfl
      · simp [Function.comp_def]

theorem splitOncePieces (w : Word) (ts : List Token) : splitOnce w (pieces ts)
    = (splitOnce w ts).map fun cut => (pieces cut.1, pieces cut.2) := by
  unfold splitOnce
  rw [@cutAtPieces _ (fun t : Token => Lexical.word? t = some w) fun t => rfl]
  simp [Function.comp_def]

theorem splitClosingPieces (depth : Nat) (ts : List Token) : splitClosing depth (pieces ts)
    = (splitClosing depth ts).map fun cut => (pieces cut.1, .token cut.2.1, pieces cut.2.2) := by
  induction ts generalizing depth with
  | nil => rfl
  | cons t rest ih =>
      have step : bracketStep depth (Piece.token t) = bracketStep depth t := rfl
      rw [piecesCons, splitClosingCons, splitClosingCons, step]
      cases bracketStep depth t with
      | none => rfl
      | some next => simp [ih, Function.comp_def]

theorem splitTopPieces (w : Word) (depth : Int) (ts : List Token) :
    splitTop w depth (pieces ts) = (splitTop w depth ts).map pieces := by
  induction ts generalizing depth with
  | nil => rfl
  | cons t rest ih =>
      have here : word? (Piece.token t) = word? t := rfl
      have step : depthStep (Piece.token t) = depthStep t := rfl
      rw [piecesCons, splitTop, splitTop, here, step]
      split
      · rw [ih]
        rfl
      · rw [ih]
        cases splitTop w (depth + depthStep t) rest <;> rfl

end Lists

section Brackets

theorem openerKnown (b : Bracket) : openers.lookup (.opening b) = some (.closing b) := by
  cases b <;> rfl

theorem openersOnly {w c : Word} (h : openers.lookup w = some c) :
    ∃ b, w = .opening b ∧ c = .closing b := by
  simp only [openers, List.lookup_cons, List.lookup_nil] at h
  repeat' split at h
  all_goals cases h
  all_goals exact ⟨_, eq_of_beq ‹_›, rfl⟩

theorem isOpenerWord {p : Piece} : isOpener p = true ↔ ∃ b, p.word? = some (.opening b) := by
  unfold isOpener
  cases word : p.word? with
  | none => simp
  | some w =>
      rw [Option.bind_some, Option.isSome_iff_exists]
      constructor
      · rintro ⟨c, found⟩
        obtain ⟨b, rfl, -⟩ := openersOnly found
        exact ⟨b, rfl⟩
      · rintro ⟨b, same⟩
        cases same
        exact ⟨_, openerKnown b⟩

theorem isCloserWord {p : Piece} : isCloser p = true ↔ ∃ b, p.word? = some (.closing b) := by
  simp only [isCloser, openers, List.any_cons, List.any_nil, Bool.or_false, Bool.or_eq_true,
    decide_eq_true_eq]
  constructor
  · rintro (h | h | h | h) <;> exact ⟨_, h⟩
  · rintro ⟨b, h⟩
    cases b <;> simp [h]

theorem closerOfOpener {p : Piece} {b : Bracket} (word : p.word? = some (.opening b)) :
    closerOf p = .ok (.closing b) := by
  rw [closerOf, wordOf, word]
  exact congrArg (orBreak .keyMissing) (openerKnown b)

def partnerOf {α : Type} [Lexical α] (b : Bracket) (opener : Span) (index : Nat) :
    Option (List α × α × List α) → Built (Option Nat)
  | none => .ok none
  | some (inside, closer, _) => do
      lift (checkClosing b opener closer)
      return some (index + inside.length)

theorem partnerOfCons (b : Bracket) (opener : Span) (index : Nat) (p : Piece)
    (cut : Option (List Piece × Piece × List Piece)) :
    partnerOf b opener index (cut.map fun cut => (p :: cut.1, cut.2))
      = partnerOf b opener (index + 1) cut := by
  cases cut with
  | none => rfl
  | some cut =>
      have same : index + (cut.1.length + 1) = index + 1 + cut.1.length := by omega
      simp only [partnerOf, Option.map_some, List.length_cons, same]

variable {stream : List Piece} {start : Nat} {opener : Piece} {b : Bracket}

theorem partnerFromFound (at_ : item stream start = .ok opener)
    (opens : opener.word? = some (.opening b)) (index depth : Nat) (ps : List Piece) :
    partnerFrom stream start index (depth + 1 : Nat) ps
      = partnerOf b opener.span index (splitClosing depth ps) := by
  induction ps generalizing index depth with
  | nil => rfl
  | cons p rest ih =>
      rw [splitClosingCons]
      unfold partnerFrom
      by_cases up : isOpener p = true
      · obtain ⟨c, word⟩ := isOpenerWord.mp up
        rw [if_pos up, bracketStepOpening word, partnerOfCons]
        exact ih (index + 1) (depth + 1)
      · rw [if_neg up]
        by_cases down : isCloser p = true
        · obtain ⟨c, word⟩ := isCloserWord.mp down
          rw [if_pos down]
          cases depth with
          | zero =>
              have fails : bracketStep 0 p = none := by
                simp [bracketStep, show word? p = _ from word]
              rw [fails, if_pos (by simp), at_, bindOk, closerOfOpener opens, bindOk]
              dsimp only [partnerOf]
              unfold checkClosing
              by_cases right : p.word? = some (.closing b)
              · rw [if_pos right, if_pos (show word? p = _ from right)]
                rfl
              · rw [if_neg right, if_neg (show ¬ word? p = _ from right)]
                rfl
          | succ depth =>
              rw [if_neg (by omega), bracketStepClosing word, partnerOfCons,
                show ((depth + 1 + 1 : Nat) : Int) - 1 = (depth + 1 : Nat) by omega, ih]
        · have other := bracketStepOther (a := p)
            (fun c word => up (isOpenerWord.mpr ⟨c, word⟩))
            (fun c word => down (isCloserWord.mpr ⟨c, word⟩)) depth
          rw [if_neg down, other, partnerOfCons, ih]

theorem partnerFound (before : List Piece) (opens : opener.word? = some (.opening b))
    (rest : List Piece) : partner (before ++ opener :: rest) before.length
      = partnerOf b opener.span (before.length + 1) (splitClosing 0 rest) := by
  have up : isOpener opener = true := isOpenerWord.mpr ⟨b, opens⟩
  rw [partner, List.drop_left, partnerFrom, if_pos up]
  exact partnerFromFound (itemAt before opener rest) opens (before.length + 1) 0 rest

theorem partnerPieces {ts : List Token} {i : Nat} (before : List Token) {t : Token}
    (opens : t.word? = some (.opening b)) (rest : List Token) (same : ts = before ++ t :: rest)
    (here : i = before.length) :
    partner (pieces ts) i = partnerOf b t.span (i + 1) (splitClosing 0 rest) := by
  subst same here
  have front : (Piece.token t).word? = some (.opening b) := opens
  have found := partnerFound (pieces before) front (pieces rest)
  rw [piecesLength, splitClosingPieces] at found
  rw [piecesAppend, piecesCons, found]
  cases splitClosing 0 rest with
  | none => rfl
  | some cut =>
      simp only [partnerOf, Option.map_some, piecesLength]
      rfl

end Brackets

section Names

theorem stripBracesCons (p : Piece) (rest : List Piece) : stripBraces (p :: rest)
    = if p.word? = some (.opening .brace) then do
        if (← partner (p :: rest) 0) = some rest.length then
          stripBraces (between (p :: rest) 1 rest.length)
        else return p :: rest
      else .ok (p :: rest) := by
  rw [stripBraces]
  rfl

theorem stripBracesBuilt (ts : List Token) :
    stripBraces (pieces ts) = lift ((LiterateMath.stripBraces ts).map pieces) := by
  fun_induction LiterateMath.stripBraces ts with
  | case1 =>
      rw [stripBraces]
      rfl
  | case2 t rest opens unclosed =>
      have found := partnerPieces [] (opensWord.mp opens) rest rfl rfl
      rw [unclosed] at found
      rw [piecesCons, stripBracesCons, tokenWord, if_pos (opensWord.mp opens)]
      exact congrArg (· >>= _) found
  | case3 t rest opens inside closer after cut ih =>
      have found := partnerPieces [] (opensWord.mp opens) rest rfl rfl
      rw [cut] at found
      rw [piecesCons, stripBracesCons, tokenWord, if_pos (opensWord.mp opens)]
      refine (congrArg (· >>= _) found).trans ?_
      obtain ⟨rfl, -, -⟩ := splitClosingFound cut
      dsimp only [partnerOf]
      cases checkClosing (α := Token) .brace t.span closer with
      | error e => rfl
      | ok =>
          rw [liftOk, bindOk, pureOk, bindOk, bindOk]
          cases after with
          | nil =>
              have within : between (pieces (t :: (inside ++ [closer]))) 1
                  (pieces (inside ++ [closer])).length = pieces inside :=
                betweenAt [.token t] _ [.token closer] (by simp) rfl (by simp [Nat.add_comm])
              rw [if_pos (by simp [Nat.add_comm]), ← piecesCons, within]
              exact ih
          | cons next after =>
              rw [if_neg (by simp; omega)]
              rfl
  | case4 t rest other =>
      rw [piecesCons, stripBracesCons, tokenWord, if_neg fun word => other (opensWord.mpr word)]
      rfl

theorem parseAtomBuilt (asSubscript : Bool) (ts : List Token) :
    parseAtom asSubscript (pieces ts) = lift (LiterateMath.parseAtom asSubscript ts) := by
  unfold parseAtom
  match ts with
  | [] => rfl
  | [t] =>
      have place : spanOf (pieces [t]) = some t.span := rfl
      have one : (pieces [t]).length = 1 := rfl
      rw [if_pos one, LiterateMath.parseAtom, place]
      cases word : t.word? with
      | none => simp [item, orBreak, word]
      | some w => cases w <;> cases asSubscript <;> simp [item, orBreak, word]
  | first :: second :: rest =>
      rw [spanOfPieces]
      rfl

theorem parseNameBuilt (limit : Nat) (asSubscript : Bool) (ts : List Token) :
    parseName limit asSubscript (pieces ts)
      = lift (LiterateMath.parseName limit asSubscript ts) := by
  induction limit generalizing asSubscript ts with
  | zero => rfl
  | succ limit ih =>
      rw [parseName, LiterateMath.parseName, stripBracesBuilt]
      cases LiterateMath.stripBraces ts with
      | error e => rfl
      | ok stripped =>
          simp only [Except.map, liftOk, bindOk]
          rw [splitOncePieces]
          cases splitOnce .underscore stripped with
          | none => exact parseAtomBuilt asSubscript stripped
          | some cut =>
              simp only [Option.map_some, ih, liftBind]
              rfl

theorem itemPieces {ts : List Token} {i : Nat} (before : List Token) (t : Token)
    (after : List Token) (same : ts = before ++ t :: after) (here : i = before.length) :
    item (pieces ts) i = .ok (.token t) := by
  subst same here
  have found := itemAt (pieces before) (.token t) (pieces after)
  rwa [piecesLength, ← piecesCons, ← piecesAppend] at found

theorem nameEndUnderscore (before : List Token) {u : Token} (word : u.word? = some .underscore)
    (t : Token) (rest : List Token) : nameEnd (pieces (before ++ u :: t :: rest)) before.length
      = if t.word? = some (.opening .brace) then do
          match ← partner (pieces (before ++ u :: t :: rest)) (before.length + 1) with
          | none => fail .subscriptNeverClosed (some t.span)
          | some close => nameEnd (pieces (before ++ u :: t :: rest)) (close + 1)
        else nameEnd (pieces (before ++ u :: t :: rest)) (before.length + 2) := by
  rw [nameEnd, if_pos (by simp), itemPieces before u (t :: rest) rfl rfl, bindOk, tokenWord,
    if_pos word, if_neg (by simp), itemPieces (before ++ [u]) t rest (by simp) (by simp), bindOk,
    tokenWord]
  split
  · split <;> rename_i found <;> simp only [found] <;> rfl
  · rfl

theorem nameEndBuilt (before ts : List Token) : nameEnd (pieces (before ++ ts)) before.length
    = lift ((takeSubscripts ts).map fun cut => before.length + cut.1.length) := by
  fun_induction takeSubscripts ts generalizing before with
  | case1 =>
      rw [nameEnd, if_neg (by simp)]
      rfl
  | case2 u word =>
      rw [nameEnd, if_pos (by simp), itemPieces before u [] rfl rfl, bindOk, tokenWord, if_pos word,
        if_pos (by simp)]
      rfl
  | case3 u word t rest opens unclosed =>
      rw [nameEndUnderscore before word, if_pos (opensWord.mp opens),
        partnerPieces (before ++ [u]) (opensWord.mp opens) rest (by simp) (by simp), unclosed]
      rfl
  | case4 u word t rest opens inside closer after cut ih =>
      rw [nameEndUnderscore before word, if_pos (opensWord.mp opens),
        partnerPieces (before ++ [u]) (opensWord.mp opens) rest (by simp) (by simp), cut]
      obtain ⟨rfl, -, -⟩ := splitClosingFound cut
      dsimp only [partnerOf]
      cases checkClosing (α := Token) .brace t.span closer with
      | error e => rfl
      | ok =>
          have shape : before ++ u :: t :: inside ++ [closer] ++ after
              = before ++ u :: t :: (inside ++ closer :: after) := by simp
          have size : (before ++ u :: t :: inside ++ [closer]).length
              = before.length + 1 + 1 + inside.length + 1 := by
            simp only [List.length_append, List.length_cons, List.length_nil]
            omega
          have later := ih (before ++ u :: t :: inside ++ [closer])
          rw [shape, size] at later
          rw [liftOk, bindOk, pureOk, bindOk, bindOk]
          refine later.trans ?_
          cases takeSubscripts after with
          | error e => rfl
          | ok more =>
              simp only [Except.map, liftOk, bindOk, pureOk, List.length_append, List.length_cons]
              congr 1
              omega
  | case5 u word t rest other ih =>
      have later := ih (before ++ [u, t])
      rw [List.append_assoc, List.length_append] at later
      rw [nameEndUnderscore before word, if_neg fun word => other (opensWord.mpr word)]
      refine later.trans ?_
      cases takeSubscripts rest with
      | error e => rfl
      | ok more =>
          simp only [Except.map, liftOk, bindOk, pureOk, List.length_cons, List.length_nil]
          congr 1
          omega
  | case6 u rest other =>
      rw [nameEnd, if_pos (by simp), itemPieces before u rest rfl rfl, bindOk, tokenWord,
        if_neg other]
      rfl

end Names

section Gathering

theorem gatherNamesBuilt (limit : Nat) (ts : List Token) :
    gatherNames limit (pieces ts) = lift (gatherNamesWithin limit ts) := by
  fun_induction gatherNamesWithin limit ts with
  | case1 =>
      rw [piecesNil, gatherNames]
      rfl
  | case2 t rest starts fault taken =>
      have ended := nameEndBuilt [t] rest
      rw [taken] at ended
      rw [piecesCons, gatherNames, if_pos (show isName (.token t) = true from starts)]
      split
      · rename_i fails
        exact congrArg _ (Except.error.inj (fails.symm.trans ended))
      · rename_i found
        cases found.symm.trans ended
  | case3 t rest starts subs after taken ih =>
      have ended : nameEnd (pieces (t :: rest)) 1 = .ok (pieces (t :: subs)).length :=
        (nameEndBuilt [t] rest).trans (by simp [taken, Except.map, Nat.add_comm])
      obtain rfl := takeSubscriptsParts taken
      have run : pieces (t :: (subs ++ after)) = pieces (t :: subs) ++ pieces after := by simp
      rw [piecesCons, gatherNames, if_pos (show isName (.token t) = true from starts), ← piecesCons]
      split
      · rename_i fails
        cases fails.symm.trans ended
      · rename_i found
        obtain rfl := Except.ok.inj (found.symm.trans ended)
        rw [run, List.take_left, List.drop_left, ih, parseNameBuilt, spanOfPieces, liftBind]
        simp only [liftBind]
        rfl
  | case4 t rest other ih =>
      rw [piecesCons, gatherNames, if_neg (show ¬ isName (.token t) = true from other), ih,
        liftBind]
      rfl

end Gathering

end LiterateMath.Building
