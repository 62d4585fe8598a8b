import LiterateMath.Proofs.Lowering
import LiterateMath.Proofs.Places.Reading
import LiterateMath.Proofs.Printing.Layout
import LiterateMath.Proofs.Printing.Legible

/-! The names in what is laid out are gathered again. A name is read from its tokens as it was,
with all of its subscripts, and nothing else among the tokens of an expression begins a name. -/
namespace LiterateMath

open Lexical

section Names

theorem cutAtNone {α : Type} {test : α → Bool} {as : List α} (h : ∀ a ∈ as, test a = false) :
    cutAt test as = none := by
  induction as with
  | nil => rfl
  | cons a rest ih =>
      rw [cutAt, if_neg (by simp [h a List.mem_cons_self]),
        ih fun b member => h b (List.mem_cons_of_mem a member)]
      rfl

theorem cutAtFirst {α : Type} {test : α → Bool} {as : List α} {sep : α} {bs : List α}
    (h : ∀ a ∈ as, test a = false) (here : test sep = true) :
    cutAt test (as ++ sep :: bs) = some (as, sep, bs) := by
  induction as with
  | nil => simp [cutAt, here]
  | cons a rest ih =>
      rw [List.cons_append, cutAt, if_neg (by simp [h a List.mem_cons_self]),
        ih fun b member => h b (List.mem_cons_of_mem a member)]
      rfl

def Name.front : Name → Token
  | text letters =>
      Word.bare (if letters.toList.all Char.isDigit then .number letters else .text letters)
  | greek letter => Word.bare (.greek letter)
  | subscripted base _ => base.front

theorem nameFront (n : Name) : ∃ rest, n.tokens = n.front :: rest := by
  induction n with
  | text letters => exact ⟨[], rfl⟩
  | greek letter => exact ⟨[], rfl⟩
  | subscripted base sub ih _ =>
      obtain ⟨rest, same⟩ := ih
      exact ⟨_, by rw [Name.tokens, same]; rfl⟩

theorem frontUnbraced (n : Name) : n.front.opens .brace = false := by
  induction n with
  | text letters =>
      rw [Name.front]
      split <;> rfl
  | greek letter => rfl
  | subscripted base sub ih _ => exact ih

theorem frontLetters {s : String} (h : Letters s) : (Name.text s).front = Word.bare (.text s) := by
  rw [Name.front, lettersNoDigits h]
  rfl

theorem frontDigits {s : String} (h : Digits s) : (Name.text s).front = Word.bare (.number s) := by
  rw [Name.front, List.all_eq_true.mpr h.2]
  rfl

theorem frontStarts {n : Name} (h : n.legible false) : startsName n.front = true := by
  induction n with
  | text letters =>
      rcases h with ⟨letters, -⟩ | ⟨below, -⟩
      · rw [frontLetters letters]
        rfl
      · cases below
  | greek letter => rfl
  | subscripted base sub ih _ => exact ih h.2.1

theorem frontPlain (n : Name) : n.front.word? ≠ some .underscore := by
  induction n with
  | text letters =>
      rw [Name.front]
      split <;> simp [Word.bare, Token.word?]
  | greek letter => simp [Name.front, Word.bare, Token.word?]
  | subscripted base sub ih _ => exact ih

theorem stripBracesName (n : Name) : stripBraces n.tokens = .ok n.tokens := by
  obtain ⟨rest, same⟩ := nameFront n
  rw [same, stripBraces, if_neg (by simp [frontUnbraced])]

theorem stripBracesEnclosed (n : Name) :
    stripBraces (enclosed Word.bare .brace n.tokens) = .ok n.tokens := by
  have cut : splitClosing 0 (n.tokens ++ [Word.bare (.closing .brace)])
      = some (n.tokens, Word.bare (.closing .brace), []) :=
    splitClosingAt (nameSolid n).balanced rfl []
  have closes : checkClosing .brace ⟨0, 0⟩ (Word.bare (.closing .brace)) = .ok () :=
    checkClosingOk.mpr rfl
  rw [enclosed, List.cons_append, stripBracesOpening rfl cut]
  simp [Word.bare, Token.span] at closes ⊢
  rw [closes, bindOk, stripBracesName]

theorem flatTokens {n : Name} (flat : n.isSubscripted = false) : n.tokens = [n.front] := by
  cases n with
  | subscripted => cases flat
  | _ => rfl

theorem parseAtomFront {asSubscript : Bool} {n : Name} (h : n.legible asSubscript)
    (flat : n.isSubscripted = false) : parseAtom asSubscript [n.front] = .ok n := by
  cases n with
  | text letters =>
      rcases h with ⟨letters, -⟩ | ⟨rfl, digits⟩
      · rw [frontLetters letters]
        rfl
      · rw [frontDigits digits]
        rfl
  | greek letter => rfl
  | subscripted => cases flat

theorem parseNameStripped {limit : Nat} {asSubscript : Bool} {ts stripped : List Token}
    (h : stripBraces ts = .ok stripped) (again : stripBraces stripped = .ok stripped) :
    parseName limit asSubscript ts = parseName limit asSubscript stripped := by
  cases limit with
  | zero => rfl
  | succ limit => rw [parseName, parseName, h, again]

theorem parseNameFront {limit : Nat} {asSubscript : Bool} {n : Name} (h : n.legible asSubscript)
    (flat : n.isSubscripted = false) : parseName (limit + 1) asSubscript n.tokens = .ok n := by
  have single : splitOnce .underscore [n.front] = none := by
    rw [splitOnce, cutAtNone]
    · rfl
    · intro t member
      obtain rfl := List.mem_singleton.mp member
      exact decide_eq_false (frontPlain n)
  rw [parseName, stripBracesName, bindOk, flatTokens flat, single]
  exact parseAtomFront h flat

theorem parseNameTokens {limit : Nat} {asSubscript : Bool} {n : Name} (h : n.legible asSubscript)
    (shallow : n.depth < limit) : parseName limit asSubscript n.tokens = .ok n := by
  obtain ⟨limit, rfl⟩ := Nat.exists_eq_succ_of_ne_zero (Nat.ne_zero_of_lt shallow)
  induction n generalizing limit asSubscript with
  | text letters => exact parseNameFront h rfl
  | greek letter => exact parseNameFront h rfl
  | subscripted base sub ih ih' =>
      obtain ⟨flat, first, second⟩ := h
      simp only [Name.depth] at shallow
      obtain ⟨limit, rfl⟩ : ∃ below, limit = below + 1 := ⟨limit - 1, by omega⟩
      have cut : splitOnce .underscore (Name.subscripted base sub).tokens
          = some (base.tokens, enclosed Word.bare .brace sub.tokens) := by
        rw [splitOnce, Name.tokens, flatTokens flat, cutAtFirst]
        · rfl
        · intro t member
          obtain rfl := List.mem_singleton.mp member
          exact decide_eq_false (frontPlain base)
        · rfl
      rw [parseName, stripBracesName, bindOk, cut]
      simp only
      rw [ih first limit (by omega), bindOk,
        parseNameStripped (stripBracesEnclosed sub) (stripBracesName sub),
        ih' second limit (by omega)]
      rfl

end Names

section Gathered

theorem nameSpans {n : Name} : ∀ t ∈ n.tokens, t.span = ⟨0, 0⟩ := by
  induction n with
  | text letters => simp [Name.tokens, Word.bare, Token.span]
  | greek letter => simp [Name.tokens, Word.bare, Token.span]
  | subscripted base sub ih ih' =>
      intro t member
      simp only [Name.tokens, enclosed, List.mem_append, List.mem_cons, List.not_mem_nil,
        or_false] at member
      obtain before | rfl | (rfl | inside) | rfl := member
      · exact ih t before
      · rfl
      · rfl
      · exact ih' t inside
      · rfl

def EndsName (ts : List Token) : Prop := ∀ t ∈ ts.head?, t.word? ≠ some .underscore

theorem EndsName.append {ts us : List Token} (h : EndsName ts) (h' : EndsName us) :
    EndsName (ts ++ us) := by
  cases ts with
  | nil => exact h'
  | cons t ts => exact h

theorem takeSubscriptsEnd {rest : List Token} (h : EndsName rest) :
    takeSubscripts rest = .ok ([], rest) := by
  cases rest with
  | nil => simp [takeSubscripts]
  | cons t rest => exact takeSubscriptsOther (h t rfl) rest

theorem takeSubscriptsName {n : Name} {asSubscript : Bool} (h : n.legible asSubscript)
    {rest subs : List Token} (same : n.tokens = n.front :: subs) (ends : EndsName rest) :
    takeSubscripts (subs ++ rest) = .ok (subs, rest) := by
  cases n with
  | subscripted base sub =>
      rw [Name.tokens, flatTokens h.1] at same
      obtain rfl : Word.bare .underscore :: enclosed Word.bare .brace sub.tokens = subs :=
        (List.cons.inj same).2
      have cut := splitClosingAt (nameSolid sub).balanced (bareWord (.closing .brace)) rest
      have closes : checkClosing .brace ⟨0, 0⟩ (Word.bare (.closing .brace)) = .ok () :=
        checkClosingOk.mpr rfl
      have form : Word.bare .underscore :: enclosed Word.bare .brace sub.tokens ++ rest
          = Word.bare .underscore :: Word.bare (.opening .brace)
            :: (sub.tokens ++ Word.bare (.closing .brace) :: rest) := by simp [enclosed]
      rw [form, takeSubscriptsGroup rfl rfl cut, takeSubscriptsEnd ends]
      simp only [Word.bare, Token.span] at closes ⊢
      rw [closes]
      simp [enclosed, Word.bare]
  | _ =>
      obtain rfl : subs = [] := (List.cons.inj same).2.symm
      exact takeSubscriptsEnd ends

theorem gatherNamesTokens {n : Name} (h : n.legible false) (shallow : n.depth < subscriptDepth)
    {rest : List Token} (ends : EndsName rest) :
    gatherNames (n.tokens ++ rest) = do return n.piece :: (← gatherNames rest) := by
  obtain ⟨subs, same⟩ := nameFront n
  have read := parseNameTokens h shallow
  have spans := @nameSpans n
  rw [same] at read spans ⊢
  have last := spans _ (List.getLast_mem (List.cons_ne_nil n.front subs))
  rw [List.cons_append, gatherNamesName (frontStarts h) (takeSubscriptsName h same ends), read,
    bindOk]
  simp only [last, spans n.front List.mem_cons_self]
  rfl

def Gathers (ts : List Token) (ps : List Piece) : Prop :=
  ∀ rest qs, EndsName rest → gatherNames rest = .ok qs → gatherNames (ts ++ rest) = .ok (ps ++ qs)

namespace Gathers

variable {ts us : List Token} {ps qs : List Piece}

theorem nil : Gathers [] [] := fun _ _ _ h => h

theorem append (h : Gathers ts ps) (ends : EndsName us) (h' : Gathers us qs) :
    Gathers (ts ++ us) (ps ++ qs) := by
  intro rest more ends' later
  rw [List.append_assoc, List.append_assoc]
  exact h _ _ (ends.append ends') (h' rest more ends' later)

theorem name {n : Name} (h : n.legible false) (shallow : n.depth < subscriptDepth) :
    Gathers n.tokens [n.piece] := by
  intro rest more ends later
  rw [gatherNamesTokens h shallow ends, later]
  rfl

theorem cons {w : Word} (plain : startsName w.bare = false) (h : Gathers ts ps) :
    Gathers (w.bare :: ts) (w.piece :: ps) := by
  intro rest more ends later
  rw [List.cons_append, gatherNamesOther plain, h rest more ends later]
  rfl

theorem enclosed (h : Gathers ts ps) (b : Bracket) :
    Gathers (LiterateMath.enclosed Word.bare b ts) (LiterateMath.enclosed Word.piece b ps) := by
  have closer : Gathers [Word.bare (.closing b)] [Word.piece (.closing b)] := nil.cons rfl
  exact (h.append (by simp [EndsName, Word.bare, Token.word?]) closer).cons rfl

theorem listed {tss : List (List Token)} {pss : List (List Piece)}
    (h : List.Forall₂ Gathers tss pss) :
    Gathers (LiterateMath.listed Word.bare tss) (LiterateMath.listed Word.piece pss) := by
  induction h with
  | nil => exact nil
  | @cons ts ps tss pss first rest ih =>
      cases rest with
      | nil => rwa [listedOne, listedOne]
      | cons second rest =>
          rw [listedMore, listedMore]
          have comma : Gathers (Word.bare .comma :: _) (Word.piece .comma :: _) := ih.cons rfl
          exact first.append (by simp [EndsName, Word.bare, Token.word?]) comma

end Gathers

theorem connectiveUnnamed (c : Connective) : startsName c.word.bare = false := by
  cases c with
  | operator o => cases o <;> rfl
  | relation r => rfl

theorem unaryUnnamed (u : UnaryOperator) : startsName u.word.bare = false := by
  cases u <;> rfl

theorem connectiveEndsName (c : Connective) (ts : List Token) : EndsName (c.word.bare :: ts) := by
  intro t first
  cases first
  cases c with
  | operator o => cases o <;> simp [Connective.word, BinaryOperator.word, Word.bare, Token.word?]
  | relation r => simp [Connective.word, Word.bare, Token.word?]

mutual

theorem exprGathers : ∀ e : Expr, e.legible → e.textLevels ≤ subscriptDepth →
    Gathers e.tokens e.pieces
  | .literal (.integer _) _, _, _ => Gathers.nil.cons rfl
  | .literal (.real _) _, _, _ | .literal (.complex ..) _, _, _ | .literal (.rational _) _, _, _
  | .literal (.truth _) _, _, _ | .conditional .., _, _ => .nil
  | .lookup _ _, h, shallow => .name h shallow
  | .call function args _, h, shallow => by
      simp only [Expr.textLevels] at shallow
      have inside := (Gathers.listed (argumentsGather args h.2 (by omega))).enclosed .paren
      have name := Gathers.name h.1 (by omega)
      exact name.append (by simp [EndsName, enclosed, Word.bare, Token.word?]) inside
  | .unary op arg _, h, shallow => by
      simp only [Expr.textLevels] at shallow
      have inner := exprGathers arg h (by omega)
      exact (inner.cons (unaryUnnamed op)).enclosed .paren
  | .binary op lhs rhs _, h, shallow => by
      simp only [Expr.textLevels] at shallow
      have left := exprGathers lhs h.1 (by omega)
      have right := exprGathers rhs h.2 (by omega)
      exact (left.append (connectiveEndsName op _) (right.cons (connectiveUnnamed op))).enclosed .paren

theorem argumentsGather : ∀ es : List Expr, legibleAll es → Expr.mostLevels es ≤ subscriptDepth →
    List.Forall₂ Gathers (Expr.tokenLists es) (Expr.pieceLists es)
  | [], _, _ => .nil
  | e :: rest, h, shallow => by
      simp only [Expr.mostLevels] at shallow
      exact .cons (exprGathers e h.1 (by omega)) (argumentsGather rest h.2 (by omega))

end

end Gathered

section Pieces

def Word.printed : Word → Bool
  | text _ | number _ | greek _ | underscore | comma | sign _ | operator _ | unary _ | relation _
  | opening .paren | closing .paren | opening .brace | closing .brace => true
  | _ => false

def Printed (ts : List Token) : Prop := ∀ t ∈ ts, ∃ w, t = Word.bare w ∧ w.printed = true

namespace Printed

variable {ts us : List Token}

theorem nil : Printed [] := by simp [Printed]

theorem cons {w : Word} (h : w.printed = true) (h' : Printed ts) : Printed (w.bare :: ts) := by
  intro t member
  rcases List.mem_cons.mp member with rfl | later
  · exact ⟨w, rfl, h⟩
  · exact h' t later

theorem append (h : Printed ts) (h' : Printed us) : Printed (ts ++ us) := fun t member =>
  (List.mem_append.mp member).elim (h t) (h' t)

theorem enclosed {b : Bracket} (opens : (Word.opening b).printed = true)
    (closes : (Word.closing b).printed = true) (h : Printed ts) :
    Printed (LiterateMath.enclosed Word.bare b ts) := (h.append (nil.cons closes)).cons opens

theorem listed {tss : List (List Token)} (h : ∀ ts ∈ tss, Printed ts) :
    Printed (LiterateMath.listed Word.bare tss) := by
  induction tss with
  | nil => exact nil
  | cons ts rest ih =>
      cases rest with
      | nil =>
          rw [listedOne]
          exact h ts List.mem_cons_self
      | cons next rest =>
          rw [listedMore]
          have later := ih fun us member => h us (List.mem_cons_of_mem ts member)
          exact (h ts List.mem_cons_self).append (later.cons rfl)

theorem without (h : Printed ts) {w : Word} (other : w.printed = false) :
    ∀ t ∈ ts, t.word? ≠ some w := by
  rintro t member same
  obtain ⟨w', rfl, printed⟩ := h t member
  cases same
  rw [other] at printed
  cases printed

end Printed

theorem connectivePrinted (c : Connective) : c.word.printed = true := by
  cases c with
  | operator o => cases o <;> rfl
  | relation r => rfl

theorem unaryPrinted (u : UnaryOperator) : u.word.printed = true := by
  cases u <;> rfl

theorem namePrinted : ∀ n : Name, Printed n.tokens
  | .text letters => by
      refine Printed.nil.cons ?_
      split <;> rfl
  | .greek _ => Printed.nil.cons rfl
  | .subscripted base sub =>
      (namePrinted base).append (((namePrinted sub).enclosed rfl rfl).cons rfl)

mutual

theorem exprPrinted : ∀ e : Expr, Printed e.tokens
  | .literal (.integer _) _ => Printed.nil.cons rfl
  | .literal (.real _) _ | .literal (.complex ..) _ | .literal (.rational _) _
  | .literal (.truth _) _ | .conditional .. => .nil
  | .lookup n _ => namePrinted n
  | .call function args _ =>
      (namePrinted function).append ((Printed.listed (argumentsPrinted args)).enclosed rfl rfl)
  | .unary op arg _ => ((exprPrinted arg).cons (unaryPrinted op)).enclosed rfl rfl
  | .binary op lhs rhs _ =>
      have right := (exprPrinted rhs).cons (connectivePrinted op)
      ((exprPrinted lhs).append right).enclosed rfl rfl

theorem argumentsPrinted : ∀ es : List Expr, ∀ ts ∈ Expr.tokenLists es, Printed ts
  | [], _, member => nomatch member
  | e :: rest, ts, member => by
      rcases List.mem_cons.mp member with rfl | later
      · exact exprPrinted e
      · exact argumentsPrinted rest ts later

end

theorem lowerPrinted {ts : List Token} (h : Printed ts) (limit : Nat) :
    lowerCommands (limit + 1) ts = .ok ts := by
  refine lowerSpelledOut (fun t member => ?_) limit
  obtain ⟨w, rfl, printed⟩ := h t member
  cases w <;> first | rfl | cases printed

theorem joinRealsNone {ts : List Token} (h : ∀ t ∈ ts, t.word? ≠ some .point) :
    joinReals ts = ts := by
  fun_induction joinReals ts with
  | case1 whole first at_ fraction last rest ih =>
      exact absurd rfl (h (.plain .point at_) (by simp))
  | case2 t rest single ih =>
      rw [ih fun t' member => h t' (List.mem_cons_of_mem t member)]
  | case3 => rfl

theorem toPiecesPrinted {ts : List Token} {ps : List Piece} (h : Printed ts)
    (gathers : Gathers ts ps) : toPieces ts = .ok ps := by
  obtain ⟨limit, depth⟩ := spelledLimit
  refine toPiecesOk.mpr ⟨ts, by rw [depth, lowerPrinted h], ?_⟩
  rw [named, joinRealsNone (h.without rfl)]
  have whole := gathers [] [] (by simp [EndsName]) (by simp [gatherNames])
  simpa using whole

end Pieces
end LiterateMath
