import LiterateMath.Parse.Statement
import LiterateMath.Proofs.Brackets

/-! How what is read is written again: the words of an expression in the order in which its text
has them. The same layout is made of tokens and of the pieces that are recognised among them. -/
namespace LiterateMath

open Lexical

section Divided

variable {α : Type} [Lexical α]

def Word.divides : Word → Bool
  | opening _ | closing _ | comma => true
  | _ => false

structure Solid (as : List α) : Prop where
  balanced : Balanced as
  undivided : ∀ bs, splitTop .comma 0 (as ++ bs) = (splitTop .comma 0 bs).modifyHead (as ++ ·)

namespace Solid

theorem nil : Solid ([] : List α) := ⟨rfl, fun _ => (modifyHeadNothing _).symm⟩

theorem append {as bs : List α} (h : Solid as) (h' : Solid bs) : Solid (as ++ bs) where
  balanced := h.balanced.append h'.balanced
  undivided cs := by rw [List.append_assoc, h.undivided, h'.undivided, modifyHeadTwice]

theorem single {a : α} {w : Word} (word : word? a = some w) (h : w.divides = false) :
    Solid [a] where
  balanced := by
    refine .single (fun b same => ?_) fun b same => ?_ <;> cases word.symm.trans same <;> cases h
  undivided bs := by
    have other : ¬ (word? a = some .comma ∧ (0 : Int) = 0) := by
      rintro ⟨same, -⟩
      cases word.symm.trans same
      cases h
    have level : depthStep a = 0 := by
      unfold depthStep
      split <;> rename_i same
      · cases word.symm.trans same
        cases h
      · cases word.symm.trans same
        cases h
      · rfl
    rw [List.singleton_append, splitTop, if_neg other, level]
    rfl

theorem cons {a : α} {w : Word} (word : word? a = some w) (h : w.divides = false) {as : List α}
    (rest : Solid as) : Solid (a :: as) := (single word h).append rest

theorem wordless {a : α} (word : word? a = none) : Solid [a] where
  balanced := .single (fun b same => by cases word.symm.trans same)
    fun b same => by cases word.symm.trans same
  undivided bs := by
    have other : ¬ (word? a = some .comma ∧ (0 : Int) = 0) := by simp [word]
    have level : depthStep a = 0 := by simp [depthStep, word]
    rw [List.singleton_append, splitTop, if_neg other, level]
    rfl

theorem group {b c : Bracket} {opener closer : α} {inside : List α} (h : Balanced inside)
    (opens : word? opener = some (.opening b)) (closes : word? closer = some (.closing c)) :
    Solid (opener :: inside ++ [closer]) where
  balanced := h.wrapped opens closes
  undivided bs := by
    have past := splitTopOverGroup (w := .comma) h opens closes (by simp) 0 bs
    simpa using past

end Solid

end Divided

section Words

def Word.bare (w : Word) : Token := .plain w ⟨0, 0⟩

def BinaryOperator.word : BinaryOperator → Word
  | addition => .sign .plus | subtraction => .sign .minus | multiplication => .sign .star
  | division => .sign .slash | exponent => .sign .caret
  | o => .operator o

def Connective.word : Connective → Word
  | operator o => o.word
  | relation r => .relation r

def UnaryOperator.word : UnaryOperator → Word
  | negation => .sign .minus
  | complement => .unary .complement

end Words

section Layout

variable {α : Type} (word : Word → α) (name : Name → List α)

def enclosed (b : Bracket) (inside : List α) : List α :=
  word (.opening b) :: inside ++ [word (.closing b)]

def listed (parts : List (List α)) : List α := [word .comma].intercalate parts

theorem listedOne (part : List α) : listed word [part] = part := by simp [listed]

theorem listedMore (part next : List α) (rest : List (List α)) :
    listed word (part :: next :: rest) = part ++ word .comma :: listed word (next :: rest) := by
  simp [listed, List.intercalate_cons_cons]

mutual

def Expr.layout : Expr → List α
  | .literal (.integer n) _ => [word (.number (Text.integer n))]
  | .literal .. | .conditional .. => []
  | .lookup n _ => name n
  | .call function args _ => name function ++ enclosed word .paren (listed word (layouts args))
  | .unary op arg _ => enclosed word .paren (word op.word :: arg.layout)
  | .binary op lhs rhs _ => enclosed word .paren (lhs.layout ++ word op.word :: rhs.layout)

def Expr.layouts : List Expr → List (List α)
  | [] => []
  | e :: rest => e.layout :: layouts rest

end

mutual

def Expr.isPlain : Expr → Bool
  | .literal (.real _) _ | .conditional .. => false
  | .literal .. | .lookup .. => true
  | .call _ args _ => allPlain args
  | .unary _ arg _ => arg.isPlain
  | .binary _ lhs rhs _ => lhs.isPlain && rhs.isPlain

def Expr.allPlain : List Expr → Bool
  | [] => true
  | e :: rest => e.isPlain && allPlain rest

end

def Statement.isPlain : Statement → Bool
  | .expression e | .valueDeclaration _ e _ => e.isPlain
  | .functionDeclaration _ => true
  | .setDeclaration _ members _ => Expr.allPlain members
  | .functionDefinition d => d.body.isPlain

def Name.tokens : Name → List Token
  | text letters =>
      [Word.bare (if letters.toList.all Char.isDigit then .number letters else .text letters)]
  | greek letter => [Word.bare (.greek letter)]
  | subscripted base sub =>
      base.tokens ++ Word.bare .underscore :: enclosed Word.bare .brace sub.tokens

abbrev Expr.tokens (e : Expr) : List Token := e.layout Word.bare Name.tokens

abbrev Expr.tokenLists (es : List Expr) : List (List Token) := Expr.layouts Word.bare Name.tokens es

def Word.piece (w : Word) : Piece := .token w.bare

def Name.piece (n : Name) : Piece := .name n ⟨0, 0⟩

abbrev Expr.pieces (e : Expr) : List Piece := e.layout Word.piece fun n => [n.piece]

abbrev Expr.pieceLists (es : List Expr) : List (List Piece) :=
  Expr.layouts Word.piece (fun n => [n.piece]) es

def Statement.tokens : Statement → List Token
  | .expression e => e.tokens
  | .functionDeclaration d => d.name.tokens ++ [Word.bare .colon, Word.bare (.numberSet d.domain),
      Word.bare .arrow, Word.bare (.numberSet d.codomain)]
  | .valueDeclaration name value _ => name.tokens ++ Word.bare .equals :: value.tokens
  | .setDeclaration name members _ => name.tokens ++ Word.bare .equals
      :: enclosed Word.bare .escapedBrace (listed Word.bare (Expr.tokenLists members))
  | .functionDefinition d => d.name.tokens
      ++ enclosed Word.bare .paren (listed Word.bare (d.params.map Name.tokens))
      ++ Word.bare .equals :: d.body.tokens

end Layout

section Solidity

variable {α : Type} [Lexical α] {word : Word → α} {name : Name → List α}

theorem connectiveUndivided (c : Connective) : c.word.divides = false := by
  cases c with
  | operator o => cases o <;> rfl
  | relation r => rfl

theorem unaryUndivided (u : UnaryOperator) : u.word.divides = false := by
  cases u <;> rfl

theorem listedBalanced (words : ∀ w, word? (word w) = some w) {parts : List (List α)}
    (h : ∀ part ∈ parts, Balanced part) : Balanced (listed word parts) := by
  have comma : Balanced [word .comma] := .single (fun b same => by cases (words _).symm.trans same)
    fun b same => by cases (words _).symm.trans same
  induction parts with
  | nil => rfl
  | cons part rest ih =>
      have first := h part List.mem_cons_self
      cases rest with
      | nil => rwa [listedOne]
      | cons next rest =>
          rw [listedMore]
          exact first.append (comma.append
            (ih fun other member => h other (List.mem_cons_of_mem part member)))

theorem splitTopListed (words : ∀ w, word? (word w) = some w) {parts : List (List α)}
    (filled : parts ≠ []) (h : ∀ part ∈ parts, Solid part) :
    splitTop .comma 0 (listed word parts) = parts := by
  induction parts with
  | nil => exact absurd rfl filled
  | cons part rest ih =>
      have first := (h part List.mem_cons_self).undivided
      cases rest with
      | nil => simpa [listedOne, splitTop] using first []
      | cons next rest =>
          have later := ih (by simp) fun other member => h other (List.mem_cons_of_mem part member)
          rw [listedMore, first, splitTop, if_pos ⟨words _, rfl⟩, later]
          simp

theorem solidEnclosed (words : ∀ w, word? (word w) = some w) {inside : List α}
    (h : Balanced inside) (b : Bracket) : Solid (enclosed word b inside) :=
  .group h (words _) (words _)

mutual

theorem layoutSolid (words : ∀ w, word? (word w) = some w) (names : ∀ n, Solid (name n)) :
    ∀ e : Expr, Solid (e.layout word name)
  | .literal (.integer _) _ => .single (words _) rfl
  | .literal (.real _) _ | .literal (.complex ..) _ | .literal (.rational _) _
  | .literal (.truth _) _ | .conditional .. => .nil
  | .lookup n _ => names n
  | .call function args _ =>
      have inside := listedBalanced words (layoutsBalanced words names args)
      (names function).append (solidEnclosed words inside .paren)
  | .unary op arg _ =>
      have inner := layoutSolid words names arg
      solidEnclosed words (Solid.cons (words _) (unaryUndivided op) inner).balanced .paren
  | .binary op lhs rhs _ =>
      have left := layoutSolid words names lhs
      have right := layoutSolid words names rhs
      have all := left.append (.cons (words _) (connectiveUndivided op) right)
      solidEnclosed words all.balanced .paren

theorem layoutsBalanced (words : ∀ w, word? (word w) = some w) (names : ∀ n, Solid (name n)) :
    ∀ es : List Expr, ∀ part ∈ Expr.layouts word name es, Balanced part
  | [], _, member => nomatch member
  | e :: rest, part, member => by
      rcases List.mem_cons.mp member with rfl | later
      · exact (layoutSolid words names e).balanced
      · exact layoutsBalanced words names rest part later

end

theorem layoutsSolid (words : ∀ w, word? (word w) = some w) (names : ∀ n, Solid (name n))
    (es : List Expr) : ∀ part ∈ Expr.layouts word name es, Solid part := by
  induction es with
  | nil => simp [Expr.layouts]
  | cons e rest ih =>
      intro part member
      rcases List.mem_cons.mp member with rfl | later
      · exact layoutSolid words names e
      · exact ih part later

theorem bareWord (w : Word) : word? w.bare = some w := rfl

theorem pieceWord (w : Word) : word? w.piece = some w := rfl

theorem nameSolid : ∀ n : Name, Solid n.tokens
  | .text letters => by
      refine .single (bareWord _) ?_
      split <;> rfl
  | .greek _ => .single (bareWord _) rfl
  | .subscripted base sub =>
      (nameSolid base).append
        (.cons (bareWord _) rfl (solidEnclosed bareWord (nameSolid sub).balanced .brace))

theorem parametersBalanced (params : List Name) :
    Balanced (listed Word.bare (params.map Name.tokens)) :=
  listedBalanced bareWord fun ts member => by
    obtain ⟨n, -, rfl⟩ := List.mem_map.mp member
    exact (nameSolid n).balanced

theorem pieceSolid (n : Name) : Solid [n.piece] := .wordless rfl

end Solidity
end LiterateMath
