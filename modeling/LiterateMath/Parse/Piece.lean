import LiterateMath.Depth
import LiterateMath.Expr
import LiterateMath.Parse.Name

/-! The pieces of an expression: tokens, and the names and calls recognised among them. Two
numbers around a point are one real; text or a Greek letter with all its subscripts is one
name. -/
namespace LiterateMath

inductive Piece where
  | token (t : Token)
  | name (name : Name) (place : Span)
  | call (function : Name) (args : List Expr) (place : Span)
  deriving Repr

namespace Piece

def span : Piece → Span
  | token t => t.span
  | name _ place => place
  | call _ _ place => place

def word? : Piece → Option Word
  | token t => t.word?
  | _ => none

end Piece

instance : Lexical Piece := ⟨Piece.word?, Piece.span⟩

def joinReals : List Token → List Token
  | .plain (.number whole) first :: .plain .point _ :: .plain (.number fraction) last :: rest =>
      .plain (.real (Real.ofDigits whole.toList fraction.toList)) (first.through last)
        :: joinReals rest
  | t :: rest => t :: joinReals rest
  | [] => []

def startsName (t : Token) : Bool :=
  match t.word? with
  | some (.text _) | some (.greek _) => true
  | _ => false

def takeSubscripts : List Token → Parsed (List Token × List Token)
  | [] => .ok ([], [])
  | u :: rest =>
      if u.word? = some .underscore then
        match rest with
        | [] => malformed .subscriptMissing (some u.span)
        | t :: rest =>
            if t.opens .brace then
              match _h : splitClosing 0 rest with
              | none => malformed .subscriptNeverClosed (some t.span)
              | some (inside, closer, after) => do
                  checkClosing .brace t.span closer
                  let more ← takeSubscripts after
                  return (u :: t :: inside ++ closer :: more.1, more.2)
            else do
              let more ← takeSubscripts rest
              return (u :: t :: more.1, more.2)
      else .ok ([], u :: rest)
termination_by ts => ts.length
decreasing_by
  · have := splitClosingLength _h
    simp only [List.length_cons]
    omega
  · simp only [List.length_cons]
    omega

theorem takeSubscriptsLength {ts subs after : List Token}
    (h : takeSubscripts ts = .ok (subs, after)) : subs.length + after.length = ts.length := by
  fun_induction takeSubscripts ts generalizing subs after with
  | case1 => cases h; rfl
  | case2 => cases h
  | case3 => cases h
  | case4 u _ t rest _ inside closer tail cut ih =>
      have := splitClosingLength cut
      cases check : checkClosing (α := Token) .brace t.span closer with
      | error e => rw [check] at h; cases h
      | ok _ =>
          rw [check] at h
          cases more : takeSubscripts tail with
          | error e => rw [more] at h; cases h
          | ok pair =>
              rw [more] at h
              cases h
              have := ih more
              simp only [List.length_append, List.length_cons]
              omega
  | case5 u _ t rest _ ih =>
      cases more : takeSubscripts rest with
      | error e => rw [more] at h; cases h
      | ok pair =>
          rw [more] at h
          cases h
          have := ih more
          simp only [List.length_cons]
          omega
  | case6 u rest _ => cases h; simp

def gatherNames : List Token → Parsed (List Piece)
  | [] => .ok []
  | t :: rest =>
      if startsName t then
        match _h : takeSubscripts rest with
        | .error e => .error e
        | .ok (subs, after) => do
            let name ← parseName subscriptDepth false (t :: subs)
            let last := (t :: subs).getLast (List.cons_ne_nil t subs)
            return .name name (t.span.through last.span) :: (← gatherNames after)
      else do return .token t :: (← gatherNames rest)
termination_by ts => ts.length
decreasing_by
  · have := takeSubscriptsLength _h
    simp only [List.length_cons]
    omega
  · simp

end LiterateMath
