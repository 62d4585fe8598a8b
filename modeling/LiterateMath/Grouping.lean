import LiterateMath.ParseFault

/-! Lists of tokens divided by their brackets. All four kinds of bracket count toward one
depth; that a closing bracket is of the kind that was opened is looked at only where a group
ends. The same divisions are made of tokens and of what is recognised among them, so they are
stated for anything that has a place and may be a single word. -/
namespace LiterateMath

def cutAt {α : Type} (test : α → Bool) : List α → Option (List α × α × List α)
  | [] => none
  | a :: rest =>
      if test a then some ([], a, rest)
      else (cutAt test rest).map fun cut => (a :: cut.1, cut.2)

class Lexical (α : Type) where
  word? : α → Option Word
  span : α → Span

instance : Lexical Token := ⟨Token.word?, Token.span⟩

open Lexical

variable {α : Type} [Lexical α]

def openingBracket? (a : α) : Option Bracket :=
  match word? a with
  | some (.opening b) => some b
  | _ => none

def closingBracket? (a : α) : Option Bracket :=
  match word? a with
  | some (.closing b) => some b
  | _ => none

def depthStep (a : α) : Int :=
  match word? a with
  | some (.opening _) => 1
  | some (.closing _) => -1
  | _ => 0

def spanOf : List α → Option Span
  | [] => none
  | a :: rest => some ((span a).through (span ((a :: rest).getLast (List.cons_ne_nil a rest))))

def splitOnce (w : Word) (as : List α) : Option (List α × List α) :=
  (cutAt (fun a => word? a = some w) as).map fun cut => (cut.1, cut.2.2)

/-- Cuts wherever a word occurs outside of all brackets. The depth counts from the given one
and may fall below zero, where nothing is cut until it is zero again. -/
def splitTop (w : Word) : (depth : Int) → List α → List (List α)
  | _, [] => [[]]
  | depth, a :: rest =>
      if word? a = some w ∧ depth = 0 then [] :: splitTop w depth rest
      else (splitTop w (depth + depthStep a) rest).modifyHead (a :: ·)

def splitClosing : (depth : Nat) → List α → Option (List α × α × List α)
  | _, [] => none
  | depth, a :: rest =>
      match word? a with
      | some (.opening _) =>
          (splitClosing (depth + 1) rest).map fun cut => (a :: cut.1, cut.2)
      | some (.closing _) =>
          match depth with
          | 0 => some ([], a, rest)
          | depth + 1 => (splitClosing depth rest).map fun cut => (a :: cut.1, cut.2)
      | _ => (splitClosing depth rest).map fun cut => (a :: cut.1, cut.2)

def checkClosing (b : Bracket) (opener : Span) (closer : α) : Parsed Unit :=
  if word? closer = some (.closing b) then .ok ()
  else .error (.malformed .bracketsDoNotMatch (some (opener.through (span closer))))

theorem splitClosingLength {depth : Nat} {as inside after : List α} {closer : α}
    (h : splitClosing depth as = some (inside, closer, after)) :
    inside.length + after.length + 1 = as.length := by
  induction as generalizing depth inside with
  | nil => simp [splitClosing] at h
  | cons a rest ih =>
      unfold splitClosing at h
      split at h
      · obtain ⟨⟨_, _, _⟩, hcut, same⟩ := Option.map_eq_some_iff.mp h
        cases same
        have := ih hcut
        simp only [List.length_cons]
        omega
      · cases depth with
        | zero => cases h; simp
        | succ depth =>
            obtain ⟨⟨_, _, _⟩, hcut, same⟩ := Option.map_eq_some_iff.mp h
            cases same
            have := ih hcut
            simp only [List.length_cons]
            omega
      · obtain ⟨⟨_, _, _⟩, hcut, same⟩ := Option.map_eq_some_iff.mp h
        cases same
        have := ih hcut
        simp only [List.length_cons]
        omega

end LiterateMath
