import LiterateMath.Parse.Name
import LiterateMath.Slice
import LiterateMath.Region

/-! The few commands with arithmetic meaning, spelled out. A fraction becomes a quotient of two
groups, and a root a power; the tokens put in stand at the place of the command. -/
namespace LiterateMath

def groupCode (inside : List Token) : List Token := normalize (dropComments false inside)

def parenthesized (place : Span) (inside : List Token) : List Token :=
  .plain (.opening .paren) place :: inside ++ [.plain (.closing .paren) place]

def fraction (place : Span) (numerator denominator : List Token) : List Token :=
  parenthesized place numerator
    ++ .plain (.sign .slash) place :: parenthesized place denominator

def root (place : Span) (index radicand : List Token) : List Token :=
  parenthesized place radicand
    ++ .plain (.sign .caret) place
      :: parenthesized place
          (.plain (.real 1.0) place :: .plain (.sign .slash) place :: parenthesized place index)

def isSizing (t : Token) : Bool :=
  t.word? = some (.stub "left") || t.word? = some (.stub "right")

def lowerToken (lower : List Token → Parsed (List Token)) : Token → Parsed (List Token)
  | .plain w place => .ok (if isSizing (.plain w place) then [] else [.plain w place])
  | .command name required optional place =>
      if name = "frac" then
        match required, optional with
        | [numerator, denominator], [] => do
            return fraction place (← lower numerator) (← lower denominator)
        | _, _ => malformed .fractionGroups (some place)
      else if name = "sqrt" then
        match required, optional with
        | [radicand], [] => do
            return root place [.plain (.number "2") place] (← lower radicand)
        | [radicand], [index] => do
            return root place (← lower index) (← lower radicand)
        | _, _ => malformed .rootGroups (some place)
      else malformed (.meaninglessCommand name) (some place)

def lowerCommands : (limit : Nat) → List Token → Parsed (List Token)
  | 0, _ => .error .tooDeep
  | limit + 1, ts => do
      return (← ts.mapM (lowerToken fun inside => lowerCommands limit (groupCode inside))).flatten

end LiterateMath
