import LiterateMath.Token.Basic

/-! From characters to tokens. At each place the longest word is taken, and every character
begins some word, so reading tokens off a text never fails. -/
namespace LiterateMath

def mark? : Char → Option Word
  | '(' => some (.opening .paren) | ')' => some (.closing .paren)
  | '\x7b' => some (.opening .brace) | '\x7d' => some (.closing .brace)
  | '[' => some (.opening .square) | ']' => some (.closing .square)
  | ',' => some .comma | ':' => some .colon | '=' => some .equals | '_' => some .underscore
  | '%' => some .percent | '.' => some .point
  | '+' => some (.sign .plus) | '-' => some (.sign .minus) | '*' => some (.sign .star)
  | '/' => some (.sign .slash) | '^' => some (.sign .caret)
  | '\n' => some .newline | ' ' => some .space | '\t' => some .space | '\r' => some .space
  | '\\' => some .backslash
  | _ => none

def isOrdinary (c : Char) : Bool := !c.isDigit && (mark? c).isNone

def afterBackslash : List Char → Word × Nat
  | '$' :: '(' :: _ => (.regionOpening .inline, 2)
  | '$' :: '[' :: _ => (.regionOpening .display, 2)
  | '$' :: ')' :: _ => (.regionClosing .inline, 2)
  | '$' :: ']' :: _ => (.regionClosing .display, 2)
  | '(' :: _ => (.escape .leftParen, 1)
  | ')' :: _ => (.escape .rightParen, 1)
  | '[' :: _ => (.escape .leftSquare, 1)
  | ']' :: _ => (.escape .rightSquare, 1)
  | '\x7b' :: _ => (.opening .escapedBrace, 1)
  | '\x7d' :: _ => (.closing .escapedBrace, 1)
  | '#' :: _ => (.escape .hash, 1)
  | '\\' :: _ => (.escape .backslash, 1)
  | '%' :: _ => (.escape .percent, 1)
  | c :: _ =>
      match NumberSet.ofLetter? c with
      | some s => (.numberSet s, 1)
      | none => (.backslash, 0)
  | [] => (.backslash, 0)

/-- The word that `c` begins before `rest`, and how many characters of `rest` belong to it. -/
def munch (c : Char) (rest : List Char) : Word × Nat :=
  if c = '\\' then afterBackslash rest
  else
    match mark? c with
    | some w => (w, 0)
    | none =>
        if c.isDigit then
          let run := rest.takeWhile Char.isDigit
          (.number (String.ofList (c :: run)), run.length)
        else
          let run := rest.takeWhile isOrdinary
          (.text (String.ofList (c :: run)), run.length)

def lexFrom (place : Nat) : List Char → List Token
  | [] => []
  | c :: rest =>
      let taken := munch c rest
      let stop := place + 1 + taken.2
      .plain taken.1 ⟨place, stop⟩ :: lexFrom stop (rest.drop taken.2)
termination_by cs => cs.length
decreasing_by simp only [List.length_drop, List.length_cons]; omega

def lex (text : String) : List Token := lexFrom 0 text.toList

end LiterateMath
