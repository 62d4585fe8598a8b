/-! Lines of a text. A line ends with a line feed, a carriage return, or both in that order, and
keeps its end. -/
namespace LiterateMath.Text

/-- The lines of a text, each with its end. What follows the last end is a line even if it is
empty. -/
def lines : List Char → List (List Char)
  | [] => [[]]
  | '\r' :: '\n' :: rest => ['\r', '\n'] :: lines rest
  | '\r' :: rest => ['\r'] :: lines rest
  | '\n' :: rest => ['\n'] :: lines rest
  | c :: rest => (lines rest).modifyHead (c :: ·)

structure Location where
  row : Nat
  column : Nat
  line : List Char
  deriving DecidableEq, Repr

def locateIn (row index : Nat) : List (List Char) → Location
  | [] => ⟨row, index, []⟩
  | [line] => ⟨row, index, line⟩
  | line :: rest =>
      if index < line.length then ⟨row, index, line⟩
      else locateIn (row + 1) (index - line.length) rest

def locate (text : List Char) (index : Nat) : Location := locateIn 1 index (lines text)

def isInkless (c : Char) : Bool :=
  let n := c.toNat
  (0x9 ≤ n && n ≤ 0xd) || (0x1c ≤ n && n ≤ 0x20) || n == 0x85 || n == 0xa0 || n == 0x1680
    || (0x2000 ≤ n && n ≤ 0x200a) || n == 0x2028 || n == 0x2029 || n == 0x202f || n == 0x205f
    || n == 0x3000

def trimEnd (s : List Char) : List Char := (s.reverse.dropWhile isInkless).reverse

def unifyLineEnds : List Char → List Char
  | '\r' :: '\n' :: rest => '\n' :: unifyLineEnds rest
  | '\r' :: rest => '\n' :: unifyLineEnds rest
  | c :: rest => c :: unifyLineEnds rest
  | [] => []

end LiterateMath.Text
