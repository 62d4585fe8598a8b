import LiterateMath.Vocabulary
import LiterateMath.Span
import LiterateMath.Text.Quoted

/-! Tokens: what the text is made of. A word says what a token is; a token is a word in its
place, or a command together with the groups of tokens that followed it. -/
namespace LiterateMath

inductive Bracket where
  | paren | brace | square | escapedBrace
  deriving DecidableEq, Repr

def Bracket.openingText : Bracket → String
  | paren => "(" | brace => "\x7b" | square => "[" | escapedBrace => "\\\x7b"

def Bracket.closingText : Bracket → String
  | paren => ")" | brace => "\x7d" | square => "]" | escapedBrace => "\\\x7d"

inductive Region where
  | inline | display
  deriving DecidableEq, Repr

inductive Sign where
  | plus | minus | star | slash | caret
  deriving DecidableEq, Repr

def Sign.operator : Sign → BinaryOperator
  | plus => .addition | minus => .subtraction | star => .multiplication
  | slash => .division | caret => .exponent

inductive Escape where
  | leftParen | rightParen | leftSquare | rightSquare | hash | backslash | percent
  deriving DecidableEq, Repr

def Escape.text : Escape → String
  | leftParen => "\\(" | rightParen => "\\)" | leftSquare => "\\[" | rightSquare => "\\]"
  | hash => "\\#" | backslash => "\\\\" | percent => "\\%"

inductive Keyword where
  | ifWord | thenWord | elseWord
  deriving DecidableEq, Repr

namespace Keyword

def all : List Keyword := [ifWord, thenWord, elseWord]

def text : Keyword → String
  | ifWord => "if" | thenWord => "then" | elseWord => "else"

def ofText? (s : String) : Option Keyword := all.find? (fun k => k.text = s)

end Keyword

inductive Word where
  | text (letters : String)
  | number (digits : String)
  | space
  | newline
  | backslash
  | opening (b : Bracket)
  | closing (b : Bracket)
  | regionOpening (r : Region)
  | regionClosing (r : Region)
  | regionEnd
  | comma
  | colon
  | equals
  | underscore
  | percent
  | point
  | sign (s : Sign)
  | escape (e : Escape)
  | numberSet (s : NumberSet)
  | stub (name : String)
  | greek (l : GreekLetter)
  | operator (o : BinaryOperator)
  | unary (u : UnaryOperator)
  | relation (r : Relation)
  | setRelation (r : SetRelation)
  | bigOperator (o : BigOperator)
  | arrow
  | keyword (k : Keyword)
  | real (value : Float)
  deriving DecidableEq, Repr

namespace Word

def kind : Word → String
  | text _ => "text" | number _ => "number" | space => " " | newline => "\n"
  | backslash => "\\" | opening b => b.openingText | closing b => b.closingText
  | regionOpening .inline => "open_inline" | regionOpening .display => "open_display"
  | regionClosing .inline => "close_inline" | regionClosing .display => "close_display"
  | regionEnd => "end_of_region" | comma => "," | colon => ":" | equals => "="
  | underscore => "_" | percent => "%" | point => "." | sign s => s.operator.text
  | escape e => e.text | numberSet _ => "number_set" | stub _ => "stub" | greek _ => "greek"
  | operator _ => "binop" | unary _ => "unop" | relation _ => "conditional"
  | setRelation _ => "statement" | bigOperator _ => "loop" | arrow => "->"
  | keyword k => k.text | real _ => "real"

def exhibit : Word → String
  | numberSet s => s.label
  | w => Text.quoted w.kind

end Word

inductive Token where
  | plain (word : Word) (place : Span)
  | command (name : String) (required optional : List (List Token)) (place : Span)
  deriving Repr

namespace Token

def span : Token → Span
  | plain _ place => place
  | command _ _ _ place => place

def word? : Token → Option Word
  | plain w _ => some w
  | command .. => none

def opens (b : Bracket) : Token → Bool
  | plain (.opening c) _ => c = b
  | _ => false

def closes (b : Bracket) : Token → Bool
  | plain (.closing c) _ => c = b
  | _ => false

def detail? : Token → Option String
  | plain (.text s) _ => some s
  | plain (.number s) _ => some s
  | plain (.stub s) _ => some s
  | plain (.numberSet s) _ => some s.text
  | plain (.greek l) _ => some l.text
  | plain (.operator o) _ => some o.text
  | plain (.unary u) _ => some u.text
  | plain (.relation r) _ => some r.text
  | plain (.setRelation r) _ => some r.label
  | plain (.bigOperator o) _ => some o.label
  | plain _ _ => none
  | command name .. => some ("\\" ++ name)

def kind : Token → String
  | plain w _ => w.kind
  | command .. => "command"

def listing (t : Token) : String :=
  match t.detail? with
  | some detail => "<" ++ t.kind ++ " " ++ detail ++ ">"
  | none => "<" ++ Text.quoted t.kind ++ ">"

end Token
end LiterateMath
