import LiterateMath.Span
import LiterateMath.Text.Lines
import LiterateMath.Text.Numeral

/-! Issues: what a report tells about a document. An issue has an introduction, and may show the
line that it is about with a mark below the place. -/
namespace LiterateMath

structure Document where
  text : String
  path : Option String
  deriving DecidableEq, Repr

structure Excerpt where
  document : Document
  place : Span
  caption : String
  deriving DecidableEq, Repr

namespace Excerpt

def margin (row : Nat) : List Char :=
  let number := ' ' :: Text.numeral row
  List.replicate (6 - number.length) ' ' ++ number ++ [' ', '|']

/-- The line, and below it carets under the place, as far as the line goes. Tabs are kept in
front of the carets, so that they stand where they should. -/
def text (e : Excerpt) : String :=
  let spot := Text.locate e.document.text.toList e.place.start
  let margin := margin spot.row
  let blanks := (margin ++ spot.line.take spot.column).map fun c => if c = '\t' then c else ' '
  let width := max 1 (min (e.place.stop - e.place.start) (spot.line.length - spot.column))
  String.ofList (margin ++ Text.trimEnd spot.line ++ '\n' :: blanks
    ++ List.replicate width '^' ++ [' ']) ++ e.caption

end Excerpt

structure Issue where
  intro : String
  excerpts : List Excerpt
  footer : List String
  deriving DecidableEq, Repr

namespace Issue

def excerptLines (shown : Option String) : List Excerpt → List String
  | [] => []
  | e :: rest =>
      let heading :=
        if e.document.path = shown then []
        else (e.document.path.filter (fun path => !path.isEmpty)).toList
      heading ++ e.text :: excerptLines e.document.path rest

def text (i : Issue) : String :=
  "\n".intercalate (i.intro :: "" :: excerptLines none i.excerpts ++ i.footer)

end Issue

def Document.excerpts (d : Document) (place : Option Span) (caption : String) : List Excerpt :=
  match place with
  | some span => if d.text.isEmpty then [] else [⟨d, span, caption⟩]
  | none => []

end LiterateMath
