import LiterateMath.Text.Digit

/-! The words of a command line. One letter after a dash is an option, and several letters are
several options; after two dashes a name may be cut short as long as only one option begins that
way. Two dashes alone end the options. Exactly one word has to be left over. -/
namespace LiterateMath.CommandLine

inductive Flag where
  | help | check | tokens | strict | verbose
  deriving DecidableEq, Repr

namespace Flag

def all : List Flag := [help, check, tokens, strict, verbose]

def name : Flag → String
  | help => "help" | check => "check" | tokens => "tokens" | strict => "strict"
  | verbose => "verbose"

def ofLetter? (c : Char) : Option Flag := all.find? fun f => f.name.toList.head? = some c

def candidates (word : List Char) : List Flag :=
  match all.find? fun f => f.name.toList = word with
  | some f => [f]
  | none => all.filter fun f => word.isPrefixOf f.name.toList

end Flag

inductive Argument where
  | plain (word : String)
  | flags (fs : List Flag)
  | misused
  | ambiguous
  | unknown
  deriving DecidableEq, Repr

def isNumeral (word : List Char) : Bool :=
  let body := if word.getLast? = some '\n' then word.dropLast else word
  let fraction := (body.dropWhile Text.isDecimalDigit).drop 1
  if body.all Text.isDecimalDigit then !body.isEmpty
  else body.dropWhile Text.isDecimalDigit = '.' :: fraction && !fraction.isEmpty
    && fraction.all Text.isDecimalDigit

def otherDashed (word : String) : Argument :=
  if isNumeral (word.toList.drop 1) || word.toList.contains ' ' then .plain word else .unknown

def flagsOf (letters : List Char) : Argument :=
  match letters.mapM Flag.ofLetter? with
  | some fs => .flags fs
  | none => .misused

def classifyLetters (first : Char) : List Char → Argument
  | ['='] => .misused
  | '=' :: more => flagsOf (first :: more)
  | more => flagsOf (first :: more)

def classify (word : String) : Argument :=
  match word.toList with
  | '-' :: '-' :: long =>
      let begun := long.takeWhile (· ≠ '=')
      match Flag.candidates begun with
      | [f] => if long.contains '=' then .misused else .flags [f]
      | [] => otherDashed word
      | _ => .ambiguous
  | '-' :: c :: more =>
      if (Flag.ofLetter? c).isNone then otherDashed word else classifyLetters c more
  | _ => .plain word

def classifyAll : List String → List (Option Argument)
  | [] => []
  | "--" :: rest => none :: rest.map fun word => some (.plain word)
  | word :: rest => some (classify word) :: classifyAll rest

structure Request where
  program : String
  check : Nat
  tokens : Bool
  strict : Bool
  verbose : Nat
  deriving DecidableEq, Repr

structure Progress where
  program : Option String
  justRead : Bool
  surplus : Bool
  request : Request
  deriving Repr

def Progress.start : Progress := ⟨none, false, false, ⟨"", 0, false, false, 0⟩⟩

def Request.withFlag (r : Request) : Flag → Request
  | .help => r
  | .check => { r with check := r.check + 1 }
  | .tokens => { r with tokens := true }
  | .strict => { r with strict := true }
  | .verbose => { r with verbose := r.verbose + 1 }

inductive Invocation where
  | nothing
  | help
  | refused
  | request (r : Request)
  deriving DecidableEq, Repr

def collect (p : Progress) : List (Option Argument) → Invocation
  | [] =>
      match p.program, p.surplus with
      | some program, false => .request { p.request with program }
      | _, _ => .refused
  | none :: rest =>
      collect { p with surplus := p.surplus || (p.program.isSome && !p.justRead) } rest
  | some (.plain word) :: rest =>
      match p.program with
      | none => collect { p with program := some word, justRead := true } rest
      | some _ => collect { p with surplus := true, justRead := false } rest
  | some (.flags fs) :: rest =>
      if fs.contains .help then .help
      else
        let request := fs.foldl Request.withFlag p.request
        collect { p with request, justRead := false } rest
  | some .unknown :: rest => collect { p with surplus := true, justRead := false } rest
  | some .misused :: _ => .refused
  | some .ambiguous :: _ => .refused

def read (words : List String) : Invocation :=
  if words.isEmpty then .nothing
  else
    let arguments := classifyAll words
    if arguments.contains (some .ambiguous) then .refused
    else collect .start arguments

end LiterateMath.CommandLine
