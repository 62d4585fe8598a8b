import LiterateMath.CommandLine.Options
import LiterateMath.CommandLine.Path
import LiterateMath.Report.Basic
import LiterateMath.Text.Quoted

/-! The command line: what to read, and what to write once it has been read. -/
namespace LiterateMath.CommandLine

inductive Contents where
  | missing
  | broken (code : Nat) (reason : String)
  | bytes (b : ByteArray)

structure Response where
  status : Option Nat
  interruption : Option Interruption
  output : String
  complaints : String
  deriving DecidableEq, Repr

inductive Plan where
  | answer (r : Response)
  | consult (path : String) (respond : Contents → Response)

def usage : String := "usage: jimtex [-h] [-c] [-t] [-s] [-v] program\n"

def introduction : String :=
  "This is an interpreter for the math written in LaTeX documents.\n\n" ++ usage ++ "\n\n"
    ++ "For example:\n\n    jimtex homework.tex\n\n"
    ++ "will evaluate the code regions in homework.tex, printing the value of each\n"
    ++ "expression, or else try to explain why not.\n\n    jimtex -h\n\n"
    ++ "will explain all the arguments.\n"

def explanation : String :=
  usage ++ "\nInterpreter for math written in LaTeX.\n\npositional arguments:\n"
    ++ "  program        a LaTeX document with code regions, such as\n"
    ++ "                 zoo/ok/arithmetic.tex\n\noptions:\n"
    ++ "  -h, --help     show this help message and exit\n"
    ++ "  -c, --check    Parse the document verbosely but do not evaluate anything.\n"
    ++ "  -t, --tokens   Print the code tokens, after commands are resolved, and stop.\n"
    ++ "  -s, --strict   Insist that every function definition have a declaration\n"
    ++ "                 first.\n"
    ++ "  -v, --verbose  Say what each stage of the pipeline found.\n"

def Request.account (r : Request) (d : Document) : Account × List String :=
  if r.tokens then
    match codeTokens d.text with
    | .ok tokens => (⟨d, [], .wasRead []⟩, tokens.map Token.listing)
    | .error failure => (⟨d, [], .unread failure⟩, [])
  else if 0 < r.check then (d.check, [])
  else
    let account := d.run r.strict
    (account, account.output)

def Request.conclude (r : Request) (log output : List String) (report : Report)
    (interruption : Option Interruption) : Response :=
  let said := if r.check + r.verbose = 0 then [] else log
  if interruption.isSome then ⟨none, interruption, written output, written said⟩
  else if !report.isOk then ⟨some 1, none, written output, written (said ++ report.complaint)⟩
  else
    let praise := if 0 < r.check then ["Looks plausible to me."] else []
    ⟨some 0, none, written output, written (said ++ praise)⟩

def maxIssues : Nat := 3

def Request.respond (r : Request) (path : String) (c : Contents) : Response :=
  let failed (i : Issue) : Response := r.conclude [] [] ((Report.fresh maxIssues).add i).1 none
  match c with
  | .missing => failed ⟨"I see no file called " ++ path, [], []⟩
  | .broken code reason =>
      failed ⟨"Something went pear-shaped while trying to read " ++ path, [],
        ["[Errno " ++ Text.natural code ++ "] " ++ reason ++ ": " ++ Text.quoted path]⟩
  | .bytes b =>
      match String.fromUTF8? b with
      | none => r.conclude [] [] (Report.fresh maxIssues) (some .undecodable)
      | some text =>
          let d : Document := ⟨String.ofList (Text.unifyLineEnds text.toList), some path⟩
          let account := r.account d
          let received := (Report.fresh maxIssues).receive account.1
          r.conclude account.1.log account.2 received.1 received.2

/-- What to do about a command line that is given in a directory. No path holds a null
character, so there is nothing to consult at one that does. -/
def plan (directory : String) (words : List String) : Plan :=
  match read words with
  | .nothing => .answer ⟨none, none, introduction, ""⟩
  | .help => .answer ⟨some 0, none, explanation, ""⟩
  | .refused => .answer ⟨some 2, none, "", usage⟩
  | .request r =>
      let path := pathFrom directory r.program
      if path.toList.contains '\x00' then
        .answer (r.conclude [] [] (Report.fresh maxIssues) (some .unreachablePath))
      else .consult path (r.respond path)

end LiterateMath.CommandLine
