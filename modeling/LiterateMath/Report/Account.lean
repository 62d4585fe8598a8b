import LiterateMath.Parse.Statement
import LiterateMath.Region
import LiterateMath.Report.Issue
import LiterateMath.Session

/-! Documents read and run, and an account of each: what it showed, what was found on the way,
and what stopped it. -/
namespace LiterateMath

inductive Interruption where
  | literalTooLong
  | tooDeep
  | unspeakableName
  | unreachablePath
  | undecodable
  | tooManyIssues
  deriving DecidableEq, Repr

inductive Trouble where
  | parsing (fault : ParseFault) (place : Option Span)
  | running (failure : Failure)
  deriving Repr

def Trouble.issue? (d : Document) : Trouble → Option Issue
  | parsing fault place =>
      some ⟨"I got confused reading this: " ++ fault.message, d.excerpts place fault.kind, []⟩
  | running failure =>
      failure.message?.map fun m =>
        ⟨failure.fault.kind ++ ": " ++ m, d.excerpts failure.place "in this statement", []⟩

def ParseFailure.interruption? : ParseFailure → Option Interruption
  | malformed .. => none
  | literalTooLong => some .literalTooLong
  | tooDeep => some .tooDeep

inductive Ending where
  | unread (failure : ParseFailure)
  | wasRead (statements : List Statement)
  | wasRun (r : Run)

structure Account where
  document : Document
  log : List String
  ending : Ending

namespace Account

def output (a : Account) : List String :=
  match a.ending with
  | .wasRun r => r.output
  | _ => []

def trouble? (a : Account) : Option Trouble :=
  match a.ending with
  | .unread (.malformed fault place) => some (.parsing fault place)
  | .wasRun r => r.failure.map Trouble.running
  | _ => none

def issue? (a : Account) : Option Issue := a.trouble?.bind (Trouble.issue? a.document)

def interruption? (a : Account) : Option Interruption :=
  match a.ending with
  | .unread failure => failure.interruption?
  | _ => if a.trouble?.isSome && a.issue?.isNone then some .unspeakableName else none

def session? (a : Account) : Option Session :=
  match a.ending with
  | .wasRun r => if a.interruption?.isSome then none else some r.session
  | _ => none

end Account

namespace Document

def foundLine (d : Document) (tokens : List Token) : String :=
  "Found " ++ Text.natural tokens.length ++ " code token(s) in " ++ d.path.getD "None"

def cutLine (slices : List (List Token)) : String :=
  "Cut into " ++ Text.natural slices.length ++ " statement(s)"

def runningLine (statements : List Statement) : String :=
  "Running " ++ Text.natural statements.length ++ " statement(s)"

def parse (d : Document) : Parsed (List Statement) := do
  (intoSlices (← codeTokens d.text)).mapM parseStatement

def readingLog (d : Document) : List String :=
  match codeTokens d.text with
  | .error _ => []
  | .ok tokens => [d.foundLine tokens, cutLine (intoSlices tokens)]

def check (d : Document) : Account :=
  match d.parse with
  | .error failure => ⟨d, d.readingLog, .unread failure⟩
  | .ok statements => ⟨d, d.readingLog, .wasRead statements⟩

def run (d : Document) (strict : Bool) (limit : Nat := depthLimit) : Account :=
  match d.parse with
  | .error failure => ⟨d, d.readingLog, .unread failure⟩
  | .ok statements =>
      ⟨d, d.readingLog ++ [runningLine statements],
        .wasRun ((Session.fresh strict).run statements limit)⟩

end Document
end LiterateMath
