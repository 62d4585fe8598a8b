import LiterateMath.Report.Account

/-! Reports collect issues over any number of documents and give up when there are too many. -/
namespace LiterateMath

structure Report where
  issues : List Issue
  maxIssues : Nat
  deriving DecidableEq, Repr

namespace Report

def fresh (maxIssues : Nat) : Report := ⟨[], maxIssues⟩

def isOk (r : Report) : Bool := r.issues.isEmpty

def add (r : Report) (i : Issue) : Report × Bool :=
  ({ r with issues := r.issues ++ [i] }, r.issues.length + 1 = r.maxIssues)

def receive (r : Report) (a : Account) : Report × Option Interruption :=
  match a.issue? with
  | none => (r, a.interruption?)
  | some i =>
      let added := r.add i
      (added.1, if added.2 then some .tooManyIssues else none)

def lineOf (mark : String) (times : Nat) : String := String.join (List.replicate times mark)

def outburst : String := "Oh, Ack! I cannot continue."

def complaint (r : Report) : List String :=
  if r.isOk then []
  else
    [lineOf "*" 60, outburst]
      ++ r.issues.flatMap fun i => [lineOf "  -" 20, i.text]

end Report

def written (lines : List String) : String :=
  String.join (lines.map fun line => line ++ "\n")

end LiterateMath
