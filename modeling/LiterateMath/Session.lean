import LiterateMath.Depth
import LiterateMath.Perform

/-! Sessions. Statements run one at a time, front to back; each shows a line or changes the
environment, and the first fault stops the program that it happens in. -/
namespace LiterateMath

structure Session where
  env : Environment
  index : Nat
  strict : Bool
  deriving Repr

def Session.fresh (strict : Bool) : Session := ⟨.empty, 0, strict⟩

structure Failure where
  fault : Fault
  statement : Option Nat
  place : Option Span
  deriving Repr

def Failure.message? (f : Failure) : Option String :=
  f.fault.message?.map fun m =>
    match f.statement with
    | none => m
    | some n => m ++ " on statement " ++ Text.natural n

structure Run where
  session : Session
  output : List String
  failure : Option Failure
  left : List Statement

def Session.run (s : Session) (program : List Statement) (limit : Nat := depthLimit) : Run :=
  match program with
  | [] => ⟨s, [], none, []⟩
  | statement :: rest =>
      let index := s.index + 1
      match (statement.perform limit s.strict).run (.start s.env) with
      | .error fault m =>
          ⟨{ s with env := m.session, index }, m.shown,
            some ⟨fault, some index, statement.place⟩, rest⟩
      | .ok _ m =>
          let more := Session.run { s with env := m.session, index } rest limit
          { more with output := m.shown ++ more.output }

end LiterateMath
