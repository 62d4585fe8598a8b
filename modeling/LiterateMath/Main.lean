import LiterateMath.CommandLine.Basic

/-! The program: reads the file that its command line names and writes what comes of it. -/
namespace LiterateMath.CommandLine

def contentsOf (path : String) : IO Contents := do
  try return .bytes (← IO.FS.readBinFile path)
  catch
    | .noFileOrDirectory .. => return .missing
    | .inappropriateType _ code reason => return .broken code.toNat reason
    | .permissionDenied _ code reason => return .broken code.toNat reason
    | e => return .broken 5 e.toString

def finish (r : Response) : IO UInt32 := do
  IO.print r.output
  IO.eprint r.complaints
  match r.interruption with
  | some _ => return 1
  | none => return (r.status.getD 0).toUInt32

end LiterateMath.CommandLine

def main (arguments : List String) : IO UInt32 := do
  let directory ← IO.currentDir
  match LiterateMath.CommandLine.plan directory.toString arguments with
  | .answer r => LiterateMath.CommandLine.finish r
  | .consult path respond =>
      LiterateMath.CommandLine.finish (respond (← LiterateMath.CommandLine.contentsOf path))
