import ScoreFormula.CommandLine.Report

/-!
# The command

Reads the arguments and perhaps a file, and prints the report.
-/

namespace ScoreFormula
namespace CommandLine

def readFile (path : Text) : IO (Except Unreadable Text) := do
  try
    let bytes ← IO.FS.readBinFile (String.ofList path)
    match String.fromUTF8? bytes with
    | some content => return .ok content.toList
    | none => return .error .notText
  catch
    | .permissionDenied .. => return .error .forbidden
    | .inappropriateType _ 20 _ => return .error .notDirectory
    | .inappropriateType .. => return .error .directory
    | .invalidArgument .. => return .error .nameTooLong
    | _ => return .error .missing

def execute (arguments : List Text) : IO UInt32 := do
  let content ←
    match Arguments.read arguments with
    | .ok a => if a.fromFile then readFile a.formula else pure (.error .missing)
    | .error _ => pure (.error .missing)
  let report := run (fun _ => content) arguments
  IO.print (String.ofList report.output)
  IO.eprint (String.ofList report.errors)
  return UInt32.ofNat report.code

end CommandLine
end ScoreFormula

def main (arguments : List String) : IO UInt32 :=
  ScoreFormula.CommandLine.execute (arguments.map String.toList)
