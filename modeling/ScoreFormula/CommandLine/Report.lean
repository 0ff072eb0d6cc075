import ScoreFormula.CommandLine.Arguments
import ScoreFormula.Expr.Diagram
import ScoreFormula.Score

/-!
# What the command prints

For a formula the report has its infix text, its value and its diagram.  The value is
left out when the formula has variables and none was given a value.
-/

namespace ScoreFormula
namespace CommandLine

structure Report where
  code : Nat
  output : Text
  errors : Text
deriving DecidableEq, Repr

namespace Report

/-- A report of an error, which takes one line. -/
def failure (code : Nat) (message : Text) : Report := ⟨code, [], message ++ ['\n']⟩

end Report

/-- The value last assigned to a name. -/
def assigned (assignments : List (Text × Double)) (name : Text) : Option Double :=
  assignments.reverse.lookup name

def report (limit : Nat) (assignments : List (Text × Double)) (source : Text) : Report :=
  let values := if assignments.isEmpty then none else some (assigned assignments)
  match score limit values source Scope.new Draws.start with
  | (.error cause, _, _) => .failure 1 cause.message
  | (.ok none, _, _) => .failure 1 ReadError.emptyInput.message
  | (.ok (some (e, value)), scope, _) =>
    let valueLine :=
      if !assignments.isEmpty || scope.registry.isEmpty then
        '=' :: Layout.result.write value ++ ['\n']
      else []
    let drawn := e.diagram ++ if e.isAtom then ['\n'] else []
    ⟨0, '=' :: e.infixText ++ '\n' :: valueLine ++ "tree\n".toList ++ drawn, []⟩

inductive Unreadable
  | missing
  | notDirectory
  | directory
  | forbidden
  | nameTooLong
  | notText
deriving DecidableEq, Repr

namespace Unreadable

def message : Unreadable → Text
  | missing => "No such file or directory (os error 2)".toList
  | notDirectory => "Not a directory (os error 20)".toList
  | directory => "Is a directory (os error 21)".toList
  | forbidden => "Permission denied (os error 13)".toList
  | nameTooLong => "File name too long (os error 36)".toList
  | notText => "stream did not contain valid UTF-8".toList

end Unreadable

/-- The report on a whole command line, given what is in each file. -/
def run (file : Text → Except Unreadable Text) (arguments : List Text) : Report :=
  match Arguments.read arguments with
  | .error e => .failure 2 e.message
  | .ok a =>
    if a.fromFile then
      match file a.formula with
      | .error cause =>
        .failure 1 ("Failed to read the input file '".toList ++ a.formula ++ "': ".toList ++
          cause.message)
      | .ok source => report a.limit a.assignments source
    else report a.limit a.assignments a.formula

end CommandLine
end ScoreFormula
