import ScoreFormula.Decimal.Numeral
import ScoreFormula.Expr.Read

/-!
# Command line arguments

The command takes one formula, or with `--file` the path of a file that holds one.
`--var NAME=VALUE` gives a variable its value and may be repeated, and `--max-depth`
sets the limit on nested groups.

Options may stand before and after the formula and have to be spelled out, but single
letters can be run together, the last with its value attached.  A value given as an
argument of its own cannot look like an option.  After `--` nothing is an option.
-/

namespace ScoreFormula
namespace CommandLine

inductive UsageError
  | unknownOption (argument : Text)
  | missingValue (argument : Text)
  | unexpectedValue (argument : Text)
  | repeatedOption (name : Text)
  | malformedAssignment (text : Text)
  | malformedLimit (text : Text)
  | missingFormula
  | surplusArgument (argument : Text)
deriving DecidableEq, Repr

namespace UsageError

def message : UsageError → Text
  | unknownOption argument => "Unknown option: ".toList ++ argument
  | missingValue argument => "A value is missing after: ".toList ++ argument
  | unexpectedValue argument => "No value is expected in: ".toList ++ argument
  | repeatedOption name => "Given more than once: ".toList ++ name
  | malformedAssignment text => "Expected NAME=VALUE with a number, found: ".toList ++ text
  | malformedLimit text => "Expected a depth, found: ".toList ++ text
  | missingFormula => "A formula is required.".toList
  | surplusArgument argument => "Unexpected argument: ".toList ++ argument

end UsageError

/-- A name and its value, split at the first `=`, each trimmed. -/
def readAssignment? (text : Text) : Option (Text × Double) :=
  match text.dropWhile (· != '=') with
  | [] => none
  | _ :: value =>
    (Number.read? (Text.trim value)).map fun x => (Text.trim (text.takeWhile (· != '=')), x)

/-- A depth of at most 64 bits, perhaps after a plus sign. -/
def readLimit? (text : Text) : Option Nat :=
  let digits :=
    match text with
    | '+' :: rest => rest
    | _ => text
  if digits ≠ [] ∧ digits.all Char.isDigit ∧ Numeral.ofDigits digits < UInt64.size then
    some (Numeral.ofDigits digits)
  else none

/-- The options that take a value. -/
inductive Valued
  | var
  | maxDepth

/-- What the arguments amount to, one item for each option or formula. -/
inductive Item
  | file
  | valued (option : Valued) (value : Text)
  | formula (text : Text)

/-- What one argument holds by itself: items, and perhaps an option after them whose
value is the next argument. -/
structure Shape where
  items : List Item
  open? : Option Valued

namespace Shape

/-- The letters of an argument that begins with one dash. -/
def ofLetters (argument : Text) : Text → Except UsageError Shape
  | [] => .ok ⟨[], none⟩
  | 'f' :: rest => (ofLetters argument rest).map fun s => ⟨.file :: s.items, s.open?⟩
  | 'v' :: [] => .ok ⟨[], some .var⟩
  | 'v' :: '=' :: value => .ok ⟨[.valued .var value], none⟩
  | 'v' :: value => .ok ⟨[.valued .var value], none⟩
  | _ => .error (.unknownOption argument)

/-- An option that takes a value, which is attached to it or comes next. -/
def ofValued (option : Valued) : Option Text → Shape
  | none => ⟨[], some option⟩
  | some value => ⟨[.valued option value], none⟩

/-- The word of an argument that begins with two dashes, and what follows its `=`. -/
def ofWord (argument word : Text) (value : Option Text) : Except UsageError Shape :=
  if word = "file".toList then
    if value.isSome then .error (.unexpectedValue argument) else .ok ⟨[.file], none⟩
  else if word = "var".toList then .ok (ofValued .var value)
  else if word = "max-depth".toList then .ok (ofValued .maxDepth value)
  else .error (.unknownOption argument)

def ofArgument (argument : Text) : Except UsageError Shape :=
  match argument with
  | '-' :: '-' :: rest =>
    ofWord argument (rest.takeWhile (· != '=')) (rest.dropWhile (· != '=')).tail?
  | '-' :: first :: rest => ofLetters argument (first :: rest)
  | text => .ok ⟨[.formula text], none⟩

end Shape

/-- Whether an argument is taken for an option.  A single dash is not. -/
def looksLikeOption (argument : Text) : Bool := argument.head? == some '-' && argument.length != 1

def items : List Text → Except UsageError (List Item)
  | [] => .ok []
  | argument :: rest =>
    if argument = "--".toList then .ok (rest.map .formula)
    else
      match Shape.ofArgument argument with
      | .error e => .error e
      | .ok ⟨found, none⟩ => (items rest).map (found ++ ·)
      | .ok ⟨found, some option⟩ =>
        match rest with
        | [] => .error (.missingValue argument)
        | value :: rest =>
          if looksLikeOption value then .error (.missingValue argument)
          else (items rest).map (found ++ .valued option value :: ·)

structure Arguments where
  fromFile : Bool
  /-- In the order given, so that the last of equal names counts. -/
  assignments : List (Text × Double)
  limit : Nat
  formula : Text

/-- Arguments of which some may not have been met yet. -/
structure Draft where
  fromFile : Bool
  assignments : List (Text × Double)
  limit : Option Nat
  formula : Option Text

namespace Draft

def empty : Draft := ⟨false, [], none, none⟩

/-- Takes in one more item.  Only assignments may be repeated. -/
def add (d : Draft) : Item → Except UsageError Draft
  | .file =>
    if d.fromFile then .error (.repeatedOption "--file".toList) else .ok { d with fromFile := true }
  | .valued .var text =>
    match readAssignment? text with
    | none => .error (.malformedAssignment text)
    | some assignment => .ok { d with assignments := d.assignments ++ [assignment] }
  | .valued .maxDepth text =>
    if d.limit.isSome then .error (.repeatedOption "--max-depth".toList)
    else
      match readLimit? text with
      | none => .error (.malformedLimit text)
      | some limit => .ok { d with limit := some limit }
  | .formula text =>
    if d.formula.isSome then .error (.surplusArgument text) else .ok { d with formula := some text }

def addAll (d : Draft) : List Item → Except UsageError Draft
  | [] => .ok d
  | item :: rest =>
    match d.add item with
    | .error e => .error e
    | .ok d => d.addAll rest

def finish (d : Draft) : Except UsageError Arguments :=
  match d.formula with
  | none => .error .missingFormula
  | some formula => .ok ⟨d.fromFile, d.assignments, d.limit.getD Expr.defaultLimit, formula⟩

end Draft

namespace Arguments

def read (arguments : List Text) : Except UsageError Arguments :=
  match items arguments with
  | .error e => .error e
  | .ok items =>
    match Draft.empty.addAll items with
    | .error e => .error e
    | .ok draft => draft.finish

end Arguments

end CommandLine
end ScoreFormula
