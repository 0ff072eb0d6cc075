import ScoreFormula.Decimal.Shortest
import ScoreFormula.Text.Blank

/-!
# Reading decimal numerals

A numeral is digits with an optional point and an optional exponent, at least one
digit standing before the exponent.  `Numeral.read?` gives its exact value as a
decimal and `Decimal.toDouble` the double nearest to that.

Two notations use numerals.  A constant of a formula is a numeral or one of the
words `Infinity` and `NaN`, with an optional sign.  A value given from outside a
formula may also be `inf`, `infinity` or `nan` in any case.
-/

namespace ScoreFormula

namespace Decimal

/-- The double nearest to a decimal.  A decimal far outside the range of the
doubles is settled by its order of magnitude, so that a long exponent costs
nothing: a coefficient `c` is below `10 ^ (log2 c / 3 + 1)`. -/
def toDouble (d : Decimal) : Double :=
  if d.coefficient = 0 then 0
  else if 310 ≤ d.exponent then .infinity
  else if 0 ≤ d.exponent then .ofFloat (Float.ofScientific d.coefficient false d.exponent.toNat)
  else if d.exponent + (Nat.log2 d.coefficient / 3 + 1 : Nat) < -330 then 0
  else .ofFloat (Float.ofScientific d.coefficient true (-d.exponent).toNat)

end Decimal

namespace Numeral

/-- A leading sign, as whether it is a minus, and what follows it. -/
def splitSign : Text → Bool × Text
  | '+' :: rest => (false, rest)
  | '-' :: rest => (true, rest)
  | rest => (false, rest)

def ofDigits (digits : Text) : Nat :=
  digits.foldl (fun n c => 10 * n + (c.toNat - '0'.toNat)) 0

def splitDigits (t : Text) : Text × Text := (t.takeWhile Char.isDigit, t.dropWhile Char.isDigit)

/-- The digits after a point, if there is one, and the rest. -/
def splitFraction : Text → Text × Text
  | '.' :: rest => splitDigits rest
  | rest => ([], rest)

/-- The exponent that ends a numeral; no text stands for zero. -/
def readExponent? : Text → Option Int
  | [] => some 0
  | c :: rest =>
    if c = 'e' ∨ c = 'E' then
      match splitSign rest with
      | (negative, digits) =>
        if digits ≠ [] ∧ digits.all Char.isDigit then
          some (if negative then -(ofDigits digits : Int) else ofDigits digits)
        else none
    else none

/-- The value of an unsigned numeral. -/
def read? (t : Text) : Option Decimal :=
  match splitDigits t with
  | (whole, rest) =>
    match splitFraction rest with
    | (fraction, rest) =>
      if whole = [] ∧ fraction = [] then none
      else (readExponent? rest).map fun e => ⟨ofDigits (whole ++ fraction), e - fraction.length⟩

end Numeral

namespace Number

def signed (negative : Bool) (x : Double) : Double := if negative then x.negate else x

/-- The infinity or NaN that a word names in any mixture of cases. -/
def special? (word : Text) : Option Double :=
  let word := word.map Char.toLower
  if word = "inf".toList ∨ word = "infinity".toList then some .infinity
  else if word = "nan".toList then some .nan
  else none

/-- The double that a value given from outside a formula denotes. -/
def read? (t : Text) : Option Double :=
  match Numeral.splitSign t with
  | (negative, rest) =>
    ((special? rest).or ((Numeral.read? rest).map Decimal.toDouble)).map (signed negative)

end Number

namespace Literal

/-- Whether a word begins like a name, and so is one even where a value given from
outside would be read as a number. -/
def isName (word : Text) : Bool :=
  word.head?.any Char.isAlpha && word != "Infinity".toList && word != "NaN".toList

/-- The double that an atom of a formula denotes, and nothing if it is a name. -/
def read? (atom : Text) : Option Double :=
  if isName (Numeral.splitSign atom).2 then none else Number.read? atom

end Literal
end ScoreFormula
