import ScoreFormula.Decimal.Shortest
import ScoreFormula.Text.Blank

/-!
# Writing numbers

A double is written with its shortest digits.  What is left to decide is kept in a
`Layout`: which orders of magnitude take an exponent, and what a whole number ends
in.  Constants of a formula and the results of a computation differ in both.
-/

namespace ScoreFormula

structure Layout where
  /-- Whether a number whose leading digit counts multiples of `10 ^ e` is written
  with an exponent. -/
  exponential : Int → Bool
  /-- What follows the digits of a whole number. -/
  wholeEnd : Text

namespace Layout

/-- Constants always show a point or an exponent: positional from `0.0001` up to
below `10 ^ 16`. -/
def constant : Layout := ⟨fun e => e < -4 || 16 ≤ e, ".0".toList⟩

/-- Results are positional at every magnitude, and whole ones end at their last
digit. -/
def result : Layout := ⟨fun _ => false, []⟩

def ofInt (n : Int) : Text := if n < 0 then '-' :: Text.ofNat n.natAbs else Text.ofNat n.natAbs

/-- Digits with a point after the first of several, and an exponent. -/
def exponentForm (digits : Text) (order : Int) : Text :=
  match digits with
  | first :: second :: rest => first :: '.' :: second :: rest ++ 'e' :: ofInt order
  | digits => digits ++ 'e' :: ofInt order

/-- Digits that count multiples of `10 ^ exponent`, written without an exponent. -/
def positional (layout : Layout) (digits : Text) (exponent : Int) : Text :=
  if 0 ≤ exponent then digits ++ List.replicate exponent.toNat '0' ++ layout.wholeEnd
  else
    let places := (-exponent).toNat
    if places < digits.length then
      digits.take (digits.length - places) ++ '.' :: digits.drop (digits.length - places)
    else '0' :: '.' :: List.replicate (places - digits.length) '0' ++ digits

def decimal (layout : Layout) (d : Decimal) : Text :=
  let digits := Text.ofNat d.coefficient
  let order := d.exponent + digits.length - 1
  if layout.exponential order then exponentForm digits order
  else layout.positional digits d.exponent

def write (layout : Layout) (x : Double) : Text :=
  match Binary.ofDouble? x with
  | none =>
    if x.isNaN then "NaN".toList else if x.isNegative then "-inf".toList else "inf".toList
  | some b =>
    let magnitude :=
      if b.coefficient = 0 then '0' :: layout.wholeEnd else layout.decimal (Decimal.shortest b)
    if b.negative then '-' :: magnitude else magnitude

end Layout
end ScoreFormula
