import ScoreFormula.Double

/-!
# Finite doubles as exact numbers

A finite double is a sign and a natural coefficient times a power of two.  Exact
arithmetic on doubles, such as choosing digits or taking a remainder, is done on
this form, where nothing rounds.
-/

namespace ScoreFormula

/-- The number `± coefficient · 2 ^ exponent`. -/
structure Binary where
  negative : Bool
  coefficient : Nat
  exponent : Int

namespace Binary

/-- The exponent of the doubles nearest to zero. -/
def leastExponent : Int := -1074

/-- The exact value of a finite double, and nothing for an infinity or a NaN.  The
coefficient has 53 bits, the leading one implied unless the exponent field is zero. -/
def ofDouble? (x : Double) : Option Binary :=
  if x.exponentField = 2047 then none
  else if x.exponentField = 0 then some ⟨x.isNegative, x.fraction, leastExponent⟩
  else
    some ⟨x.isNegative, Double.leadingBit + x.fraction,
      leastExponent + ((x.exponentField : Int) - 1)⟩

/-- The double of this value, which is exact while the coefficient is below
`2 ^ 53` and the exponent is that of a double. -/
def toDouble (b : Binary) : Double :=
  let magnitude := Double.ofFloat ((Float.ofNat b.coefficient).scaleB b.exponent)
  if b.negative then magnitude.negate else magnitude

/-- The remainder of `x` divided by `y` with the quotient truncated.  It has the
sign of `x`, also when it is zero, and is always exact: both numbers are
multiples of the smaller power of two, and the remainder of the multiples is a
coefficient no larger than the one it came from. -/
def remainder (x y : Double) : Double :=
  match ofDouble? x, ofDouble? y with
  | some a, some b =>
    if b.coefficient = 0 then .nan
    else
      let exponent := min a.exponent b.exponent
      let dividend := a.coefficient <<< (a.exponent - exponent).toNat
      let divisor := b.coefficient <<< (b.exponent - exponent).toNat
      toDouble ⟨a.negative, dividend % divisor, exponent⟩
  | some _, none => if y.isNaN then .nan else x
  | none, _ => .nan

end Binary
end ScoreFormula
