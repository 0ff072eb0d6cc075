import ScoreFormula.Binary

/-!
# The shortest decimal of a double

Of the decimals that read back as a given double, `Decimal.shortest` is one with
the fewest digits, and among those the nearest to the double; two equally near
ones are settled upwards.

The decimals that read back are those between the midpoints to the neighbouring
doubles, the midpoints included when the coefficient is even.  A decimal of few
digits is a multiple of a large power of ten, so the search goes down from a power
of ten above the double and stops at the first that has a multiple in that
interval.  If any multiple is in it then so is one of the two next to the double.
-/

namespace ScoreFormula

/-- The number `coefficient · 10 ^ exponent`. -/
structure Decimal where
  coefficient : Nat
  exponent : Int
deriving DecidableEq, Repr

namespace Decimal

/-- The decimals that read back as one positive double, in quarters of the unit of
its last place: `low`, `value` and `high` count multiples of `2 ^ exponent`. -/
structure Interval where
  low : Nat
  value : Nat
  high : Nat
  exponent : Int
  closed : Bool

namespace Interval

/-- The interval of a positive double.  Below a power of two the doubles are twice
as dense, except next to zero. -/
def ofBinary (b : Binary) : Interval :=
  let halved := b.coefficient = Double.leadingBit ∧ Binary.leastExponent < b.exponent
  { low := 4 * b.coefficient - if halved then 1 else 2
    value := 4 * b.coefficient
    high := 4 * b.coefficient + 2
    exponent := b.exponent - 2
    closed := b.coefficient % 2 = 0 }

/-- Factors that compare `n` quarters with `c` multiples of `10 ^ k` as natural
numbers: `n · 2 ^ exponent < c · 10 ^ k` exactly when `n · quarter < c · grid`. -/
def quarter (i : Interval) (k : Int) : Nat := Nat.pow 2 i.exponent.toNat * Nat.pow 10 (-k).toNat

def grid (i : Interval) (k : Int) : Nat := Nat.pow 10 k.toNat * Nat.pow 2 (-i.exponent).toNat

def contains (i : Interval) (k : Int) (c : Nat) : Bool :=
  let x := c * i.grid k
  let low := i.low * i.quarter k
  let high := i.high * i.quarter k
  if i.closed then low ≤ x && x ≤ high else low < x && x < high

/-- The multiple of `10 ^ k` at or below the value, as its factor. -/
def below (i : Interval) (k : Int) : Nat := i.value * i.quarter k / i.grid k

/-- The nearest multiple of `10 ^ k` that lies in the interval, the larger of two
equally near ones. -/
def multiple? (i : Interval) (k : Int) : Option Nat :=
  let c := i.below k
  match i.contains k c, i.contains k (c + 1) with
  | true, true =>
    let value := i.value * i.quarter k
    if (c + 1) * i.grid k - value ≤ value - c * i.grid k then some (c + 1) else some c
  | true, false => some c
  | false, true => some (c + 1)
  | false, false => none

/-- The coarsest decimal in the interval with an exponent of at most `k`, after at
most `steps` steps down. -/
def search (i : Interval) : Nat → Int → Decimal
  | 0, k => ⟨i.below k, k⟩
  | steps + 1, k =>
    match i.multiple? k with
    | some c => ⟨c, k⟩
    | none => i.search steps (k - 1)

/-- An exponent whose power of ten exceeds every number in the interval, since
`2 ^ n < 10 ^ (30103 · n / 100000 + 1)` for the exponents of doubles. -/
def ceiling (i : Interval) : Int :=
  (Nat.log2 i.high + 1 + i.exponent) * 30103 / 100000 + 1

end Interval

/-- The shortest decimal that reads back as a positive double.  Seventeen digits
always do, which bounds the search. -/
def shortest (b : Binary) : Decimal :=
  let interval := Interval.ofBinary b
  interval.search 24 interval.ceiling

end Decimal
end ScoreFormula
