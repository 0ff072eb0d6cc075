import ScoreFormula.Binary
import ScoreFormula.Draw
import ScoreFormula.Operator

/-!
# What operators compute

The rule of an operator is a function of its operand values, and of one draw if the
operator is random.  The arity is the number of values that the function takes, so
applying a rule to any other number of values gives nothing.

Doubles are also truth values: zero is false and everything else is true, NaN
included.  Results are `1` and `0`.
-/

namespace ScoreFormula

/-- A function of operand values and perhaps of a draw. -/
inductive Rule
  | unary (f : Double → Double)
  | binary (f : Double → Double → Double)
  | ternary (f : Double → Double → Double → Double)
  /-- The next draw of `rand`. -/
  | draw
  /-- A function of two values and the next draw of `rand-in`. -/
  | drawBetween (f : Double → Double → Double → Double)

namespace Rule

def arity : Rule → Nat
  | draw => 0
  | unary _ => 1
  | binary _ => 2
  | drawBetween _ => 2
  | ternary _ => 3

/-- The value for the given operand values, with the draws made counted, and
nothing unless there are exactly as many values as the rule takes. -/
def value? : Rule → List Double → Draws → Option (Double × Draws)
  | draw, [], d => some (ScoreFormula.draw d.rand, d.advance 1 0)
  | unary f, [a], d => some (f a, d)
  | binary f, [a, b], d => some (f a b, d)
  | drawBetween f, [a, b], d => some (f a b (ScoreFormula.draw d.randIn), d.advance 0 1)
  | ternary f, [a, b, c], d => some (f a b c, d)
  | _, _, _ => none

theorem value?_isSome_iff {rule : Rule} {args : List Double} {d : Draws} :
    (rule.value? args d).isSome ↔ args.length = rule.arity := by
  cases rule <;> rcases args with _ | ⟨a, _ | ⟨b, _ | ⟨c, _ | ⟨e, rest⟩⟩⟩⟩ <;>
    simp [value?, arity]

end Rule

namespace Truth

def ofBool (b : Bool) : Double := if b then 1 else 0

def isTrue (x : Double) : Bool := x.toFloat != 0

/-- The truth value of a comparison of numbers. -/
def compare (holds : Float → Float → Bool) (a b : Double) : Double :=
  ofBool (holds a.toFloat b.toFloat)

end Truth

namespace Operator

/-- The result is a number in the range of a 64-bit integer: NaN gives zero, and
values outside the range its nearer end.  A half is rounded upwards. -/
def roundHalfUp (x : Float) : Float :=
  if x.isNaN then 0
  else
    let floor := x.floor
    let rounded := if x - floor ≥ 0.5 then floor + 1 else floor
    if rounded < -9223372036854775808 then -9223372036854775808
    else if rounded > 9223372036854775808 then 9223372036854775808
    else rounded

/-- The sign as a number; zero and NaN are their own. -/
def signOf (x : Double) : Double :=
  if x.toFloat == 0 || x.isNaN then x else if x.isNegative then Double.negate 1 else 1

/-- One of two values, unless either is NaN. -/
def pick (first : Float → Float → Bool) (a b : Double) : Double :=
  if a.isNaN || b.isNaN then .nan else if first a.toFloat b.toFloat then a else b

def rule : Operator → Rule
  | equal => .binary (Truth.compare fun a b => a == b)
  | notEqual => .binary (Truth.compare fun a b => a != b)
  | greater => .binary (Truth.compare fun a b => b < a)
  | greaterEqual => .binary (Truth.compare fun a b => b ≤ a)
  | less => .binary (Truth.compare fun a b => a < b)
  | lessEqual => .binary (Truth.compare fun a b => a ≤ b)
  | or => .binary fun a b => Truth.ofBool (Truth.isTrue a || Truth.isTrue b)
  | and => .binary fun a b => Truth.ofBool (Truth.isTrue a && Truth.isTrue b)
  | not => .unary fun a => Truth.ofBool (!Truth.isTrue a)
  | sign => .unary signOf
  | add => .binary (Double.map₂ (· + ·))
  | subtract => .binary (Double.map₂ (· - ·))
  | multiply => .binary (Double.map₂ (· * ·))
  | divide => .binary (Double.map₂ (· / ·))
  | power => .binary (Double.map₂ Float.pow)
  | ln => .unary (Double.map Float.log)
  | ln1plus => .unary (Double.map fun a => Float.log (1 + a))
  | log2 => .unary (Double.map Float.log2)
  | max => .binary (pick fun a b => b ≤ a)
  | min => .binary (pick fun a b => a ≤ b)
  | abs => .unary Double.abs
  | negate => .unary Double.negate
  | remainder => .binary Binary.remainder
  | choose => .ternary fun condition a b => if Truth.isTrue condition then a else b
  | exp => .unary (Double.map Float.exp)
  | sigmoid => .unary (Double.map fun a => 1 / (1 + Float.exp (-a)))
  | tanh => .unary (Double.map Float.tanh)
  | rand => .draw
  | randIn =>
    .drawBetween fun low high u =>
      .ofFloat (low.toFloat + (high.toFloat - low.toFloat) * u.toFloat)
  | floor => .unary (Double.map Float.floor)
  | ceil => .unary (Double.map Float.ceil)
  | round => .unary (Double.map roundHalfUp)
  | sqrt => .unary (Double.map Float.sqrt)
  | within => .ternary fun a low high =>
    Truth.ofBool (low.toFloat ≤ a.toFloat && a.toFloat < high.toFloat)
  | cos => .unary (Double.map Float.cos)
  | sin => .unary (Double.map Float.sin)
  | tan => .unary (Double.map Float.tan)

def arity (op : Operator) : Nat := op.rule.arity

/-- Negation is the operator of a `-` before a single operand; otherwise the symbol
alone decides. -/
def select? (symbol : Text) (operands : Nat) : Option Operator :=
  if symbol = "-".toList ∧ operands = 1 then some negate else ofSymbol? symbol

def nullary? (symbol : Text) : Option Operator :=
  (ofSymbol? symbol).filter fun op => op.arity == 0

def describe (op : Operator) : Text :=
  "Operator \x7b symbol: \"".toList ++ op.symbol ++ "\", arity: ".toList ++
    Text.ofNat op.arity ++ ", .. \x7d".toList

/-- All symbols as one bracketed list of quoted words, in listing order. -/
def listing : Text :=
  '[' :: ", ".toList.intercalate (all.map fun op => '"' :: op.symbol ++ ['"']) ++ [']']

end Operator
end ScoreFormula
