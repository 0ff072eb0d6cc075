import ScoreFormula.Text.Blank

/-!
# Operators

The operators of the language, their symbols and what is said about them in
messages and listings.  What an operator computes is given by its rule.
-/

namespace ScoreFormula

/-- The operators in the order in which they are listed. -/
inductive Operator
  | equal | notEqual | greater | greaterEqual | less | lessEqual
  | or | and | not
  | sign
  | add | subtract | multiply | divide | power
  | ln | ln1plus | log2
  | max | min | abs | negate | remainder
  | choose
  | exp | sigmoid | tanh
  | rand | randIn
  | floor | ceil | round | sqrt
  | within
  | cos | sin | tan
deriving DecidableEq, Repr

namespace Operator

def all : List Operator :=
  [equal, notEqual, greater, greaterEqual, less, lessEqual, or, and, not, sign, add, subtract,
    multiply, divide, power, ln, ln1plus, log2, max, min, abs, negate, remainder, choose, exp,
    sigmoid, tanh, rand, randIn, floor, ceil, round, sqrt, within, cos, sin, tan]

/-- The symbol that stands for an operator, both where it is read and where it is
written.  Negation has a symbol of its own, beside the `-` it may be read from. -/
def symbol : Operator → Text
  | equal => "==".toList
  | notEqual => "!=".toList
  | greater => ">".toList
  | greaterEqual => ">=".toList
  | less => "<".toList
  | lessEqual => "<=".toList
  | or => "||".toList
  | and => "&&".toList
  | not => "!".toList
  | sign => "sign".toList
  | add => "+".toList
  | subtract => "-".toList
  | multiply => "*".toList
  | divide => "/".toList
  | power => "**".toList
  | ln => "ln".toList
  | ln1plus => "ln1plus".toList
  | log2 => "log2".toList
  | max => "max".toList
  | min => "min".toList
  | abs => "abs".toList
  | negate => "unaryMinus".toList
  | remainder => "%".toList
  | choose => "if".toList
  | exp => "exp".toList
  | sigmoid => "sigmoid".toList
  | tanh => "tanh".toList
  | rand => "rand".toList
  | randIn => "rand-in".toList
  | floor => "floor".toList
  | ceil => "ceil".toList
  | round => "round".toList
  | sqrt => "sqrt".toList
  | within => "in".toList
  | cos => "cos".toList
  | sin => "sin".toList
  | tan => "tan".toList

def ofSymbol? (symbol : Text) : Option Operator := all.find? fun op => op.symbol == symbol

theorem ofSymbol?_symbol (op : Operator) : ofSymbol? op.symbol = some op := by
  cases op <;> decide

theorem symbol_injective {a b : Operator} (h : a.symbol = b.symbol) : a = b := by
  have ha := ofSymbol?_symbol a
  rw [h, ofSymbol?_symbol b] at ha
  exact (Option.some.inj ha).symm

theorem symbol_of_ofSymbol? {symbol : Text} {op : Operator} (h : ofSymbol? symbol = some op) :
    op.symbol = symbol := by
  have := List.find?_some h
  simpa using this

/-- All symbols in code point order, with single spaces between them. -/
def supported : Text :=
  [' '].intercalate ((all.map symbol).mergeSort fun a b => !decide (b < a))

end Operator
end ScoreFormula
