import ScoreFormula.Decimal.Layout
import ScoreFormula.Expr

/-!
# Formulas as infix text

One operand is written in parentheses after its operator, two stand on either side
of it, and any other number follows it in one group.  Only the last form has spaces.
-/

namespace ScoreFormula

/-- An operator written around the texts of its operands. -/
def Operator.around (operator : Operator) : List Text → Text
  | [a] => operator.symbol ++ '(' :: a ++ [')']
  | [a, b] => '(' :: a ++ operator.symbol ++ b ++ [')']
  | operands => '(' :: operator.symbol ++ operands.flatMap (' ' :: ·) ++ [')']

namespace Expr

mutual

def infixText : Expr → Text
  | constant value => Layout.constant.write value
  | var cell => cell.name
  | operation operator operands => operator.around (infixTexts operands)

def infixTexts : List Expr → List Text
  | [] => []
  | e :: rest => e.infixText :: infixTexts rest

end

end Expr
end ScoreFormula
