import ScoreFormula.Operator.Rule
import ScoreFormula.Token

/-!
# Why a text is not a formula

Every error arises while a text is read or a tree is built; evaluation has none.
-/

namespace ScoreFormula

inductive ReadError
  | imbalance (cause : Imbalance)
  | unsupportedOperator (symbol : Text)
  | arityMismatch (operator : Operator) (found : Nat)
  /-- The operand with this index, counted from zero, holds nothing. -/
  | emptyOperand (operator : Operator) (index : Nat)
  /-- Groups are nested deeper than the limit. -/
  | tooDeep (limit : Nat)
  | emptyInput
deriving DecidableEq, Repr

namespace ReadError

def message : ReadError → Text
  | imbalance cause => cause.message
  | unsupportedOperator symbol =>
    "Operator not supported: ".toList ++ symbol ++
      ", the list of supported operators are: ".toList ++ Operator.supported
  | arityMismatch operator found =>
    operator.symbol ++ " expect ".toList ++ Text.ofNat operator.arity ++
      " operands, actual number of operands is: ".toList ++ Text.ofNat found
  | emptyOperand operator index =>
    "Operand ".toList ++ Text.ofNat index ++ " of ".toList ++ operator.symbol ++
      " is empty.".toList
  | tooDeep limit =>
    "Expression is nested deeper than the limit of ".toList ++ Text.ofNat limit ++
      " levels.".toList
  | emptyInput => "Nothing to parse.".toList

end ReadError
end ScoreFormula
