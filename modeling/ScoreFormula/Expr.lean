import ScoreFormula.ReadError
import ScoreFormula.Registry

/-!
# Formula trees

A formula is a tree of constants, variables and operations.  A variable is the cell
itself, so two trees that hold the same cell share its value.

The type admits operations with any number of operands.  `Expr.apply` builds only
those with as many operands as the operator takes, and a tree built by it throughout
is well formed.
-/

namespace ScoreFormula

inductive Expr
  | constant (value : Double)
  | var (cell : Cell)
  | operation (operator : Operator) (operands : List Expr)

namespace Expr

/-- The operation of an operator on the right number of operands. -/
def apply (operator : Operator) (operands : List Expr) : Except ReadError Expr :=
  if operands.length = operator.arity then .ok (.operation operator operands)
  else .error (.arityMismatch operator operands.length)

def isAtom : Expr → Bool
  | constant _ => true
  | var _ => true
  | operation _ _ => false

mutual

/-- The cells at the variable leaves, from left to right. -/
def cells : Expr → List Cell
  | constant _ => []
  | var cell => [cell]
  | operation _ operands => cellsOfAll operands

def cellsOfAll : List Expr → List Cell
  | [] => []
  | e :: rest => e.cells ++ cellsOfAll rest

end

/-- Puts a name into a strictly ascending list of names, unless it is there. -/
def insertName (name : Text) : List Text → List Text
  | [] => [name]
  | other :: rest =>
    if name < other then name :: other :: rest
    else if name = other then other :: rest
    else other :: insertName name rest

/-- The names of the variables, each once and in code point order. -/
def «variables» (e : Expr) : List Text :=
  e.cells.foldl (fun names cell => insertName cell.name names) []

mutual

/-- Every operation in the tree has as many operands as its operator takes. -/
def WellFormed : Expr → Prop
  | constant _ => True
  | var _ => True
  | operation operator operands =>
    operands.length = operator.arity ∧ AllWellFormed operands

def AllWellFormed : List Expr → Prop
  | [] => True
  | e :: rest => e.WellFormed ∧ AllWellFormed rest

end

theorem wellFormed_apply {operator : Operator} {operands : List Expr} {e : Expr}
    (h : apply operator operands = .ok e) (ho : AllWellFormed operands) : e.WellFormed := by
  unfold apply at h
  split at h
  · next hl =>
    cases h
    exact ⟨hl, ho⟩
  · exact nomatch h

end Expr
end ScoreFormula
