import ScoreFormula.Expr.Infix

/-!
# Formulas as diagrams

A diagram has one line for each node, parents before children.  The line of a node
begins with what its ancestors draw through it, four columns each: a bar if more
children of that ancestor follow, and spaces if not.
-/

namespace ScoreFormula

namespace Diagram

/-- The mark in front of a node's label. -/
def branch (last : Bool) : Text := if last then "└── ".toList else "├── ".toList

/-- What a node draws in front of the lines of its descendants. -/
def indent (last : Bool) : Text := if last then "    ".toList else "|   ".toList

end Diagram

namespace Expr

def label : Expr → Text
  | operation operator _ => operator.symbol
  | leaf => leaf.infixText

mutual

/-- The lines of a tree, each beginning with `lead`. -/
def lines (lead : Text) (last : Bool) : Expr → List Text
  | constant value => [lead ++ Diagram.branch last ++ (constant value).label]
  | var cell => [lead ++ Diagram.branch last ++ (var cell).label]
  | operation operator operands =>
    (lead ++ Diagram.branch last ++ operator.symbol) ::
      linesOfAll (lead ++ Diagram.indent last) operands

def linesOfAll (lead : Text) : List Expr → List Text
  | [] => []
  | e :: rest => e.lines lead rest.isEmpty ++ linesOfAll lead rest

end

/-- The diagram of a tree, its lines each ended by a newline.  A single leaf is drawn
as its bare text. -/
def diagram (e : Expr) : Text :=
  if e.isAtom then e.infixText else (e.lines [] true).flatMap (· ++ ['\n'])

end Expr
end ScoreFormula
