import ScoreFormula.Expr.Evaluate
import ScoreFormula.Expr.Read

/-!
# From text to value

Scoring a text is reading it, giving the variables their values and evaluating the
tree once.
-/

namespace ScoreFormula

/-- Reads a text and evaluates its tree.  If values are given, the registry is first
refreshed from them; if not, its cells keep what they hold. -/
def score (limit : Nat) (values : Option (Text → Option Double)) (input : Text) (scope : Scope)
    (d : Draws) : Except ReadError (Option (Expr × Double)) × Scope × Draws :=
  match Expr.read limit input scope with
  | (.error e, scope) => (.error e, scope, d)
  | (.ok none, scope) => (.ok none, scope, d)
  | (.ok (some e), scope) =>
    let scope :=
      match values with
      | none => scope
      | some values => { scope with store := scope.registry.refresh values scope.store }
    match e.evaluate scope.store d with
    | (value, d) => (.ok (some (e, value)), scope, d)

/-- The value of a formula whose variables are all zero. -/
def evaluateText (source : Text) (d : Draws) : Except ReadError Double × Draws :=
  match score Expr.defaultLimit none source Scope.new d with
  | (.error e, _, d) => (.error e, d)
  | (.ok none, _, d) => (.error .emptyInput, d)
  | (.ok (some (_, value)), _, d) => (.ok value, d)

end ScoreFormula
