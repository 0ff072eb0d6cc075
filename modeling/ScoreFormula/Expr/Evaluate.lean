import ScoreFormula.Expr

/-!
# The value of a formula

All operands of an operation are evaluated, from left to right, before its operator
is applied: no operator leaves an operand out.  Evaluation reads the store and counts
the draws made; it writes nothing.
-/

namespace ScoreFormula
namespace Expr

mutual

/-- The value of a tree, with the draws made counted, and nothing if an operation has
a wrong number of operands. -/
def evaluate? (store : Store) : Expr → Draws → Option (Double × Draws)
  | constant value, d => some (value, d)
  | var cell, d => some (store.read cell, d)
  | operation operator operands, d =>
    match evaluateAll? store operands d with
    | none => none
    | some (values, d) => operator.rule.value? values d

def evaluateAll? (store : Store) : List Expr → Draws → Option (List Double × Draws)
  | [], d => some ([], d)
  | e :: rest, d =>
    match evaluate? store e d with
    | none => none
    | some (value, d) =>
      match evaluateAll? store rest d with
      | none => none
      | some (values, d) => some (value :: values, d)

end

mutual

theorem evaluate?_isSome (store : Store) :
    ∀ (e : Expr) (d : Draws), e.WellFormed → (evaluate? store e d).isSome
  | constant _, _, _ => rfl
  | var _, _, _ => rfl
  | operation operator operands, d, h => by
    obtain ⟨values, d', he, hl⟩ := evaluateAll?_isSome store operands d h.2
    rw [evaluate?, he]
    exact Rule.value?_isSome_iff.mpr (hl.trans h.1)

theorem evaluateAll?_isSome (store : Store) :
    ∀ (es : List Expr) (d : Draws), AllWellFormed es →
      ∃ values d', evaluateAll? store es d = some (values, d') ∧ values.length = es.length
  | [], d, _ => ⟨[], d, rfl, rfl⟩
  | e :: rest, d, h => by
    obtain ⟨⟨value, d₁⟩, he⟩ := Option.isSome_iff_exists.mp (evaluate?_isSome store e d h.1)
    obtain ⟨values, d₂, hr, hl⟩ := evaluateAll?_isSome store rest d₁ h.2
    exact ⟨value :: values, d₂, by rw [evaluateAll?, he]; simp only [hr], by simp [hl]⟩

end

/-- The value of a tree.  A tree that is not well formed has none, and is given NaN. -/
def evaluate (store : Store) (e : Expr) (d : Draws) : Double × Draws :=
  (evaluate? store e d).getD (.nan, d)

theorem evaluate?_eq_some {store : Store} {e : Expr} {d : Draws} (h : e.WellFormed) :
    evaluate? store e d = some (evaluate store e d) := by
  obtain ⟨r, hr⟩ := Option.isSome_iff_exists.mp (evaluate?_isSome store e d h)
  rw [evaluate, hr]
  rfl

end Expr
end ScoreFormula
