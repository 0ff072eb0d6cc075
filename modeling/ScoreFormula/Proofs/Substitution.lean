import ScoreFormula.Expr.Evaluate

/-!
# Trees with something else in place of their variables

`subst` puts a tree in place of every variable.  Two uses of it say what a tree owes to the
place where its cells live.  `filled` puts in the values that a store has, and a filled tree
has its value in every store: evaluation looks at the store only for the cells of the tree.
`byName` forgets where the cells are and keeps their names, so that trees read against
different registries can be compared.
-/

namespace ScoreFormula
namespace Expr

mutual

/-- The tree with another tree in place of each variable. -/
def subst (f : Cell → Expr) : Expr → Expr
  | constant value => constant value
  | var cell => f cell
  | operation operator operands => operation operator (substAll f operands)

def substAll (f : Cell → Expr) : List Expr → List Expr
  | [] => []
  | e :: rest => e.subst f :: substAll f rest

end

mutual

theorem subst_congr {f g : Cell → Expr} :
    ∀ e : Expr, (∀ cell ∈ e.cells, f cell = g cell) → e.subst f = e.subst g
  | constant _, _ => rfl
  | var cell, h => h cell List.mem_cons_self
  | operation operator operands, h => by
    rw [subst, subst, substAll_congr operands h]

theorem substAll_congr {f g : Cell → Expr} :
    ∀ es : List Expr, (∀ cell ∈ cellsOfAll es, f cell = g cell) → substAll f es = substAll g es
  | [], _ => rfl
  | e :: rest, h => by
    have he := subst_congr e fun cell hc => h cell (List.mem_append_left _ hc)
    have hrest := substAll_congr rest fun cell hc => h cell (List.mem_append_right _ hc)
    rw [substAll, substAll, he, hrest]

end

mutual

theorem subst_subst (f g : Cell → Expr) :
    ∀ e : Expr, (e.subst f).subst g = e.subst fun cell => (f cell).subst g
  | constant _ => rfl
  | var _ => rfl
  | operation operator operands => by
    rw [subst, subst, subst, substAll_substAll f g operands]

theorem substAll_substAll (f g : Cell → Expr) :
    ∀ es : List Expr, substAll g (substAll f es) = substAll (fun cell => (f cell).subst g) es
  | [] => rfl
  | e :: rest => by
    rw [substAll, substAll, substAll, subst_subst f g e, substAll_substAll f g rest]

end

mutual

theorem subst_var : ∀ e : Expr, e.subst var = e
  | constant _ => rfl
  | var _ => rfl
  | operation operator operands => by
    rw [subst, substAll_var operands]

theorem substAll_var : ∀ es : List Expr, substAll var es = es
  | [] => rfl
  | e :: rest => by
    rw [substAll, subst_var e, substAll_var rest]

end

mutual

/-- With other cells at its variables, a tree has those cells in the same order. -/
theorem cells_subst_var (f : Cell → Cell) :
    ∀ e : Expr, (e.subst fun cell => var (f cell)).cells = e.cells.map f
  | constant _ => rfl
  | var _ => rfl
  | operation _ operands => cellsOfAll_substAll_var f operands

theorem cellsOfAll_substAll_var (f : Cell → Cell) :
    ∀ es : List Expr,
      cellsOfAll (substAll (fun cell => var (f cell)) es) = (cellsOfAll es).map f
  | [] => rfl
  | e :: rest => by
    rw [substAll, cellsOfAll, cellsOfAll, cells_subst_var f e, cellsOfAll_substAll_var f rest,
      List.map_append]

end

/-! ## Values in place of variables -/

/-- The tree with the values of its variables put in. -/
def filled (store : Store) (e : Expr) : Expr := e.subst fun cell => constant (store.read cell)

mutual

theorem evaluate?_filled (store store' : Store) :
    ∀ (e : Expr) (d : Draws), evaluate? store' (e.filled store) d = evaluate? store e d
  | constant _, _ => rfl
  | var _, _ => rfl
  | operation operator operands, d => by
    rw [filled, subst, evaluate?, evaluate?, evaluateAll?_filled store store' operands d]

theorem evaluateAll?_filled (store store' : Store) :
    ∀ (es : List Expr) (d : Draws),
      evaluateAll? store' (substAll (fun cell => constant (store.read cell)) es) d =
        evaluateAll? store es d
  | [], _ => rfl
  | e :: rest, d => by
    have he : evaluate? store' (e.subst fun cell => constant (store.read cell)) d =
        evaluate? store e d := evaluate?_filled store store' e d
    rw [substAll, evaluateAll?, evaluateAll?, he]
    rcases evaluate? store e d with _ | ⟨value, after⟩
    · rfl
    · dsimp only
      rw [evaluateAll?_filled store store' rest after]

end

/-- Trees that are the same once they are filled have the same value, each in its store. -/
theorem evaluate_of_filled {store store' : Store} {e e' : Expr}
    (h : e.filled store = e'.filled store') (d : Draws) :
    evaluate store e d = evaluate store' e' d := by
  have he := evaluate?_filled store store e d
  rw [h, evaluate?_filled store' store e' d] at he
  rw [evaluate, evaluate, he]

/-- The value of a tree depends on the store only through the cells of the tree. -/
theorem evaluate_congr {store store' : Store} {e : Expr}
    (h : ∀ cell ∈ e.cells, store.read cell = store'.read cell) (d : Draws) :
    evaluate store e d = evaluate store' e d :=
  evaluate_of_filled (subst_congr e fun cell hc => congrArg constant (h cell hc)) d

/-! ## Names in place of cells -/

/-- The tree with all its cells at one location, so that only their names are told apart. -/
def byName (e : Expr) : Expr := e.subst fun cell => var ⟨cell.name, 0⟩

/-- The tree with the values that its names have put in. -/
def filledByName (value : Text → Double) (e : Expr) : Expr :=
  e.subst fun cell => constant (value cell.name)

theorem filled_eq {store : Store} {value : Text → Double} {e : Expr}
    (h : ∀ cell ∈ e.cells, store.read cell = value cell.name) :
    e.filled store = e.filledByName value :=
  subst_congr e fun cell hc => congrArg constant (h cell hc)

/-- Trees that are the same by name have the same names at their variables, in order. -/
theorem map_name_cells_congr {e e' : Expr} (h : e.byName = e'.byName) :
    e.cells.map Cell.name = e'.cells.map Cell.name := by
  have hname : ∀ e : Expr, e.byName.cells.map Cell.name = e.cells.map Cell.name := by
    intro e
    rw [byName, cells_subst_var, List.map_map]
    rfl
  rw [← hname e, h, hname e']

theorem filledByName_congr {e e' : Expr} (h : e.byName = e'.byName) (value : Text → Double) :
    e.filledByName value = e'.filledByName value := by
  have hname : ∀ e : Expr, e.byName.filledByName value = e.filledByName value :=
    subst_subst _ _
  rw [← hname e, h, hname e']

end Expr
end ScoreFormula
