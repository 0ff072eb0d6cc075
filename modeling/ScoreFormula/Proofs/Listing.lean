import ScoreFormula.Proofs.ReadingOrder

/-!
# Two listings of names

The names of a tree are collected from its leaves, and those of a registry are left there by
reading.  Both are listed in strictly ascending order, and a strictly ascending list is settled by
its members, so a tree that was read against a new registry is listed as that registry is
(`listings_of_read`).
-/

namespace ScoreFormula

open Forest

theorem lt_of_not_lt_of_ne {a b : Text} (h : ¬b < a) (hne : a ≠ b) : a < b := by
  by_contra hlt
  exact hne (List.le_antisymm (List.not_lt.mp h) (List.not_lt.mp hlt))

/-- Strictly ascending lists with the same members are the same. -/
theorem eq_of_ascending {names others : List Text} (h : names.Pairwise (· < ·))
    (h' : others.Pairwise (· < ·)) (hm : ∀ name, name ∈ names ↔ name ∈ others) :
    names = others := by
  have hne : ∀ {a b : Text}, a < b → a ≠ b := by
    rintro a b hab rfl
    exact List.lt_irrefl a hab
  have hperm : names.Perm others :=
    (List.perm_ext_iff_of_nodup (h.imp hne) (h'.imp hne)).mpr hm
  refine hperm.eq_of_pairwise (fun a b _ _ hab hba => ?_) h h'
  exact absurd (List.lt_trans hab hba) (List.lt_irrefl a)

namespace Registry

theorem ascending_names (r : Registry) : r.names.Pairwise (· < ·) :=
  (r.pairwise_names.and r.nodup_names).imp fun h => lt_of_not_lt_of_ne h.1 h.2

theorem length_names (r : Registry) : r.names.length = r.size := by
  rw [names, List.length_mergeSort, List.length_map, size]

theorem isEmpty_iff {r : Registry} : r.isEmpty = true ↔ ∀ name, name ∉ r.names := by
  rw [← List.eq_nil_iff_forall_not_mem, ← List.length_eq_zero_iff, length_names, isEmpty,
    List.isEmpty_iff_length_eq_zero, size]

end Registry

namespace Expr

/-- The cell is at a variable leaf of the tree. -/
inductive Occurs (cell : Cell) : Expr → Prop
  | leaf : Occurs cell (.var cell)
  | inside {operator : Operator} {operands : List Expr} {e : Expr} :
    e ∈ operands → Occurs cell e → Occurs cell (.operation operator operands)

theorem mem_cellsOfAll {cell : Cell} {es : List Expr} :
    cell ∈ cellsOfAll es ↔ ∃ e ∈ es, cell ∈ e.cells := by
  induction es with
  | nil => simp [cellsOfAll]
  | cons e rest ih => simp [cellsOfAll, ih]

theorem mem_cells_of_occurs {cell : Cell} {e : Expr} (h : Occurs cell e) : cell ∈ e.cells := by
  induction h with
  | leaf => exact List.mem_singleton_self cell
  | inside hm _ ih => exact mem_cellsOfAll.mpr ⟨_, hm, ih⟩

theorem occurs_of_mem_cells {cell : Cell} : ∀ {e : Expr}, cell ∈ e.cells → Occurs cell e
  | .var other, h => by
    obtain rfl := List.mem_singleton.mp h
    exact .leaf
  | .operation operator operands, h => by
    obtain ⟨e, hm, hc⟩ := mem_cellsOfAll.mp h
    exact .inside hm (occurs_of_mem_cells hc)

theorem mem_cells_iff {cell : Cell} {e : Expr} : cell ∈ e.cells ↔ Occurs cell e :=
  ⟨occurs_of_mem_cells, mem_cells_of_occurs⟩

theorem ascending_insertName {names : List Text} (h : names.Pairwise (· < ·)) (name : Text) :
    (insertName name names).Pairwise (· < ·) := by
  induction names with
  | nil => exact List.pairwise_singleton _ name
  | cons first rest ih =>
    obtain ⟨hfirst, hrest⟩ := List.pairwise_cons.mp h
    rw [insertName]
    by_cases hlt : name < first
    · rw [if_pos hlt]
      refine List.pairwise_cons.mpr ⟨fun other hm => ?_, h⟩
      rcases List.mem_cons.mp hm with rfl | hm
      · exact hlt
      · exact List.lt_trans hlt (hfirst other hm)
    · rw [if_neg hlt]
      by_cases he : name = first
      · rw [if_pos he]
        exact h
      · rw [if_neg he]
        refine List.pairwise_cons.mpr ⟨fun other hm => ?_, ih hrest⟩
        rcases mem_insertName.mp hm with rfl | hm
        · exact lt_of_not_lt_of_ne hlt (Ne.symm he)
        · exact hfirst other hm

theorem ascending_foldl_insertName (cells : List Cell) {names : List Text}
    (h : names.Pairwise (· < ·)) :
    (cells.foldl (fun names cell => insertName cell.name names) names).Pairwise (· < ·) := by
  induction cells generalizing names with
  | nil => exact h
  | cons cell rest ih => exact ih (ascending_insertName h cell.name)

theorem ascending_variables (e : Expr) : e.variables.Pairwise (· < ·) :=
  ascending_foldl_insertName e.cells .nil

theorem mem_variables_iff_occurs {e : Expr} {name : Text} :
    name ∈ e.variables ↔ ∃ cell, Occurs cell e ∧ cell.name = name := by
  rw [mem_variables, List.mem_map]
  simp only [mem_cells_iff]

/-- Reading against a new registry leaves the names of the tree in it, and no others. -/
theorem mem_names_of_read {limit : Nat} {t : Text} {scope after : Scope} {e : Expr}
    (h : read limit t scope = (.ok (some e), after)) (hnew : scope.registry = .empty)
    (name : Text) : name ∈ after.registry.names ↔ name ∈ e.variables := by
  have hnone : name ∉ scope.registry.names := by
    rw [hnew]
    exact Registry.not_mem_names_empty name
  rw [(binds_of_read h).after_eq, Scope.mem_names_internAll, mem_variables]
  exact or_iff_right hnone

/-- The variables of a tree that is read are listed in strictly ascending order, and they are
the names at its leaves, wherever and however often they are there.  So are the names of the
registry, of which there are as many as it holds, and they are those that it finds.  If the
registry was new, then the two lists are the same, and it is still empty if and only if no leaf
of the tree is a variable. -/
theorem listings_of_read {limit : Nat} {t : Text} {scope after : Scope} {e : Expr}
    (h : read limit t scope = (.ok (some e), after)) :
    (e.variables.Pairwise (· < ·) ∧
        ∀ name, name ∈ e.variables ↔ ∃ cell, Occurs cell e ∧ cell.name = name) ∧
      (after.registry.names.Pairwise (· < ·) ∧
        after.registry.names.length = after.registry.size ∧
        ∀ name, (name ∈ after.registry.names ↔ after.registry.contains name = true) ∧
          (name ∈ after.registry.names ↔ ∃ cell, after.registry.find? name = some cell)) ∧
      (scope.registry = .empty →
        after.registry.names = e.variables ∧
          (after.registry.isEmpty = true ↔ ∀ cell, ¬Occurs cell e)) := by
  refine ⟨⟨ascending_variables e, fun name => mem_variables_iff_occurs⟩,
    ⟨after.registry.ascending_names, after.registry.length_names, fun name => ?_⟩, fun hnew => ?_⟩
  · exact ⟨Registry.mem_names_iff, Registry.mem_names_iff.trans Registry.contains_iff⟩
  · have heq : after.registry.names = e.variables :=
      eq_of_ascending after.registry.ascending_names (ascending_variables e)
        (mem_names_of_read h hnew)
    refine ⟨heq, ?_⟩
    rw [Registry.isEmpty_iff, heq]
    constructor
    · intro hempty cell hc
      exact hempty cell.name (mem_variables_iff_occurs.mpr ⟨cell, hc, rfl⟩)
    · intro hnot name hm
      obtain ⟨cell, hc, -⟩ := mem_variables_iff_occurs.mp hm
      exact hnot cell hc

/-- A name that is met twice is listed once, and behind one that is met later. -/
theorem listings_of_read_repeated :
    ∃ e after, read 2 "+ é (* a é)".toList Scope.new = (.ok (some e), after) ∧
      Scope.new.registry = .empty ∧
      e.variables = ["a".toList, "é".toList] ∧ after.registry.names = e.variables ∧
      after.registry.isEmpty = false := by
  have hf : ofText? "+ é (* a é)".toList = .ok [.atom "+".toList, .atom "é".toList,
      .group "(* a é)".toList [.atom "*".toList, .atom "a".toList, .atom "é".toList]] := rfl
  have hr : read 2 "+ é (* a é)".toList Scope.new =
      (.ok (some (.operation .add [.var ⟨"é".toList, 0⟩,
          .operation .multiply [.var ⟨"a".toList, 1⟩, .var ⟨"é".toList, 0⟩]])),
        ((Scope.new.intern "é".toList).2.intern "a".toList).2) := by
    rw [read_of_ok hf]
    rfl
  obtain ⟨-, -, hnew⟩ := listings_of_read hr
  exact ⟨_, _, hr, rfl, rfl, (hnew rfl).1, rfl⟩

end Expr
end ScoreFormula
