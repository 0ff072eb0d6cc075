import ScoreFormula.Proofs.Forest.Course

/-!
# What reading leaves in the registry

Names are bound while a text is read and stay bound if reading stops.  `read_registers`
says which: on success those of the tree, and on an error those at the operands to the left
of the path to the construct at fault.  Cells that were there keep their place and their
value in every case.
-/

namespace ScoreFormula

open Forest

/-- A text keeps every cell with all bits of its value, and gives new names new cells, which
hold zero.  The names bound afterwards are the old ones and, if a tree was read, its
variables; if nothing was, none; and if reading stopped, the names of the operands to the
left of the path to where it stopped. -/
theorem read_registers (limit : Nat) (t : Text) (scope : Scope) :
    Scope.Extends scope (Expr.read limit t scope).2 ∧
      (∀ name cell, scope.registry.find? name = none →
        (Expr.read limit t scope).2.registry.find? name = some cell →
          (Expr.read limit t scope).2.store.read cell = 0) ∧
      match Expr.read limit t scope with
      | (.ok (some e), after) =>
        (∀ name, name ∈ after.registry.names ↔
          name ∈ scope.registry.names ∨ name ∈ e.variables) ∧
          ∀ cell ∈ e.cells, after.registry.find? cell.name = some cell
      | (.ok none, after) => after = scope
      | (.error (.imbalance _), after) => after = scope
      | (.error cause, after) =>
        ∃ items path, ofText? t = .ok items ∧
          stopOfLevel? limit 0 (topLevel items) = some (path, cause) ∧
          ∀ name, name ∈ after.registry.names ↔
            name ∈ scope.registry.names ∨ name ∈ leftOfLevel path (topLevel items) := by
  cases h : ofText? t with
  | error cause =>
    rw [read_of_error h]
    refine ⟨Scope.Extends.refl scope, ?_, rfl⟩
    intro name cell hn hc
    exact nomatch hn.symm.trans hc
  | ok items =>
    have hr := read_of_ok h limit scope
    have hc := course_readLevel limit 0 (topLevel items) scope
    rw [← hr] at hc
    have he := extends_of_course hc
    refine ⟨he, ?_, ?_⟩
    · intro name cell hn hf
      rw [he.read]
      exact Store.read_of_size_le (he.fresh hn hf).1
    · match Expr.read limit t scope, hc with
      | (.ok (some e), after), hc =>
        obtain ⟨-, -, -, hbinds⟩ := hc
        refine ⟨?_, hbinds.find?⟩
        intro name
        rw [hbinds.after_eq, Scope.mem_names_internAll, Expr.mem_variables]
      | (.ok none, after), hc => exact hc.2.2.2
      | (.error cause, after), hc =>
        obtain ⟨path, hstop, rfl⟩ := hc
        have hleft : ∀ name,
            name ∈ (scope.internAll (leftOfLevel path (topLevel items))).registry.names ↔
              name ∈ scope.registry.names ∨ name ∈ leftOfLevel path (topLevel items) :=
          fun name => Scope.mem_names_internAll
        cases fault_of_stopOfLevel? hstop with
        | _ => exact ⟨items, path, rfl, hstop, hleft⟩

end ScoreFormula
