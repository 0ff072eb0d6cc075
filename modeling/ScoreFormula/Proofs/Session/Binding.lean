import ScoreFormula.Proofs.Session

/-!
# The cell of a name

In every run a registry keeps the cell of each of its names until it is dropped, and no
cell is ever bound a second time: not under another name, not in another registry, and not
in one that is made later under the key of a dropped one.  So the variables of the trees
read against one registry are the same cell exactly if they have the same name.

`bindings_of_run` compares two moments of a run, the end of `earlier` and the end of
`earlier ++ later`; every run can be cut at every place.
-/

namespace ScoreFormula
namespace Session

open State

/-- In a run from the start, `e` is read against the registry of `key`, which is not
dropped after that. -/
def ReadFrom (steps : List Step) (key : Text) (e : Expr) : Prop :=
  ∃ before t limit keep since, steps = before ++ .read key t limit keep :: since ∧
    .drop key ∉ since ∧ (Expr.read limit t ((start.after before).scope key)).1 = .ok (some e)

/-- The registry that a tree was read against binds its variables. -/
theorem ReadFrom.binds {steps : List Step} {key : Text} {e : Expr} (h : ReadFrom steps key e)
    {cell : Cell} (hc : cell ∈ e.cells) : (start.after steps).Binds key cell.name cell := by
  obtain ⟨before, t, limit, keep, since, rfl, hd, hr⟩ := h
  have hread : Expr.read limit t ((start.after before).scope key) =
      (.ok (some e), (Expr.read limit t ((start.after before).scope key)).2) := Prod.ext hr rfl
  have hb := (Expr.binds_of_read hread).find? cell hc
  have hstep : ((start.after before).step (.read key t limit keep)).2.Binds key cell.name cell := by
    rw [State.step, hread]
    refine Eq.trans ?_ hb
    exact congrArg (·.find? cell.name) ((registry_withScope _ key key _).trans (if_pos rfl))
  rw [after_append, after_cons]
  exact binds_after hstep hd

/-- A binding has the name of its cell and lasts until its registry is dropped.  A cell that
is bound at two moments of a run is bound in one registry, not dropped in between, and under
one name.  A registry binds the variables of the trees read against it, and variables of two
trees are one cell exactly if they were read against one registry and have one name. -/
theorem bindings_of_run (earlier later : List Step) :
    (∀ key name cell, (start.after earlier).Binds key name cell →
        cell.name = name ∧
          (.drop key ∉ later → (start.after (earlier ++ later)).Binds key name cell)) ∧
      (∀ key name cell other name' cell', (start.after earlier).Binds key name cell →
        (start.after (earlier ++ later)).Binds other name' cell' →
          cell.location = cell'.location → key = other ∧ name = name' ∧ .drop key ∉ later) ∧
      (∀ key e, ReadFrom earlier key e → ∀ cell ∈ e.cells,
        (start.after earlier).Binds key cell.name cell) ∧
      ∀ key e other e', ReadFrom earlier key e → ReadFrom (earlier ++ later) other e' →
        ∀ cell ∈ e.cells, ∀ cell' ∈ e'.cells,
          (cell.location = cell'.location ↔
            key = other ∧ .drop key ∉ later ∧ cell.name = cell'.name) := by
  have hkeep : ∀ {key name cell}, (start.after earlier).Binds key name cell →
      .drop key ∉ later → (start.after (earlier ++ later)).Binds key name cell := by
    intro key name cell hb hd
    rw [after_append]
    exact binds_after hb hd
  have hone : ∀ {key name cell other name' cell'}, (start.after earlier).Binds key name cell →
      (start.after (earlier ++ later)).Binds other name' cell' →
        cell.location = cell'.location → key = other ∧ name = name' ∧ .drop key ∉ later := by
    intro key name cell other name' cell' hb hb' hl
    have hlt := (sound_after earlier).bound hb
    rw [after_append] at hb'
    rcases binds_of_after hb' with ⟨hd, hold⟩ | hle
    · obtain ⟨hkey, hname⟩ := (sound_after earlier).apart hb hold hl
      exact ⟨hkey, hname, hkey ▸ hd⟩
    · omega
  refine ⟨?_, ?_, ?_, ?_⟩
  · intro key name cell hb
    exact ⟨Registry.name_of_find? hb, hkeep hb⟩
  · intro key name cell other name' cell' hb hb' hl
    exact hone hb hb' hl
  · intro key e h cell hc
    exact h.binds hc
  · intro key e other e' h h' cell hc cell' hc'
    have hb := h.binds hc
    have hb' := h'.binds hc'
    constructor
    · intro hl
      obtain ⟨hkey, hname, hd⟩ := hone hb hb' hl
      exact ⟨hkey, hd, hname⟩
    · rintro ⟨rfl, hd, hname⟩
      have hlast := hkeep hb hd
      rw [hname] at hlast
      rw [Option.some.inj (hlast.symm.trans hb')]

/-- After the drop no registry binds the old cell, not even under the old key and name. -/
theorem bindings_of_run_read_again :
    ReadFrom [.read ['r'] ['x'] 0 ['t']] ['r'] (.var ⟨['x'], 0⟩) ∧
      (start.after [.read ['r'] ['x'] 0 ['t']]).Binds ['r'] ['x'] ⟨['x'], 0⟩ ∧
        ∀ other name cell,
          (start.after [.read ['r'] ['x'] 0 ['t'], .drop ['r'], .read ['r'] ['x'] 0 ['u']]).Binds
            other name cell → cell.location ≠ 0 := by
  have hf : Forest.ofText? ['x'] = .ok [.atom ['x']] := rfl
  have hr : ReadFrom [.read ['r'] ['x'] 0 ['t']] ['r'] (.var ⟨['x'], 0⟩) := by
    refine ⟨[], ['x'], 0, ['t'], [], rfl, by simp, ?_⟩
    rw [Forest.read_of_ok hf]
    rfl
  obtain ⟨-, hone, hleaf, -⟩ := bindings_of_run [.read ['r'] ['x'] 0 ['t']]
    [.drop ['r'], .read ['r'] ['x'] 0 ['u']]
  have hb := hleaf _ _ hr ⟨['x'], 0⟩ List.mem_cons_self
  refine ⟨hr, hb, ?_⟩
  intro other name cell hb' hl
  exact (hone _ _ _ other name cell hb hb' hl.symm).2.2 List.mem_cons_self

end Session
end ScoreFormula
