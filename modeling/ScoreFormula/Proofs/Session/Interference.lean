import ScoreFormula.Proofs.Session.Draw
import ScoreFormula.Proofs.Session.Value
import ScoreFormula.Proofs.Substitution

/-!
# What can change the value of a tree

The value of a tree depends on the cells at its leaves and on the counts of the random
operators it has nodes of.  A run that writes none of these cells and evaluates no node of
these operators leaves the value as it was (`evaluate_of_spares`), whatever else it reads,
builds, writes, evaluates or drops.  A cell of the same name in another registry is another
cell, and so is one in a registry that is made under the key of a dropped one.
-/

namespace ScoreFormula
namespace Session

namespace State

/-- No step of a run writes to a cell of the tree. -/
def Unwritten (s : State) (e : Expr) : List Step → Prop
  | [] => True
  | step :: rest =>
    (∀ w ∈ s.writes step, ∀ cell ∈ e.cells, w.1.location ≠ cell.location) ∧
      Unwritten (s.step step).2 e rest

/-- A run leaves alone what the value of the tree depends on: it writes to none of its cells,
and the trees that it evaluates have no node of a random operator that the tree has too. -/
structure Spares (s : State) (e : Expr) (steps : List Step) : Prop where
  unwritten : s.Unwritten e steps
  undrawn : ∀ operator, operator = .rand ∨ operator = .randIn → e.places operator ≠ [] →
    s.drawnAll operator steps = 0

theorem read_after_of_unwritten {s : State} (hs : s.Sound) {e : Expr} {steps : List Step}
    (h : s.Unwritten e steps) {cell : Cell} (hc : cell ∈ e.cells) :
    (s.after steps).store.read cell = s.store.read cell := by
  induction steps generalizing s with
  | nil => rfl
  | cons step rest ih =>
    have hstep : (s.step step).2.store.read cell = s.store.read cell :=
      read_step_of hs (fun w hw hl => absurd hl (h.1 w hw cell hc)) (Or.inl rfl)
    rw [after_cons, ih (hs.step step) h.2, hstep]

theorem made_after {s : State} (hs : WellFormed s) (steps : List Step) {operator : Operator}
    (ho : operator = .rand ∨ operator = .randIn) :
    (s.after steps).draws.made operator = s.draws.made operator + s.drawnAll operator steps := by
  rw [draws_after hs]
  rcases ho with rfl | rfl
  · rfl
  · rfl

section Spares

variable {s : State} (hs : s.Sound) (hw : WellFormed s) {e : Expr} {steps : List Step}
  (h : s.Spares e steps)

include hs h

theorem evaluate_store_of_spares (d : Draws) :
    e.evaluate (s.after steps).store d = e.evaluate s.store d :=
  Expr.evaluate_congr (fun _ hc => read_after_of_unwritten hs h.unwritten hc) d

theorem evaluations_store_of_spares (times : Nat) (d : Draws) :
    evaluations (s.after steps).store e times d = evaluations s.store e times d := by
  induction times generalizing d with
  | zero => rfl
  | succ times ih =>
    rw [evaluations, evaluations, evaluate_store_of_spares hs h]
    dsimp only
    rw [ih]

include hw

omit hs in
theorem sameDraws_of_spares : e.SameDraws (s.after steps).draws s.draws := by
  intro operator ho hne
  rw [made_after hw steps ho, h.undrawn operator ho hne, Nat.add_zero]

theorem evaluate_after_of_spares :
    (e.evaluate (s.after steps).store (s.after steps).draws).1 =
      (e.evaluate s.store s.draws).1 := by
  rw [evaluate_store_of_spares hs h]
  exact Expr.evaluate_of_sameDraws (sameDraws_of_spares hw h) s.store

/-- A session answers for the tree as it did, under whichever keys it is kept. -/
theorem answer_after_of_spares {tree tree' : Text} (ht : s.trees.lookup tree = some e)
    (ht' : (s.after steps).trees.lookup tree' = some e) (times : Nat) :
    ((s.after steps).step (.evaluate tree' times)).1 = (s.step (.evaluate tree times)).1 := by
  have hd := sameDraws_of_spares hw h
  rw [step_evaluate ht, step_evaluate ht', evaluations_store_of_spares hs h,
    evaluations_of_sameDraws (hw tree e ht) hd]

end Spares

/-- A cell that is bound at two moments is bound in one registry, which has not been dropped
in between. -/
theorem key_of_binds_after {s : State} (hs : s.Sound) {steps : List Step}
    {key name other name' : Text} {cell cell' : Cell} (h : s.Binds key name cell)
    (h' : (s.after steps).Binds other name' cell') (hl : cell.location = cell'.location) :
    key = other ∧ name = name' ∧ .drop key ∉ steps := by
  have hlt := hs.bound h
  rcases binds_of_after h' with ⟨hd, hold⟩ | hle
  · obtain ⟨hkey, hname⟩ := hs.apart h hold hl
    exact ⟨hkey, hname, hkey ▸ hd⟩
  · omega

end State

open State

/-- In every state of a session a tree keeps its value over every run that spares it, as do
its cells, bit for bit, and is answered for as before.  The cell of a name is no cell of
another registry, nor of one made after its own was dropped.  An evaluation writes to no cell
and changes no registry. -/
theorem evaluate_of_spares (earlier steps : List Step) :
    (∀ e, (start.after earlier).Spares e steps →
        (∀ cell ∈ e.cells, (start.after (earlier ++ steps)).store.read cell =
          (start.after earlier).store.read cell) ∧
        (e.evaluate (start.after (earlier ++ steps)).store
            (start.after (earlier ++ steps)).draws).1 =
          (e.evaluate (start.after earlier).store (start.after earlier).draws).1 ∧
        ∀ tree tree' times, (start.after earlier).trees.lookup tree = some e →
          (start.after (earlier ++ steps)).trees.lookup tree' = some e →
            ((start.after (earlier ++ steps)).step (.evaluate tree' times)).1 =
              ((start.after earlier).step (.evaluate tree times)).1) ∧
      (∀ key name cell other name' cell', (start.after earlier).Binds key name cell →
        (start.after (earlier ++ steps)).Binds other name' cell' →
          other ≠ key ∨ .drop key ∈ steps → cell'.location ≠ cell.location) ∧
      ∀ step, (∃ tree times, step = .evaluate tree times) ∨
          (∃ source, step = .evaluateText source) →
        ((start.after earlier).step step).2.store = (start.after earlier).store ∧
          ((start.after earlier).step step).2.registries = (start.after earlier).registries := by
  have hs := sound_after earlier
  have hw := wellFormed_after wellFormed_start earlier
  rw [after_append]
  refine ⟨?_, ?_, ?_⟩
  · intro e h
    refine ⟨fun cell hc => read_after_of_unwritten hs h.unwritten hc,
      evaluate_after_of_spares hs hw h, ?_⟩
    intro tree tree' times ht ht'
    exact answer_after_of_spares hs hw h ht ht' times
  · intro key name cell other name' cell' hb hb' hother hl
    obtain ⟨rfl, -, hd⟩ := key_of_binds_after hs hb hb' hl.symm
    rcases hother with hne | hdrop
    · exact hne rfl
    · exact hd hdrop
  · rintro step (⟨tree, times, rfl⟩ | ⟨source, rfl⟩)
    · rw [State.step]
      split <;> exact ⟨rfl, rfl⟩
    · rw [State.step]
      split <;> exact ⟨rfl, rfl⟩

/-- A choice between a variable that holds a NaN, sign and fraction included, and a draw.  The
registry of the tree is dropped and made again, its name is set there, and draws are made for
the operator that the tree does not have. -/
theorem evaluate_of_spares_new_registry :
    ∃ (s : State) (e : Expr) (steps : List Step) (value : Double),
      s = start.after [.intern ['r'] ['x'] (some ['h']), .put ['h'] value, .var ['h'] ['a'],
        .apply "rand".toList [] ['b'], .apply "if".toList [['a'], ['a'], ['b']] ['t'],
        .apply "rand-in".toList [['a'], ['a']] ['u']] ∧
      value.bits = 0xfff8000000000001 ∧
      steps = [.drop ['r'], .intern ['r'] ['x'] none, .set ['r'] ['x'] 5, .evaluate ['u'] 2] ∧
      s.trees.lookup ['t'] = some e ∧ s.Spares e steps ∧ ⟨['x'], 0⟩ ∈ e.cells ∧
      (s.after steps).store.read ⟨['x'], 0⟩ = value ∧
      (e.evaluate (s.after steps).store (s.after steps).draws).1 =
        (e.evaluate s.store s.draws).1 := by
  have hspares : (start.after [.intern ['r'] ['x'] (some ['h']),
      .put ['h'] ⟨0xfff8000000000001⟩, .var ['h'] ['a'],
      .apply "rand".toList [] ['b'], .apply "if".toList [['a'], ['a'], ['b']] ['t'],
      .apply "rand-in".toList [['a'], ['a']] ['u']]).Spares
        (.operation .choose [.var ⟨['x'], 0⟩, .var ⟨['x'], 0⟩, .operation .rand []])
        [.drop ['r'], .intern ['r'] ['x'] none, .set ['r'] ['x'] 5, .evaluate ['u'] 2] := by
    refine ⟨⟨?_, ?_, ?_, ?_, trivial⟩, ?_⟩
    · intro w hw
      exact nomatch hw
    · intro w hw
      exact nomatch hw
    · intro w (hw : w ∈ [(⟨['x'], 1⟩, 5)]) cell (hc : cell ∈ [⟨['x'], 0⟩, ⟨['x'], 0⟩])
      have hl : cell.location = 0 := by
        rcases List.mem_pair.mp hc with rfl | rfl
        · rfl
        · rfl
      rw [List.mem_singleton.mp hw, hl]
      decide
    · intro w hw
      exact nomatch hw
    · rintro operator (rfl | rfl) hne
      · rfl
      · exact absurd rfl hne
  obtain ⟨hcells, hvalue, -⟩ := (evaluate_of_spares _ _).1 _ hspares
  have hx := hcells ⟨['x'], 0⟩ List.mem_cons_self
  rw [after_append] at hvalue hx
  exact ⟨_, _, _, _, rfl, rfl, rfl, rfl, hspares, List.mem_cons_self, hx, hvalue⟩

end Session
end ScoreFormula
