import Mathlib.Data.List.Induction
import ScoreFormula.Proofs.Session

/-!
# The value of a cell

What a cell holds is settled by the last step of the run that touched it.  `Touches` lists
the ways to touch a cell: making it, setting it through a handle, and setting or refreshing
the registry that binds it.  `read_of_run` says that every cell of a run has been touched,
that it holds what the last touch gave it, and that a cell is out of reach of all other
registries, and of its own as soon as that is dropped.

Cells are told apart by their location, so the name of a cell plays no part here.
-/

namespace ScoreFormula

namespace Store

theorem read_writeAll {store : Store} {writes : List (Cell × Double)} {cell : Cell}
    {value : Double} (hb : ∀ w ∈ writes, w.1.location < store.size)
    (hv : ∀ w ∈ writes, w.1.location = cell.location → w.2 = value)
    (h : store.read cell = value ∨ ∃ w ∈ writes, w.1.location = cell.location) :
    (store.writeAll writes).read cell = value := by
  induction writes generalizing store with
  | nil =>
    rcases h with h | ⟨w, hw, -⟩
    · exact h
    · exact absurd hw (by simp)
  | cons w rest ih =>
    have hr := read_write (hb w List.mem_cons_self) cell w.2
    rw [writeAll_cons]
    refine ih ?_ (fun w' hw' => hv w' (List.mem_cons_of_mem _ hw')) ?_
    · intro w' hw'
      rw [size_write]
      exact hb w' (List.mem_cons_of_mem _ hw')
    · by_cases hl : cell.location = w.1.location
      · left
        rw [hr, if_pos hl]
        exact hv w List.mem_cons_self hl.symm
      · rw [hr, if_neg hl]
        rcases h with h | ⟨w', hw', he⟩
        · exact Or.inl h
        · rcases List.mem_cons.mp hw' with rfl | hw'
          · exact absurd he.symm hl
          · exact Or.inr ⟨w', hw', he⟩

end Store

namespace Session

open State

/-- A step gives a value to the cell at a location. -/
inductive Touches (s : State) (location : Nat) : Step → Double → Prop
  | creation {step : Step} :
    s.store.size ≤ location → location < (s.step step).2.store.size → Touches s location step 0
  | put {key : Text} {cell : Cell} {value : Double} :
    s.cells.lookup key = some cell → cell.location = location →
      Touches s location (.put key value) value
  | set {key name : Text} {cell : Cell} {value : Double} :
    s.Binds key name cell → cell.location = location →
      Touches s location (.set key name value) value
  | refresh {key name : Text} {cell : Cell} {values : List (Text × Double)} :
    s.Binds key name cell → cell.location = location →
      Touches s location (.refresh key values) ((values.lookup name).getD 0)

namespace Touches

variable {s : State} {location : Nat} {step : Step} {value value' : Double}

/-- What a step writes to is held or bound, so it is there. -/
theorem of_mem_writes (hs : s.Sound) {w : Cell × Double} (h : w ∈ s.writes step) :
    w.1.location < s.store.size ∧ Touches s w.1.location step w.2 := by
  cases step with
  | put key value =>
    obtain ⟨cell, hc, rfl⟩ := List.mem_map.mp h
    have hheld := Option.mem_toList.mp hc
    exact ⟨hs.held hheld, .put hheld rfl⟩
  | set key name value =>
    obtain ⟨cell, hc, rfl⟩ := List.mem_map.mp h
    have hb := Option.mem_toList.mp hc
    exact ⟨hs.bound hb, .set hb rfl⟩
  | refresh key values =>
    obtain ⟨cell, hc, rfl⟩ := List.mem_map.mp h
    have hb := Registry.find?_of_mem hc
    exact ⟨hs.bound hb, .refresh hb rfl⟩
  | _ => exact absurd h (by simp [writes])

/-- A cell is touched by being made or by being written to. -/
theorem new_or_written (h : Touches s location step value) :
    s.store.size ≤ location ∧ value = 0 ∨
      ∃ w ∈ s.writes step, w.1.location = location := by
  cases h with
  | creation hle _ => exact Or.inl ⟨hle, rfl⟩
  | @put _ cell value hc hl =>
    exact Or.inr ⟨(cell, value), by simp [writes, hc], hl⟩
  | @set _ _ cell value hb hl =>
    have hf : (s.registry _).find? _ = some cell := hb
    exact Or.inr ⟨(cell, value), by simp [writes, hf], hl⟩
  | @refresh _ _ cell values hb hl =>
    exact Or.inr ⟨_, List.mem_map.mpr ⟨cell, Registry.mem_of_find? hb, rfl⟩, hl⟩

/-- The first touch of a cell makes it. -/
theorem creation_of_le (hs : s.Sound) (h : Touches s location step value)
    (hle : s.store.size ≤ location) :
    value = 0 ∧ location < (s.step step).2.store.size := by
  cases h with
  | creation _ hlt => exact ⟨rfl, hlt⟩
  | put hc hl =>
    have := hs.held hc
    omega
  | set hb hl =>
    have := hs.bound hb
    omega
  | refresh hb hl =>
    have := hs.bound hb
    omega

theorem value_eq (hs : s.Sound) (h : Touches s location step value)
    (h' : Touches s location step value') : value = value' := by
  by_cases hle : s.store.size ≤ location
  · rw [(h.creation_of_le hs hle).1, (h'.creation_of_le hs hle).1]
  · cases h with
    | creation hnew _ => exact absurd hnew hle
    | put _ _ =>
      cases h' with
      | creation hnew _ => exact absurd hnew hle
      | put _ _ => rfl
    | set _ _ =>
      cases h' with
      | creation hnew _ => exact absurd hnew hle
      | set _ _ => rfl
    | refresh hb hl =>
      cases h' with
      | creation hnew _ => exact absurd hnew hle
      | refresh hb' hl' => rw [(hs.apart hb hb' (hl.trans hl'.symm)).2]

/-- A bound cell is touched through a handle, or through its registry under its name. -/
theorem of_binds (hs : s.Sound) {key name : Text} {cell : Cell} (hb : s.Binds key name cell)
    (h : Touches s cell.location step value) :
    (∃ held, step = .put held value) ∨ step = .set key name value ∨
      ∃ values, step = .refresh key values ∧ value = (values.lookup name).getD 0 := by
  cases h with
  | creation hle _ =>
    have := hs.bound hb
    omega
  | put _ _ => exact Or.inl ⟨_, rfl⟩
  | set hb' hl =>
    obtain ⟨rfl, rfl⟩ := hs.apart hb' hb hl
    exact Or.inr (Or.inl rfl)
  | refresh hb' hl =>
    obtain ⟨rfl, rfl⟩ := hs.apart hb' hb hl
    exact Or.inr (Or.inr ⟨_, rfl, rfl⟩)

/-- A cell that no registry binds is touched through a handle. -/
theorem of_not_binds (hlt : location < s.store.size)
    (hn : ∀ key name cell, s.Binds key name cell → cell.location ≠ location)
    (h : Touches s location step value) : ∃ held, step = .put held value := by
  cases h with
  | creation hle _ => omega
  | put _ _ => exact ⟨_, rfl⟩
  | set hb hl => exact absurd hl (hn _ _ _ hb)
  | refresh hb hl => exact absurd hl (hn _ _ _ hb)

end Touches

/-! ## One step -/

section Step

variable {s : State} (hs : s.Sound) {step : Step} {cell : Cell}

include hs

/-- What a step leaves in a cell is what it writes there or else what was there. -/
theorem read_step_of {value : Double}
    (hv : ∀ w ∈ s.writes step, w.1.location = cell.location → w.2 = value)
    (h : s.store.read cell = value ∨ ∃ w ∈ s.writes step, w.1.location = cell.location) :
    (s.step step).2.store.read cell = value := by
  obtain ⟨key, names, he⟩ := s.step_effect step
  have hext := (s.scope key).extends_internAll names
  rw [he.store]
  refine Store.read_writeAll ?_ hv ?_
  · intro w hw
    exact Nat.lt_of_lt_of_le (Touches.of_mem_writes hs hw).1 hext.size
  · rw [hext.read]
    exact h

theorem read_step_of_touches {value : Double} (h : Touches s cell.location step value) :
    (s.step step).2.store.read cell = value := by
  refine read_step_of hs ?_ ?_
  · intro w hw hl
    exact (hl ▸ (Touches.of_mem_writes hs hw).2).value_eq hs h
  · rcases h.new_or_written with ⟨hle, rfl⟩ | hw
    · exact Or.inl (Store.read_of_size_le hle)
    · exact Or.inr hw

theorem read_step_of_not_touches (h : ∀ value, ¬Touches s cell.location step value) :
    (s.step step).2.store.read cell = s.store.read cell := by
  refine read_step_of hs ?_ (Or.inl rfl)
  intro w hw hl
  exact absurd (hl ▸ (Touches.of_mem_writes hs hw).2) (h w.2)

end Step

/-! ## A run -/

/-- No step of a run touches the cell at a location. -/
def Untouched (s : State) (location : Nat) : List Step → Prop
  | [] => True
  | step :: rest =>
    (∀ value, ¬Touches s location step value) ∧ Untouched (s.step step).2 location rest

theorem untouched_append {s : State} {location : Nat} {steps others : List Step} :
    Untouched s location (steps ++ others) ↔
      Untouched s location steps ∧ Untouched (s.after steps) location others := by
  induction steps generalizing s with
  | nil => exact (and_iff_right trivial).symm
  | cons step rest ih =>
    rw [List.cons_append, Untouched, Untouched, ih, and_assoc, after_cons]

theorem read_after_of_untouched {s : State} (hs : s.Sound) {steps : List Step} {cell : Cell}
    (h : Untouched s cell.location steps) :
    (s.after steps).store.read cell = s.store.read cell := by
  induction steps generalizing s with
  | nil => rfl
  | cons step rest ih =>
    rw [after_cons, ih (hs.step step) h.2]
    exact read_step_of_not_touches hs h.1

/-- The last step of a run from the start that touches the cell at a location gives it this
value. -/
def LastTouch (steps : List Step) (location : Nat) (value : Double) : Prop :=
  ∃ earlier step later, steps = earlier ++ step :: later ∧
    Touches (start.after earlier) location step value ∧
      Untouched (start.after (earlier ++ [step])) location later

theorem LastTouch.read {steps : List Step} {cell : Cell} {value : Double}
    (h : LastTouch steps cell.location value) : (start.after steps).store.read cell = value := by
  obtain ⟨earlier, step, later, rfl, htouch, hlater⟩ := h
  rw [List.append_cons, after_append,
    read_after_of_untouched (sound_after _) hlater, after_append]
  exact read_step_of_touches (sound_after earlier) htouch

/-- What exists has been touched, if only by its creation. -/
theorem exists_lastTouch {steps : List Step} {location : Nat}
    (h : location < (start.after steps).store.size) : ∃ value, LastTouch steps location value := by
  -- From the end of the run: a step that does not touch the cell has not made it either, so
  -- the cell was there before that step.
  induction steps using List.reverseRecOn with
  | nil => exact absurd h (Nat.not_lt_zero location)
  | append_singleton steps step ih =>
    by_cases htouch : ∃ value, Touches (start.after steps) location step value
    · obtain ⟨value, htouch⟩ := htouch
      exact ⟨value, steps, step, [], rfl, htouch, trivial⟩
    · have hnone : ∀ value, ¬Touches (start.after steps) location step value :=
        fun value hv => htouch ⟨value, hv⟩
      have hlt : location < (start.after steps).store.size := by
        rw [after_append] at h
        exact Nat.lt_of_not_le fun hle => hnone 0 (.creation hle h)
      obtain ⟨value, earlier, last, later, rfl, hlast, hlater⟩ := ih hlt
      refine ⟨value, earlier, last, later ++ [step], by simp, hlast, ?_⟩
      rw [List.append_cons, after_append] at hnone
      exact untouched_append.mpr ⟨hlater, hnone, trivial⟩

/-- In every run each cell that exists has been touched and holds what its last touch gave
it, bit for bit.  While a registry binds a cell, only a handle and that registry reach it, the
registry under the cell's name; once the registry has been dropped, only a handle does.  Before
it is made nothing reaches it. -/
theorem read_of_run (steps : List Step) :
    (∀ location, location < (start.after steps).store.size →
        ∃ value, LastTouch steps location value) ∧
      (∀ cell value, LastTouch steps cell.location value →
        (start.after steps).store.read cell = value) ∧
      (∀ key name cell step value, (start.after steps).Binds key name cell →
        Touches (start.after steps) cell.location step value →
          (∃ held, step = .put held value) ∨ step = .set key name value ∨
            ∃ values, step = .refresh key values ∧ value = (values.lookup name).getD 0) ∧
      (∀ key name cell later step value, (start.after steps).Binds key name cell →
        .drop key ∈ later → Touches (start.after (steps ++ later)) cell.location step value →
          ∃ held, step = .put held value) ∧
      ∀ location step value, (start.after steps).store.size ≤ location →
        Touches (start.after steps) location step value →
          value = 0 ∧ location < ((start.after steps).step step).2.store.size := by
  have hs := sound_after steps
  refine ⟨?_, ?_, ?_, ?_, ?_⟩
  · intro location hlt
    exact exists_lastTouch hlt
  · intro cell value h
    exact h.read
  · intro key name cell step value hb h
    exact h.of_binds hs hb
  · intro key name cell later step value hb hd h
    have hlt := hs.bound hb
    rw [after_append] at h
    refine h.of_not_binds (Nat.lt_of_lt_of_le hlt (size_le_after _ later)) ?_
    intro other name' cell' hb' hl
    rcases binds_of_after hb' with ⟨hd', hold⟩ | hle
    · obtain ⟨rfl, -⟩ := hs.apart hold hb hl
      exact hd' hd
    · omega
  · intro location step value hle h
    exact h.creation_of_le hs hle

/-- A NaN with a sign and a fraction of its own, put into a cell whose registry has been
dropped. -/
theorem read_of_run_put_after_drop :
    ∃ (steps : List Step) (value : Double),
      steps = [.intern ['r'] ['x'] (some ['h']), .drop ['r'], .put ['h'] value] ∧
      value.bits = 0xfff8000000000001 ∧ value.isNaN = true ∧ LastTouch steps 0 value ∧
      (start.after steps).store.read ⟨['x'], 0⟩ = value ∧
      ∀ step value, Touches (start.after steps) 0 step value → ∃ held, step = .put held value := by
  have hheld : (start.after [.intern ['r'] ['x'] (some ['h']), .drop ['r']]).cells.lookup ['h'] =
      some ⟨['x'], 0⟩ := rfl
  have ht : LastTouch [.intern ['r'] ['x'] (some ['h']), .drop ['r'],
      .put ['h'] ⟨0xfff8000000000001⟩] 0 ⟨0xfff8000000000001⟩ :=
    ⟨[.intern ['r'] ['x'] (some ['h']), .drop ['r']], .put ['h'] ⟨0xfff8000000000001⟩, [], rfl,
      .put hheld rfl, trivial⟩
  obtain ⟨-, hread, -⟩ :=
    read_of_run [.intern ['r'] ['x'] (some ['h']), .drop ['r'], .put ['h'] ⟨0xfff8000000000001⟩]
  obtain ⟨-, -, -, hdropped, -⟩ := read_of_run [.intern ['r'] ['x'] (some ['h'])]
  exact ⟨_, _, rfl, rfl, rfl, ht, hread ⟨['x'], 0⟩ _ ht,
    fun step value => hdropped ['r'] ['x'] ⟨['x'], 0⟩
      [.drop ['r'], .put ['h'] ⟨0xfff8000000000001⟩] step value rfl List.mem_cons_self⟩

end Session
end ScoreFormula
