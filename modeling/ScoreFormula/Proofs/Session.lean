import ScoreFormula.Proofs.Forest.Course
import ScoreFormula.Session

/-!
# What a step does to cells

Every step of a session binds some names in one registry, one after another, and then
writes some values; dropping a registry does neither and unbinds its names.  `step_effect`
says so of all steps at once, and nothing later looks at the steps one by one to learn what
they bind.

`Sound` is what every run keeps: bound and held cells are in the store, and no location is
bound twice, neither under two names nor in two registries.
-/

namespace ScoreFormula

namespace Store

/-- Writes values one after another. -/
def writeAll (store : Store) (writes : List (Cell × Double)) : Store :=
  writes.foldl (fun store w => store.write w.1 w.2) store

theorem writeAll_cons (store : Store) (w : Cell × Double) (writes : List (Cell × Double)) :
    store.writeAll (w :: writes) = (store.write w.1 w.2).writeAll writes := rfl

theorem size_writeAll (store : Store) (writes : List (Cell × Double)) :
    (store.writeAll writes).size = store.size := by
  induction writes generalizing store with
  | nil => rfl
  | cons w rest ih => rw [writeAll_cons, ih, size_write]

end Store

namespace Session

namespace Table

variable {α : Type} (key other : Text) (value : α) (t : Table α)

theorem lookup_erase :
    (erase key t).lookup other = if other = key then none else t.lookup other := by
  induction t with
  | nil => simp [erase]
  | cons entry rest ih =>
    unfold erase at ih ⊢
    by_cases hk : entry.1 = key
    · rw [List.filter_cons_of_neg (by simp [hk]), ih, List.lookup_cons]
      by_cases ho : other = key
      · rw [if_pos ho, if_pos ho]
      · have hne : (other == entry.1) = false := by simp [hk, ho]
        rw [if_neg ho, if_neg ho, hne]
    · rw [List.filter_cons_of_pos (by simp [hk]), List.lookup_cons, List.lookup_cons, ih]
      by_cases ho : other = key
      · have hne : (other == entry.1) = false := by simp [ho, Ne.symm hk]
        rw [if_pos ho, if_pos ho, hne]
      · rw [if_neg ho, if_neg ho]

theorem lookup_put :
    (put key value t).lookup other = if other = key then some value else t.lookup other := by
  rw [put, List.lookup_cons, lookup_erase]
  by_cases ho : other = key
  · simp [ho]
  · have hne : (other == key) = false := by simp [ho]
    rw [if_neg ho, if_neg ho, hne]

theorem lookup_hold {key : Option Text} {other : Text} {value found : α} {t : Table α}
    (h : (hold key value t).lookup other = some found) :
    t.lookup other = some found ∨ found = value := by
  cases key with
  | none => exact Or.inl h
  | some key =>
    rw [hold, lookup_put] at h
    by_cases ho : other = key
    · rw [if_pos ho] at h
      exact Or.inr (Option.some.inj h).symm
    · rw [if_neg ho] at h
      exact Or.inl h

end Table

namespace State

/-- The state in which a run ends. -/
def after (s : State) (steps : List Step) : State := (s.run steps).2

theorem after_cons (s : State) (step : Step) (rest : List Step) :
    s.after (step :: rest) = (s.step step).2.after rest := rfl

theorem after_append (s : State) (steps others : List Step) :
    s.after (steps ++ others) = (s.after steps).after others := by
  induction steps generalizing s with
  | nil => rfl
  | cons step rest ih => exact ih (s.step step).2

theorem registry_withScope (s : State) (key other : Text) (scope : Scope) :
    (s.withScope key scope).registry other =
      if other = key then scope.registry else s.registry other := by
  rw [registry, withScope, Table.lookup_put]
  by_cases h : other = key
  · rw [if_pos h, if_pos h]
    rfl
  · rw [if_neg h, if_neg h]
    rfl

/-- The values that a step writes, in order. -/
def writes (s : State) : Step → List (Cell × Double)
  | .put key value => (s.cells.lookup key).toList.map fun cell => (cell, value)
  | .set key name value => ((s.registry key).find? name).toList.map fun cell => (cell, value)
  | .refresh key values =>
    (s.registry key).cells.map fun cell => (cell, (values.lookup cell.name).getD 0)
  | _ => []

/-- From `s` to `s'` a step binds `names` in the registry of `key` and writes its values. -/
structure Effect (s s' : State) (step : Step) (key : Text) (names : List Text) : Prop where
  store : s'.store = ((s.scope key).internAll names).store.writeAll (s.writes step)
  registry : ∀ other,
    step = .drop other ∧ s'.registry other = .empty ∨
      step ≠ .drop other ∧ s'.registry other =
        if other = key then ((s.scope key).internAll names).registry else s.registry other

theorem effect_of_bind {s s' : State} {step : Step} {key : Text} {names : List Text}
    (hd : ∀ other, step ≠ .drop other)
    (h : s'.store = ((s.scope key).internAll names).store.writeAll (s.writes step) ∧
      s'.registries = Table.put key ((s.scope key).internAll names).registry s.registries) :
    Effect s s' step key names := by
  refine ⟨h.1, fun other => Or.inr ⟨hd other, ?_⟩⟩
  rw [← registry_withScope s key other, registry, h.2]
  rfl

theorem effect_of_write {s s' : State} {step : Step} (hd : ∀ other, step ≠ .drop other)
    (h : s'.store = s.store.writeAll (s.writes step) ∧ s'.registries = s.registries) :
    Effect s s' step [] [] := by
  refine ⟨h.1, fun other => Or.inr ⟨hd other, ?_⟩⟩
  have hsame : s'.registry other = s.registry other := by rw [registry, registry, h.2]
  rw [hsame]
  by_cases ho : other = []
  · rw [if_pos ho, ho]
    rfl
  · rw [if_neg ho]

theorem effect_read (s : State) (key t : Text) (limit : Nat) (keep : Text) :
    ∃ names, Effect s (s.step (.read key t limit keep)).2 (.read key t limit keep) key names := by
  obtain ⟨names, hnames⟩ := Expr.exists_internAll_of_read limit t
  refine ⟨names, effect_of_bind (by simp) ?_⟩
  rw [← hnames, step]
  rcases Expr.read limit t (s.scope key) with ⟨cause | _ | e, scope⟩
  · exact ⟨rfl, rfl⟩
  · exact ⟨rfl, rfl⟩
  · exact ⟨rfl, rfl⟩

theorem effect_find (s : State) (key name : Text) (held : Option Text) :
    Effect s (s.step (.find key name held)).2 (.find key name held) key [] := by
  refine effect_of_bind (by simp) ?_
  rw [step]
  split <;> exact ⟨rfl, rfl⟩

theorem effect_put (s : State) (cell : Text) (value : Double) :
    Effect s (s.step (.put cell value)).2 (.put cell value) [] [] := by
  refine effect_of_write (by simp) ?_
  rw [step, writes]
  cases s.cells.lookup cell with
  | none => exact ⟨rfl, rfl⟩
  | some c => exact ⟨rfl, rfl⟩

theorem effect_set (s : State) (key name : Text) (value : Double) :
    Effect s (s.step (.set key name value)).2 (.set key name value) key [] := by
  refine effect_of_bind (by simp) ?_
  rw [step, writes, Registry.set]
  cases (s.registry key).find? name with
  | none => exact ⟨rfl, rfl⟩
  | some c => exact ⟨rfl, rfl⟩

theorem effect_refresh (s : State) (key : Text) (values : List (Text × Double)) :
    Effect s (s.step (.refresh key values)).2 (.refresh key values) key [] := by
  refine effect_of_bind (by simp) ⟨?_, rfl⟩
  rw [writes, Store.writeAll, List.foldl_map]
  rfl

theorem effect_drop (s : State) (key : Text) :
    Effect s (s.step (.drop key)).2 (.drop key) key [] := by
  refine ⟨rfl, fun other => ?_⟩
  have hl : (s.step (.drop key)).2.registries.lookup other =
      if other = key then none else s.registries.lookup other := Table.lookup_erase key other _
  by_cases h : other = key
  · left
    rw [if_pos h] at hl
    exact ⟨by rw [h], by rw [registry, hl]; rfl⟩
  · right
    rw [if_neg h] at hl
    refine ⟨fun he => h (Step.drop.inj he).symm, ?_⟩
    rw [if_neg h, registry, hl, registry]

theorem step_effect (s : State) (step : Step) :
    ∃ key names, Effect s (s.step step).2 step key names := by
  cases step with
  | read key t limit keep => exact ⟨key, effect_read s key t limit keep⟩
  | intern key name held => exact ⟨key, [name], effect_of_bind (by simp) ⟨rfl, rfl⟩⟩
  | find key name held => exact ⟨key, [], effect_find s key name held⟩
  | put cell value => exact ⟨[], [], effect_put s cell value⟩
  | set key name value => exact ⟨key, [], effect_set s key name value⟩
  | refresh key values => exact ⟨key, [], effect_refresh s key values⟩
  | contains key name => exact ⟨key, [], effect_of_bind (by simp) ⟨rfl, rfl⟩⟩
  | size key => exact ⟨key, [], effect_of_bind (by simp) ⟨rfl, rfl⟩⟩
  | drop key => exact ⟨key, [], effect_drop s key⟩
  | _ =>
    -- The other steps change at most trees and the counts of draws.
    refine ⟨[], [], effect_of_write (by simp) ?_⟩
    rw [State.step]
    repeat' split
    all_goals exact ⟨rfl, rfl⟩

/-! ## Bindings -/

/-- The registry of `key` has `cell` under `name`. -/
def Binds (s : State) (key name : Text) (cell : Cell) : Prop :=
  (s.registry key).find? name = some cell

namespace Effect

variable {s s' : State} {step : Step} {key other name : Text} {names : List Text} {cell : Cell}

theorem size_eq (h : Effect s s' step key names) :
    s'.store.size = ((s.scope key).internAll names).store.size := by
  rw [h.store, Store.size_writeAll]

theorem size_le (h : Effect s s' step key names) : s.store.size ≤ s'.store.size := by
  rw [h.size_eq]
  exact ((s.scope key).extends_internAll names).size

/-- A binding stays until its registry is dropped. -/
theorem binds (h : Effect s s' step key names) (hd : step ≠ .drop other)
    (hb : s.Binds other name cell) : s'.Binds other name cell := by
  rcases h.registry other with ⟨he, -⟩ | ⟨-, hr⟩
  · exact absurd he hd
  · rw [Binds, hr]
    by_cases ho : other = key
    · rw [if_pos ho]
      rw [ho] at hb
      exact ((s.scope key).extends_internAll names).find? hb
    · rw [if_neg ho]
      exact hb

/-- A binding was there before, in a registry that has not been dropped, or its cell is new. -/
theorem binds_cases (h : Effect s s' step key names) (hb : s'.Binds other name cell) :
    step ≠ .drop other ∧ s.Binds other name cell ∨
      other = key ∧ ((s.scope key).internAll names).registry.find? name = some cell ∧
        s.store.size ≤ cell.location := by
  rcases h.registry other with ⟨-, hr⟩ | ⟨hd, hr⟩
  · rw [Binds, hr] at hb
    cases hb
  · rw [Binds, hr] at hb
    by_cases ho : other = key
    · rw [if_pos ho] at hb
      rcases ((s.scope key).extends_internAll names).find?_cases hb with hold | ⟨-, hle⟩
      · left
        rw [ho] at hd ⊢
        exact ⟨hd, hold⟩
      · exact Or.inr ⟨ho, hb, hle⟩
    · rw [if_neg ho] at hb
      exact Or.inl ⟨hd, hb⟩

end Effect

/-- A cell that is held after a step was held before or is bound. -/
theorem held_step {s : State} {step : Step} {key : Text} {cell : Cell}
    (h : (s.step step).2.cells.lookup key = some cell) :
    s.cells.lookup key = some cell ∨ ∃ other name, (s.step step).2.Binds other name cell := by
  cases step with
  | intern other name held =>
    have hr : (s.step (.intern other name held)).2.registry other =
        ((s.scope other).intern name).2.registry :=
      (registry_withScope s other other _).trans (if_pos rfl)
    rcases Table.lookup_hold h with h | h
    · exact Or.inl h
    · have hc : cell = ((s.scope other).intern name).1 := h
      refine Or.inr ⟨other, name, ?_⟩
      rw [Binds, hr, hc]
      exact (s.scope other).find?_intern name
  | find other name held =>
    rw [step] at h ⊢
    cases hf : ((s.withScope other (s.scope other)).registry other).find? name with
    | none =>
      simp only [hf] at h
      exact Or.inl h
    | some found =>
      simp only [hf] at h ⊢
      rcases Table.lookup_hold h with h | h
      · exact Or.inl h
      · refine Or.inr ⟨other, name, ?_⟩
        rw [h]
        exact hf
  | _ =>
    left
    rw [step] at h
    repeat' split at h
    all_goals exact h

/-! ## Sound states -/

/-- Bound and held cells are in the store, and each location is bound once. -/
structure Sound (s : State) : Prop where
  bound : ∀ {key name cell}, s.Binds key name cell → cell.location < s.store.size
  apart : ∀ {key name cell other name' cell'}, s.Binds key name cell →
    s.Binds other name' cell' → cell.location = cell'.location → key = other ∧ name = name'
  held : ∀ {key cell}, s.cells.lookup key = some cell → cell.location < s.store.size

theorem sound_start : start.Sound where
  bound h := by cases h
  apart h := by cases h
  held h := by cases h

namespace Sound

theorem scope {s : State} (h : s.Sound) (key : Text) : (s.scope key).Sound where
  bound hb := h.bound (show s.Binds key _ _ from hb)
  apart hb hb' hl :=
    (h.apart (show s.Binds key _ _ from hb) (show s.Binds key _ _ from hb') hl).2

theorem step {s : State} (h : s.Sound) (step : Step) : (s.step step).2.Sound := by
  obtain ⟨key, names, he⟩ := s.step_effect step
  have hscope := (h.scope key).internAll names
  have hbound : ∀ {other name cell}, (s.step step).2.Binds other name cell →
      cell.location < (s.step step).2.store.size := by
    intro other name cell hb
    rcases he.binds_cases hb with ⟨-, hold⟩ | ⟨-, hnew, -⟩
    · exact Nat.lt_of_lt_of_le (h.bound hold) he.size_le
    · rw [he.size_eq]
      exact hscope.bound hnew
  refine ⟨hbound, ?_, ?_⟩
  · -- Old cells lie below the size of the store and new ones do not, so two bindings of one
    -- location are both old, or both new and then in the one registry that the step extends.
    intro one name cell two name' cell' hb hb' hl
    rcases he.binds_cases hb with ⟨-, hold⟩ | ⟨hone, hnew, hle⟩
    · rcases he.binds_cases hb' with ⟨-, hold'⟩ | ⟨-, -, hle'⟩
      · exact h.apart hold hold' hl
      · have := h.bound hold
        omega
    · rcases he.binds_cases hb' with ⟨-, hold'⟩ | ⟨htwo, hnew', -⟩
      · have := h.bound hold'
        omega
      · exact ⟨hone.trans htwo.symm, hscope.apart hnew hnew' hl⟩
  · intro other cell hc
    rcases held_step hc with hold | ⟨owner, name, hb⟩
    · exact Nat.lt_of_lt_of_le (h.held hold) he.size_le
    · exact hbound hb

theorem after {s : State} (h : s.Sound) (steps : List Step) : (s.after steps).Sound := by
  induction steps generalizing s with
  | nil => exact h
  | cons step rest ih => exact ih (h.step step)

end Sound

theorem sound_after (steps : List Step) : (start.after steps).Sound := sound_start.after steps

/-! ## Bindings over a run -/

theorem size_le_after (s : State) (steps : List Step) :
    s.store.size ≤ (s.after steps).store.size := by
  induction steps generalizing s with
  | nil => exact Nat.le_refl _
  | cons step rest ih =>
    obtain ⟨key, names, he⟩ := s.step_effect step
    exact Nat.le_trans he.size_le (ih _)

theorem binds_after {s : State} {steps : List Step} {key name : Text} {cell : Cell}
    (h : s.Binds key name cell) (hd : .drop key ∉ steps) : (s.after steps).Binds key name cell := by
  induction steps generalizing s with
  | nil => exact h
  | cons step rest ih =>
    rw [List.mem_cons, not_or] at hd
    obtain ⟨hne, hrest⟩ := hd
    obtain ⟨_, _, he⟩ := s.step_effect step
    exact ih (he.binds (Ne.symm hne) h) hrest

/-- A binding at the end of a run was there all along, or its cell is new in the run. -/
theorem binds_of_after {s : State} {steps : List Step} {key name : Text} {cell : Cell}
    (h : (s.after steps).Binds key name cell) :
    .drop key ∉ steps ∧ s.Binds key name cell ∨ s.store.size ≤ cell.location := by
  induction steps generalizing s with
  | nil => exact Or.inl ⟨by simp, h⟩
  | cons step rest ih =>
    obtain ⟨_, _, he⟩ := s.step_effect step
    rcases ih h with ⟨hd, hb⟩ | hle
    · rcases he.binds_cases hb with ⟨hne, hold⟩ | ⟨-, -, hle⟩
      · exact Or.inl ⟨by simp [Ne.symm hne, hd], hold⟩
      · exact Or.inr hle
    · exact Or.inr (Nat.le_trans he.size_le hle)

end State
end Session
end ScoreFormula
