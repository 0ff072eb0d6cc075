import ScoreFormula.Expr

/-!
# Binding names one after another

A text binds names in a registry in the order in which they are read.  `internAll` binds a
list of names, and `Extends` says what that leaves as it was: every cell and every value.
The names bound afterwards are the old ones and those of the list.
-/

namespace ScoreFormula

namespace Store

/-- A location that has not been used reads as zero, and so does a new cell. -/
theorem read_grow (store : Store) (cell : Cell) : store.grow.read cell = store.read cell := by
  rcases Nat.lt_trichotomy cell.location store.size with h | h | h
  · exact read_grow_of_lt h
  · have hnew := read_grow_new store cell.name
    rw [← h] at hnew
    rw [hnew]
    simp [read, h, size]
  · unfold size at h
    simp [read, grow, Array.getElem?_push, Nat.ne_of_gt h]

theorem read_of_size_le {store : Store} {cell : Cell} (h : store.size ≤ cell.location) :
    store.read cell = 0 := by
  unfold size at h
  simp [read, h]

end Store

namespace Registry

theorem contains_iff {r : Registry} {name : Text} :
    r.contains name = true ↔ ∃ cell, r.find? name = some cell := by
  rw [contains, Option.isSome_iff_exists]

theorem mem_names_iff {r : Registry} {name : Text} :
    name ∈ r.names ↔ r.contains name = true := by
  simp [names, contains, find?, List.mem_mergeSort, List.find?_isSome]

theorem not_mem_names_empty (name : Text) : name ∉ empty.names := by
  intro hm
  cases mem_names_iff.mp hm

theorem find?_of_mem {r : Registry} {cell : Cell} (h : cell ∈ r.cells) :
    r.find? cell.name = some cell := by
  obtain ⟨before, after, hsplit⟩ := List.append_of_mem h
  have hd := r.distinct
  rw [hsplit, List.map_append, List.map_cons, List.nodup_append] at hd
  have hne : ∀ other ∈ before, ¬(other.name == cell.name) = true := by
    intro other ho
    have := hd.2.2 other.name (List.mem_map_of_mem ho) cell.name List.mem_cons_self
    simpa using this
  rw [find?, hsplit, List.find?_append, List.find?_eq_none.mpr hne]
  simp

end Registry

namespace Scope

/-- `after` has every cell of `before` under its name, with its value, and all else it has
is new. -/
structure Extends (before after : Scope) : Prop where
  find? : ∀ {name cell}, before.registry.find? name = some cell →
    after.registry.find? name = some cell
  read : ∀ cell, after.store.read cell = before.store.read cell
  size : before.store.size ≤ after.store.size
  fresh : ∀ {name cell}, before.registry.find? name = none →
    after.registry.find? name = some cell →
      before.store.size ≤ cell.location ∧ cell.location < after.store.size

namespace Extends

theorem refl (s : Scope) : Extends s s where
  find? h := h
  read _ := rfl
  size := Nat.le_refl _
  fresh h hs := nomatch h.symm.trans hs

theorem trans {a b c : Scope} (hab : Extends a b) (hbc : Extends b c) : Extends a c where
  find? h := hbc.find? (hab.find? h)
  read cell := (hbc.read cell).trans (hab.read cell)
  size := Nat.le_trans hab.size hbc.size
  fresh := by
    intro name cell ha hc
    cases hb : b.registry.find? name with
    | none =>
      obtain ⟨hl, hu⟩ := hbc.fresh hb hc
      exact ⟨Nat.le_trans hab.size hl, hu⟩
    | some other =>
      have he : other = cell := Option.some.inj ((hbc.find? hb).symm.trans hc)
      obtain ⟨hl, hu⟩ := hab.fresh ha hb
      rw [he] at hl hu
      exact ⟨hl, Nat.lt_of_lt_of_le hu hbc.size⟩

theorem contains {a b : Scope} (h : Extends a b) {name : Text}
    (hn : a.registry.contains name = true) : b.registry.contains name = true := by
  obtain ⟨cell, hc⟩ := Registry.contains_iff.mp hn
  exact Registry.contains_iff.mpr ⟨cell, h.find? hc⟩

end Extends

theorem extends_intern (s : Scope) (name : Text) : Extends s (s.intern name).2 := by
  cases h : s.registry.find? name with
  | some cell =>
    rw [intern_of_find? h]
    exact Extends.refl s
  | none =>
    rw [intern_of_find?_eq_none h]
    refine ⟨?_, fun cell => s.store.read_grow cell, ?_, ?_⟩
    · intro other cell ho
      have hne : name ≠ other := by
        intro he
        rw [he, ho] at h
        exact nomatch h
      show (s.registry.bind _ h).find? other = some cell
      rw [Registry.find?_bind, if_neg hne]
      exact ho
    · show s.store.size ≤ s.store.grow.size
      rw [Store.size_grow]
      exact Nat.le_succ _
    · intro other cell ho hc
      have hf : (s.registry.bind ⟨name, s.store.size⟩ h).find? other = some cell := hc
      rw [Registry.find?_bind] at hf
      by_cases he : name = other
      · rw [if_pos he] at hf
        rw [← Option.some.inj hf]
        show s.store.size ≤ s.store.size ∧ s.store.size < s.store.grow.size
        rw [Store.size_grow]
        omega
      · rw [if_neg he, ho] at hf
        exact nomatch hf

theorem contains_intern {s : Scope} {name other : Text} :
    (s.intern name).2.registry.contains other = true ↔
      s.registry.contains other = true ∨ other = name := by
  constructor
  · intro h
    by_cases he : other = name
    · exact Or.inr he
    · left
      cases hf : s.registry.find? name with
      | some cell => rwa [intern_of_find? hf] at h
      | none =>
        rw [intern_of_find?_eq_none hf] at h
        obtain ⟨cell, hc⟩ := Registry.contains_iff.mp h
        have hb : (s.registry.bind ⟨name, s.store.size⟩ hf).find? other = some cell := hc
        rw [Registry.find?_bind, if_neg (Ne.symm he)] at hb
        exact Registry.contains_iff.mpr ⟨cell, hb⟩
  · rintro (h | rfl)
    · exact (extends_intern s name).contains h
    · exact Registry.contains_iff.mpr ⟨_, find?_intern s other⟩

def internAll (s : Scope) (names : List Text) : Scope :=
  names.foldl (fun s name => (s.intern name).2) s

theorem internAll_nil (s : Scope) : s.internAll [] = s := rfl

theorem internAll_cons (s : Scope) (name : Text) (names : List Text) :
    s.internAll (name :: names) = (s.intern name).2.internAll names := rfl

theorem internAll_append (s : Scope) (names others : List Text) :
    s.internAll (names ++ others) = (s.internAll names).internAll others :=
  List.foldl_append

theorem extends_internAll (s : Scope) (names : List Text) : Extends s (s.internAll names) := by
  induction names generalizing s with
  | nil => exact Extends.refl s
  | cons name rest ih => exact (extends_intern s name).trans (ih _)

theorem mem_names_internAll {s : Scope} {names : List Text} {name : Text} :
    name ∈ (s.internAll names).registry.names ↔ name ∈ s.registry.names ∨ name ∈ names := by
  rw [Registry.mem_names_iff, Registry.mem_names_iff]
  induction names generalizing s with
  | nil => simp [internAll_nil]
  | cons other rest ih =>
    rw [internAll_cons, ih, contains_intern, List.mem_cons, or_assoc]

/-- From `before` the cells have been bound one after another under their names. -/
structure Binds (before : Scope) (cells : List Cell) (after : Scope) : Prop where
  after_eq : after = before.internAll (cells.map Cell.name)
  find? : ∀ cell ∈ cells, after.registry.find? cell.name = some cell

namespace Binds

theorem nil (s : Scope) : Binds s [] s :=
  ⟨rfl, fun _ h => absurd h (by simp)⟩

theorem toExtends {a b : Scope} {cells : List Cell} (h : Binds a cells b) : Extends a b := by
  rw [h.after_eq]
  exact extends_internAll a _

theorem append {a b c : Scope} {cells others : List Cell} (hab : Binds a cells b)
    (hbc : Binds b others c) : Binds a (cells ++ others) c := by
  constructor
  · rw [List.map_append, internAll_append, ← hab.after_eq]
    exact hbc.after_eq
  · intro cell hm
    rcases List.mem_append.mp hm with hm | hm
    · exact hbc.toExtends.find? (hab.find? cell hm)
    · exact hbc.find? cell hm

theorem intern (s : Scope) (name : Text) : Binds s [(s.intern name).1] (s.intern name).2 := by
  have hf := find?_intern s name
  have hn : (s.intern name).1.name = name := Registry.name_of_find? hf
  constructor
  · rw [List.map_singleton, hn]
    rfl
  · intro cell hm
    rw [List.mem_singleton.mp hm, hn]
    exact hf

end Binds

/-! ## Locations -/

/-- The cells of a registry are in its store, and each has a location of its own. -/
structure Sound (s : Scope) : Prop where
  bound : ∀ {name cell}, s.registry.find? name = some cell → cell.location < s.store.size
  apart : ∀ {name cell other cell'}, s.registry.find? name = some cell →
    s.registry.find? other = some cell' → cell.location = cell'.location → name = other

theorem Extends.find?_cases {before after : Scope} (h : Extends before after) {name : Text}
    {cell : Cell} (hf : after.registry.find? name = some cell) :
    before.registry.find? name = some cell ∨
      before.registry.find? name = none ∧ before.store.size ≤ cell.location := by
  cases hb : before.registry.find? name with
  | none => exact Or.inr ⟨rfl, (h.fresh hb hf).1⟩
  | some other => exact Or.inl ((h.find? hb).symm.trans hf)

theorem Sound.intern {s : Scope} (h : s.Sound) (name : Text) : (s.intern name).2.Sound := by
  have hext := extends_intern s name
  have hnew : ∀ {other cell}, (s.intern name).2.registry.find? other = some cell →
      s.registry.find? other = none → other = name := by
    intro other cell hf hn
    have hc := contains_intern.mp (Registry.contains_iff.mpr ⟨cell, hf⟩)
    rw [Registry.contains, hn] at hc
    exact hc.resolve_left (by simp)
  constructor
  · intro other cell hf
    rcases hext.find?_cases hf with hb | ⟨hn, -⟩
    · exact Nat.lt_of_lt_of_le (h.bound hb) hext.size
    · exact (hext.fresh hn hf).2
  · intro one cell two cell' hf hf' hl
    rcases hext.find?_cases hf with hb | ⟨hn, hle⟩
    · rcases hext.find?_cases hf' with hb' | ⟨-, hle'⟩
      · exact h.apart hb hb' hl
      · have := h.bound hb
        omega
    · rcases hext.find?_cases hf' with hb' | ⟨hn', -⟩
      · have := h.bound hb'
        omega
      · rw [hnew hf hn, hnew hf' hn']

theorem Sound.internAll {s : Scope} (h : s.Sound) (names : List Text) :
    (s.internAll names).Sound := by
  induction names generalizing s with
  | nil => exact h
  | cons name rest ih => exact ih (h.intern name)

end Scope

namespace Expr

theorem mem_insertName {name other : Text} {names : List Text} :
    other ∈ insertName name names ↔ other = name ∨ other ∈ names := by
  induction names with
  | nil => simp [insertName]
  | cons first rest ih =>
    rw [insertName]
    by_cases hlt : name < first
    · rw [if_pos hlt, List.mem_cons]
    · rw [if_neg hlt]
      by_cases he : name = first
      · rw [if_pos he, List.mem_cons, he]
        exact ⟨Or.inr, fun h => h.elim Or.inl id⟩
      · rw [if_neg he, List.mem_cons, ih, List.mem_cons]
        exact or_left_comm

theorem mem_foldl_insertName {cells : List Cell} {names : List Text} {name : Text} :
    name ∈ cells.foldl (fun names cell => insertName cell.name names) names ↔
      name ∈ names ∨ name ∈ cells.map Cell.name := by
  induction cells generalizing names with
  | nil => simp
  | cons cell rest ih =>
    rw [List.foldl_cons, ih, mem_insertName, List.map_cons, List.mem_cons, or_assoc,
      or_left_comm]

theorem mem_variables {e : Expr} {name : Text} :
    name ∈ e.variables ↔ name ∈ e.cells.map Cell.name := by
  rw [Expr.variables, mem_foldl_insertName]
  simp

end Expr
end ScoreFormula
