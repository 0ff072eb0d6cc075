import ScoreFormula.Double
import ScoreFormula.Text.Blank

/-!
# Cells, stores and registries

A variable is a cell: a name and a location in a store of values.  Trees and
registries hold cells, and only the store holds values, so everything that refers
to one cell sees the same value, bit for bit, and a cell outlives the registry that
created it.

A registry binds each of its names to one cell.  `Scope.intern` gives the cell of a
name and creates it on first use, at a location that the store has not used before.
-/

namespace ScoreFormula

structure Cell where
  name : Text
  location : Nat
deriving DecidableEq, Repr

structure Store where
  values : Array Double

namespace Store

def empty : Store := ⟨#[]⟩

def size (store : Store) : Nat := store.values.size

/-- The value of a cell.  Every cell of a run has a location in its store. -/
def read (store : Store) (cell : Cell) : Double := store.values.getD cell.location 0

def write (store : Store) (cell : Cell) (value : Double) : Store :=
  ⟨store.values.setIfInBounds cell.location value⟩

/-- The store with one more cell, whose value is zero. -/
def grow (store : Store) : Store := ⟨store.values.push 0⟩

theorem size_write (store : Store) (cell : Cell) (value : Double) :
    (store.write cell value).size = store.size := by
  simp [size, write]

theorem size_grow (store : Store) : store.grow.size = store.size + 1 := by
  simp [size, grow]

theorem read_write {store : Store} {cell : Cell} (h : cell.location < store.size)
    (other : Cell) (value : Double) :
    (store.write cell value).read other =
      if other.location = cell.location then value else store.read other := by
  unfold size at h
  simp only [read, write, Array.getD_eq_getD_getElem?, Array.getElem?_setIfInBounds]
  by_cases he : cell.location = other.location
  · simp [he, he ▸ h]
  · simp [he, Ne.symm he]

theorem read_grow_of_lt {store : Store} {cell : Cell} (h : cell.location < store.size) :
    store.grow.read cell = store.read cell := by
  unfold size at h
  simp [read, grow, Array.getElem?_push, Nat.ne_of_lt h]

theorem read_grow_new (store : Store) (name : Text) : store.grow.read ⟨name, store.size⟩ = 0 := by
  simp [read, grow, size]

end Store

/-- The cells of one evaluation context, at most one for each name. -/
structure Registry where
  cells : List Cell
  distinct : (cells.map Cell.name).Nodup

namespace Registry

def empty : Registry := ⟨[], List.nodup_nil⟩

def find? (r : Registry) (name : Text) : Option Cell := r.cells.find? fun c => c.name == name

def contains (r : Registry) (name : Text) : Bool := (r.find? name).isSome

def size (r : Registry) : Nat := r.cells.length

def isEmpty (r : Registry) : Bool := r.cells.isEmpty

/-- The bound names in code point order. -/
def names (r : Registry) : List Text := (r.cells.map Cell.name).mergeSort fun a b => !decide (b < a)

def values (r : Registry) (store : Store) : List (Text × Double) :=
  r.names.filterMap fun name => (r.find? name).map fun c => (name, store.read c)

theorem name_of_find? {r : Registry} {name : Text} {cell : Cell} (h : r.find? name = some cell) :
    cell.name = name := by
  have := List.find?_some h
  simpa using this

theorem mem_of_find? {r : Registry} {name : Text} {cell : Cell} (h : r.find? name = some cell) :
    cell ∈ r.cells :=
  List.mem_of_find?_eq_some h

theorem name_ne_of_find?_eq_none {r : Registry} {name : Text} (h : r.find? name = none)
    {cell : Cell} (hc : cell ∈ r.cells) : cell.name ≠ name := by
  have := List.find?_eq_none.mp h cell hc
  simpa using this

def bind (r : Registry) (cell : Cell) (h : r.find? cell.name = none) : Registry :=
  ⟨cell :: r.cells, by
    rw [List.map_cons, List.nodup_cons]
    refine ⟨fun hm => ?_, r.distinct⟩
    obtain ⟨c, hc, he⟩ := List.mem_map.mp hm
    exact name_ne_of_find?_eq_none h hc he⟩

theorem find?_bind (r : Registry) (cell : Cell) (h : r.find? cell.name = none) (name : Text) :
    (r.bind cell h).find? name = if cell.name = name then some cell else r.find? name := by
  unfold find? bind
  by_cases he : cell.name = name
  · simp [he]
  · simp [he]

/-- Sets the value of a name that is bound, and says whether it was. -/
def set (r : Registry) (name : Text) (value : Double) (store : Store) : Bool × Store :=
  match r.find? name with
  | some cell => (true, store.write cell value)
  | none => (false, store)

/-- Gives every cell of the registry the value of its name, and zero where the name
has none.  Other names are ignored. -/
def refresh (r : Registry) (values : Text → Option Double) (store : Store) : Store :=
  r.cells.foldl (fun store cell => store.write cell ((values cell.name).getD 0)) store

end Registry

/-- The registry that names are read against, and the store its cells live in. -/
structure Scope where
  registry : Registry
  store : Store

namespace Scope

def new : Scope := ⟨.empty, .empty⟩

/-- The cell of a name, created with value zero if the name is not bound yet. -/
def intern (scope : Scope) (name : Text) : Cell × Scope :=
  match h : scope.registry.find? name with
  | some cell => (cell, scope)
  | none =>
    let cell : Cell := ⟨name, scope.store.size⟩
    (cell, ⟨scope.registry.bind cell h, scope.store.grow⟩)

theorem intern_of_find? {scope : Scope} {name : Text} {cell : Cell}
    (h : scope.registry.find? name = some cell) : scope.intern name = (cell, scope) := by
  unfold intern
  split
  · next c hc => rw [h] at hc; rw [Option.some.inj hc]
  · next hc => rw [h] at hc; exact nomatch hc

theorem intern_of_find?_eq_none {scope : Scope} {name : Text}
    (h : scope.registry.find? name = none) :
    scope.intern name =
      (⟨name, scope.store.size⟩,
        ⟨scope.registry.bind ⟨name, scope.store.size⟩ h, scope.store.grow⟩) := by
  unfold intern
  split
  · next c hc => rw [h] at hc; exact nomatch hc
  · rfl

/-- Afterwards the name is bound to the cell given. -/
theorem find?_intern (scope : Scope) (name : Text) :
    (scope.intern name).2.registry.find? name = some (scope.intern name).1 := by
  cases h : scope.registry.find? name with
  | some cell => rw [intern_of_find? h]; exact h
  | none =>
    rw [intern_of_find?_eq_none h]
    show (scope.registry.bind ⟨name, scope.store.size⟩ h).find? name = _
    rw [Registry.find?_bind, if_pos rfl]

end Scope
end ScoreFormula
