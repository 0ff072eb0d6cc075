import ScoreFormula.Proofs.Session.Reuse

/-!
# Reading again, and in either order

Which names a text binds is settled by the text, and a name that is bound already is found
and not bound anew.  So reading a text a second time changes nothing and gives the same tree,
and two texts can be read in either order (`read_in_either_order`): the registry has the same
names with the same values, and the variables of the two trees are shared in the same way.
Only the locations of new cells tell the orders apart.
-/

namespace ScoreFormula

open Forest

namespace Registry

theorem pairwise_names (r : Registry) : r.names.Pairwise fun a b => ¬b < a := by
  have hsorted : r.names.Pairwise fun a b => (!decide (b < a)) = true := by
    refine List.pairwise_mergeSort ?_ ?_ _
    · intro a b c hab hbc
      simp only [Bool.not_eq_true', decide_eq_false_iff_not] at hab hbc ⊢
      exact List.not_lt.mpr (List.le_trans (List.not_lt.mp hab) (List.not_lt.mp hbc))
    · intro a b
      simp only [Bool.or_eq_true, Bool.not_eq_true', decide_eq_false_iff_not]
      exact (List.le_total a b).imp List.not_lt.mpr List.not_lt.mpr
  exact hsorted.imp fun h => by simpa only [Bool.not_eq_true', decide_eq_false_iff_not] using h

theorem nodup_names (r : Registry) : r.names.Nodup :=
  (List.mergeSort_perm _ _).nodup_iff.mpr r.distinct

/-- Registries with the same names list them alike. -/
theorem names_congr {r r' : Registry} (h : ∀ name, name ∈ r.names ↔ name ∈ r'.names) :
    r.names = r'.names := by
  have hanti : ∀ a b : Text, ¬b < a → ¬a < b → a = b := fun a b hab hba =>
    List.le_antisymm (List.not_lt.mp hab) (List.not_lt.mp hba)
  refine List.Perm.eq_of_pairwise (fun a b _ _ => hanti a b) r.pairwise_names r'.pairwise_names ?_
  exact (List.perm_ext_iff_of_nodup r.nodup_names r'.nodup_names).mpr h

theorem values_congr {r r' : Registry} {store store' : Store} (hn : r.names = r'.names)
    (hv : ∀ name cell cell', r.find? name = some cell → r'.find? name = some cell' →
      store.read cell = store'.read cell') : r.values store = r'.values store' := by
  rw [values, values, hn]
  refine List.filterMap_congr fun name hm => ?_
  obtain ⟨cell', hc'⟩ := contains_iff.mp (mem_names_iff.mp hm)
  obtain ⟨cell, hc⟩ := contains_iff.mp (mem_names_iff.mp (hn ▸ hm))
  rw [hc, hc', Option.map_some, Option.map_some, hv name cell cell' hc hc']

end Registry

namespace Scope

theorem internAll_of_contains {s : Scope} {names : List Text}
    (h : ∀ name ∈ names, s.registry.contains name = true) : s.internAll names = s := by
  induction names with
  | nil => rfl
  | cons name rest ih =>
    obtain ⟨cell, hc⟩ := Registry.contains_iff.mp (h name List.mem_cons_self)
    rw [internAll_cons, intern_of_find? hc]
    exact ih fun other hm => h other (List.mem_cons_of_mem _ hm)

/-- What a name is worth in a larger scope is settled by the smaller one. -/
theorem Extends.read_eq {scope after after' : Scope} (h : Extends scope after)
    (h' : Extends scope after') {name : Text} {cell cell' : Cell}
    (hc : after.registry.find? name = some cell) (hc' : after'.registry.find? name = some cell') :
    after.store.read cell = after'.store.read cell' := by
  rw [h.read, h'.read]
  cases hb : scope.registry.find? name with
  | some old =>
    obtain rfl := Option.some.inj ((h.find? hb).symm.trans hc)
    obtain rfl := Option.some.inj ((h'.find? hb).symm.trans hc')
    rfl
  | none =>
    rw [Store.read_of_size_le (h.fresh hb hc).1, Store.read_of_size_le (h'.fresh hb hc').1]

end Scope

/-- What has one name is one cell. -/
def SharedByName (cells : List Cell) : Prop :=
  ∀ c ∈ cells, ∀ c' ∈ cells, c.name = c'.name → c = c'

/-- What has two names is at two locations. -/
def ApartByName (cells : List Cell) : Prop :=
  ∀ c ∈ cells, ∀ c' ∈ cells, c.location = c'.location → c.name = c'.name

theorem Registry.sharedByName {r : Registry} {cells : List Cell}
    (h : ∀ cell ∈ cells, r.find? cell.name = some cell) : SharedByName cells := by
  intro c hc c' hc' hn
  have hf := h c hc
  rw [hn, h c' hc'] at hf
  exact (Option.some.inj hf).symm

theorem Scope.Sound.apartByName {scope : Scope} (hs : scope.Sound) {cells : List Cell}
    (h : ∀ cell ∈ cells, scope.registry.find? cell.name = some cell) : ApartByName cells :=
  fun c hc c' hc' hl => hs.apart (h c hc) (h c' hc') hl

namespace Expr

/-! ## Trees in another registry -/

/-- The cell that a registry has for the name of a given one. -/
def counterpart (r : Registry) (cell : Cell) : Cell := (r.find? cell.name).getD ⟨cell.name, 0⟩

theorem name_counterpart (r : Registry) (cell : Cell) : (counterpart r cell).name = cell.name := by
  rw [counterpart]
  cases h : r.find? cell.name with
  | none => rfl
  | some found => exact Registry.name_of_find? h

theorem counterpart_of_find? {r : Registry} {cell : Cell} (h : r.find? cell.name = some cell) :
    counterpart r cell = cell := by
  rw [counterpart, h, Option.getD_some]

/-- The tree with other cells at its variables. -/
def rebind (f : Cell → Cell) (e : Expr) : Expr := e.subst fun cell => var (f cell)

/-- A tree whose variables a registry binds can be told from its names. -/
theorem rebind_byName {r : Registry} {e e' : Expr} (h : e.byName = e'.byName)
    (hb : ∀ cell ∈ e.cells, r.find? cell.name = some cell) : e'.rebind (counterpart r) = e := by
  have hname : ∀ e : Expr, e.byName.rebind (counterpart r) = e.rebind (counterpart r) :=
    fun e => subst_subst _ _ e
  have hself : e.rebind (counterpart r) = e.subst var :=
    subst_congr e fun cell hc => congrArg var (counterpart_of_find? (hb cell hc))
  rw [← hname e', ← h, hname e, hself, subst_var]

/-- The cells at the variables of what was read. -/
def leaves : ReadResult → List Cell
  | .ok (some e) => e.cells
  | _ => []

section

variable (limit : Nat) (t : Text) (scope : Scope)

theorem extends_of_read : Scope.Extends scope (read limit t scope).2 := by
  obtain ⟨bound, hbound⟩ := exists_internAll_of_read limit t
  rw [hbound scope]
  exact scope.extends_internAll bound

theorem find?_of_mem_leaves {cell : Cell} (h : cell ∈ leaves (read limit t scope).1) :
    (read limit t scope).2.registry.find? cell.name = some cell := by
  rcases hr : read limit t scope with ⟨cause | _ | e, after⟩
  · rw [hr] at h
    exact nomatch h
  · rw [hr] at h
    exact nomatch h
  · rw [hr] at h
    exact (binds_of_read hr).find? cell h

variable {scope}

/-- What is read in one scope is what is read in another, with the cells of a registry that
has all that the first reading bound. -/
theorem read_rebind (other : Scope) {r : Registry}
    (h : ∀ name cell, (read limit t scope).2.registry.find? name = some cell →
      r.find? name = some cell) :
    (read limit t scope).1 =
      (read limit t other).1.map (Option.map (rebind (counterpart r))) := by
  have hname := read_byName limit t scope other
  have hbound : ∀ cell ∈ leaves (read limit t scope).1, r.find? cell.name = some cell :=
    fun cell hc => h cell.name cell (find?_of_mem_leaves limit t scope hc)
  match (read limit t scope).1, (read limit t other).1, hname, hbound with
  | .error cause, .error cause', hname, _ => exact congrArg Except.error (Except.error.inj hname)
  | .ok none, .ok none, _, _ => rfl
  | .ok (some e), .ok (some e'), hname, hbound =>
    have he := rebind_byName (Option.some.inj (Except.ok.inj hname)) hbound
    show Except.ok (some e) = Except.ok (some (e'.rebind (counterpart r)))
    rw [he]

/-! ## Reading again -/

/-- Where all that a text binds is bound already, reading the text finds it there. -/
theorem read_of_bound {later : Scope}
    (h : ∀ name cell, (read limit t scope).2.registry.find? name = some cell →
      later.registry.find? name = some cell) :
    read limit t later = ((read limit t scope).1, later) := by
  obtain ⟨bound, hbound⟩ := exists_internAll_of_read limit t
  have hlater : (read limit t later).2 = later := by
    rw [hbound later]
    refine Scope.internAll_of_contains fun name hm => ?_
    have hn : name ∈ (read limit t scope).2.registry.names := by
      rw [hbound scope]
      exact Scope.mem_names_internAll.mpr (Or.inr hm)
    obtain ⟨cell, hc⟩ := Registry.contains_iff.mp (Registry.mem_names_iff.mp hn)
    exact Registry.contains_iff.mpr ⟨cell, h name cell hc⟩
  refine Prod.ext ?_ hlater
  have hfind : (read limit t later).1 =
      (read limit t scope).1.map (Option.map (rebind (counterpart later.registry))) := by
    refine read_rebind limit t scope fun name cell hc => ?_
    rwa [hlater] at hc
  exact hfind.trans (read_rebind limit t scope h).symm

end

/-! ## Two texts -/

section

variable (limit limit' : Nat) (s t : Text) (scope : Scope)

/-- What is read from two texts one after the other, and the scope that they leave. -/
def readBoth : ReadResult × ReadResult × Scope :=
  ((read limit s scope).1, read limit' t (read limit s scope).2)

theorem extends_readBoth : scope.Extends (readBoth limit limit' s t scope).2.2 :=
  (extends_of_read limit s scope).trans (extends_of_read limit' t _)

theorem mem_names_readBoth {name : Text} :
    name ∈ (readBoth limit limit' s t scope).2.2.registry.names ↔
      name ∈ (readBoth limit' limit t s scope).2.2.registry.names := by
  obtain ⟨bound, hbound⟩ := exists_internAll_of_read limit s
  obtain ⟨bound', hbound'⟩ := exists_internAll_of_read limit' t
  simp only [readBoth, hbound, hbound', Scope.mem_names_internAll]
  exact or_right_comm

theorem find?_of_mem_leaves_readBoth (cell : Cell)
    (h : cell ∈ leaves (readBoth limit limit' s t scope).1 ++
      leaves (readBoth limit limit' s t scope).2.1) :
    (readBoth limit limit' s t scope).2.2.registry.find? cell.name = some cell := by
  rcases List.mem_append.mp h with h | h
  · exact (extends_of_read limit' t _).find? (find?_of_mem_leaves limit s scope h)
  · exact find?_of_mem_leaves limit' t _ h

theorem sound_readBoth {scope : Scope} (hs : scope.Sound) :
    (readBoth limit limit' s t scope).2.2.Sound :=
  sound_of_read (sound_of_read hs limit s) limit' t

end

/-- What a text comes to, up to the cells at its leaves, does not depend on what the registry
holds, and reading it again changes nothing.  Two texts, each with its limit, can be read in
either order, also if reading stops in one of them: the names and their values are the same,
and so is what is read, with the cells of the one order in place of those of the other.  In
both orders leaves of one name are one cell, and leaves of two names are apart if the cells of
the registry are. -/
theorem read_in_either_order (limit limit' : Nat) (s t : Text) (scope : Scope) :
    (∀ other, (read limit s other).1.map (Option.map byName) =
        (read limit s scope).1.map (Option.map byName)) ∧
      read limit s (read limit s scope).2 = read limit s scope ∧
      match readBoth limit limit' s t scope, readBoth limit' limit t s scope with
      | (first, second, after), (second', first', after') =>
        after.registry.names = after'.registry.names ∧
          after.registry.values after.store = after'.registry.values after'.store ∧
          (∃ f : Cell → Cell, (∀ cell, (f cell).name = cell.name) ∧
            (∀ name cell, scope.registry.find? name = some cell → f cell = cell) ∧
            first' = first.map (Option.map (rebind f)) ∧
            second' = second.map (Option.map (rebind f))) ∧
          SharedByName (leaves first ++ leaves second) ∧
          SharedByName (leaves second' ++ leaves first') ∧
          (scope.Sound → ApartByName (leaves first ++ leaves second) ∧
            ApartByName (leaves second' ++ leaves first')) := by
  refine ⟨fun other => read_byName limit s other scope, ?_, ?_⟩
  · exact read_of_bound limit s fun _ _ hc => hc
  · have hext := extends_readBoth limit limit' s t scope
    have hext' := extends_readBoth limit' limit t s scope
    have hnames : (readBoth limit limit' s t scope).2.2.registry.names =
        (readBoth limit' limit t s scope).2.2.registry.names :=
      Registry.names_congr fun name => mem_names_readBoth limit limit' s t scope
    have hbound := find?_of_mem_leaves_readBoth limit limit' s t scope
    have hbound' := find?_of_mem_leaves_readBoth limit' limit t s scope
    refine ⟨hnames, ?_,
      ⟨counterpart (readBoth limit' limit t s scope).2.2.registry, ?_, ?_, ?_, ?_⟩,
      Registry.sharedByName hbound, Registry.sharedByName hbound', fun hs => ⟨?_, ?_⟩⟩
    · exact Registry.values_congr hnames fun name cell cell' => hext.read_eq hext'
    · exact name_counterpart _
    · intro name cell hc
      obtain rfl := Registry.name_of_find? hc
      exact counterpart_of_find? (hext'.find? hc)
    · exact read_rebind limit s scope fun _ _ hc => hc
    · exact read_rebind limit' t _ fun _ _ hc => (extends_of_read limit s _).find? hc
    · exact (sound_readBoth limit limit' s t hs).apartByName hbound
    · exact (sound_readBoth limit' limit t s hs).apartByName hbound'

/-- One text stops at an operand, behind a variable that the other one has too. -/
theorem read_in_either_order_stopped :
    ∃ one two, one = readBoth 1 1 "* c (+ a b)".toList "- b (+ a)".toList
        (Scope.new.intern "a".toList).2 ∧
      two = readBoth 1 1 "- b (+ a)".toList "* c (+ a b)".toList
        (Scope.new.intern "a".toList).2 ∧
      (Scope.new.intern "a".toList).2.Sound ∧
      one.1 = .ok (some (.operation .multiply [.var ⟨"c".toList, 1⟩,
        .operation .add [.var ⟨"a".toList, 0⟩, .var ⟨"b".toList, 2⟩]])) ∧
      two.2.1 = .ok (some (.operation .multiply [.var ⟨"c".toList, 2⟩,
        .operation .add [.var ⟨"a".toList, 0⟩, .var ⟨"b".toList, 1⟩]])) ∧
      two.1 = .error (.arityMismatch .add 1) ∧
      one.2.2.registry.names = two.2.2.registry.names ∧
      one.2.2.registry.values one.2.2.store = two.2.2.registry.values two.2.2.store ∧
      ApartByName (leaves one.1 ++ leaves one.2.1) := by
  have hs : (Scope.new.intern "a".toList).2.Sound := sound_new.intern _
  have hf : ofText? "* c (+ a b)".toList = .ok [.atom "*".toList, .atom "c".toList,
      .group "(+ a b)".toList [.atom "+".toList, .atom "a".toList, .atom "b".toList]] := rfl
  have hf' : ofText? "- b (+ a)".toList = .ok [.atom "-".toList, .atom "b".toList,
      .group "(+ a)".toList [.atom "+".toList, .atom "a".toList]] := rfl
  obtain ⟨-, -, hnames, hvalues, -, -, -, hapart⟩ := read_in_either_order 1 1
    "* c (+ a b)".toList "- b (+ a)".toList (Scope.new.intern "a".toList).2
  refine ⟨_, _, rfl, rfl, hs, ?_, ?_, ?_, hnames, hvalues, (hapart hs).1⟩
  · rw [readBoth, read_of_ok hf]
    rfl
  · rw [readBoth, read_of_ok hf']
    dsimp only
    rw [read_of_ok hf]
    rfl
  · rw [readBoth, read_of_ok hf']
    rfl

end Expr

end ScoreFormula
