import ScoreFormula.Proofs.CommandLine.Report

/-!
# Names that can be assigned to

An assignment is split at its first `=`, so the name in front of it has none, while a formula may
well have variables with an `=` in their names.  `assignments_of_name` says that this is all that
stands between the two: a name that a formula binds can be assigned to if and only if it has no
`=`, and a variable that cannot is zero whenever anything is assigned.
-/

namespace ScoreFormula

open Token Text

namespace CommandLine

/-! ## Splitting an assignment -/

theorem readAssignment?_append {name : Text} (hn : '=' ∉ name) (value : Text) :
    readAssignment? (name ++ '=' :: value) =
      (Number.read? value.trim).map fun x => (name.trim, x) := by
  have hname : ∀ c ∈ name, (c != '=') = true := by
    intro c hc
    rw [bne_iff_ne]
    rintro rfl
    exact hn hc
  have hdrop : ('=' :: value).dropWhile (· != '=') = '=' :: value := rfl
  have htake : ('=' :: value).takeWhile (· != '=') = [] := rfl
  rw [readAssignment?, List.dropWhile_append_of_pos hname, hdrop,
    List.takeWhile_append_of_pos hname, htake, List.append_nil]

theorem equals_not_mem_of_readAssignment? {t name : Text} {x : Double}
    (h : readAssignment? t = some (name, x)) : '=' ∉ name := by
  rw [readAssignment?] at h
  cases hd : t.dropWhile (· != '=') with
  | nil =>
    rw [hd] at h
    cases h
  | cons c value =>
    rw [hd] at h
    obtain ⟨y, -, hy⟩ := Option.map_eq_some_iff.mp h
    obtain ⟨rfl, -⟩ := Prod.mk.inj hy
    intro hm
    have hne := List.all_eq_true.mp List.all_takeWhile '=' (mem_of_mem_trim hm)
    exact absurd hne (by decide)

/-- Blanks around the name and around the value are not part of them. -/
theorem readAssignment?_of_padded {name value s r : Text} (hn : '=' ∉ name)
    (ht : name.trim = name) (hs : Padded name s) (hr : Padded value r) {x : Double}
    (hx : Number.read? value.trim = some x) :
    readAssignment? (s ++ '=' :: r) = some (name, x) := by
  have htrim := trim_of_padded hs
  have hvalue := trim_of_padded hr
  have hs' : '=' ∉ s := by
    obtain ⟨_, hu, hv⟩ := hs
    have hblank : ¬isBlank '=' = true := by decide
    intro hm
    rcases List.mem_append.mp hm with hm | hm
    · exact hblank (hu _ hm)
    · rcases List.mem_append.mp hm with hm | hm
      · exact hn hm
      · exact hblank (hv _ hm)
  rw [readAssignment?_append hs', ← hvalue, hx, ← htrim, ht]
  rfl

/-! ## The assignments of a command line -/

theorem eq_ok_of_ite {ε α : Type} {c : Prop} [Decidable c] {cause : ε} {found : Except ε α} {a : α}
    (h : (if c then .error cause else found) = .ok a) : found = .ok a := by
  by_cases hc : c
  · rw [if_pos hc] at h
    cases h
  · rwa [if_neg hc] at h

/-- An item adds no assignment but the one that it is. -/
theorem mem_assignments_of_add {d d' : Draft} {item : Item} (h : d.add item = .ok d')
    {assignment : Text × Double} (hm : assignment ∈ d'.assignments) :
    assignment ∈ d.assignments ∨ ∃ t, readAssignment? t = some assignment := by
  cases item with
  | file =>
    rw [Draft.add] at h
    cases eq_ok_of_ite h
    exact Or.inl hm
  | valued option t =>
    cases option with
    | var =>
      rw [Draft.add] at h
      cases ha : readAssignment? t with
      | none =>
        rw [ha] at h
        cases h
      | some found =>
        rw [ha] at h
        cases h
        rcases List.mem_append.mp hm with hm | hm
        · exact Or.inl hm
        · exact Or.inr ⟨t, List.mem_singleton.mp hm ▸ ha⟩
    | maxDepth =>
      rw [Draft.add] at h
      have hlimit := eq_ok_of_ite h
      cases hl : readLimit? t with
      | none =>
        rw [hl] at hlimit
        cases hlimit
      | some limit =>
        rw [hl] at hlimit
        cases hlimit
        exact Or.inl hm
  | formula t =>
    rw [Draft.add] at h
    cases eq_ok_of_ite h
    exact Or.inl hm

theorem mem_assignments_of_addAll {items : List Item} {d d' : Draft} (h : d.addAll items = .ok d')
    {assignment : Text × Double} (hm : assignment ∈ d'.assignments) :
    assignment ∈ d.assignments ∨ ∃ t, readAssignment? t = some assignment := by
  induction items generalizing d with
  | nil =>
    cases h
    exact Or.inl hm
  | cons item rest ih =>
    rw [Draft.addAll] at h
    cases ha : d.add item with
    | error cause =>
      rw [ha] at h
      cases h
    | ok middle =>
      rw [ha] at h
      rcases ih h with hm | ht
      · exact mem_assignments_of_add ha hm
      · exact Or.inr ht

/-- Every assignment of a command line was read from a text. -/
theorem exists_readAssignment?_of_read {arguments : List Text} {a : Arguments}
    (h : Arguments.read arguments = .ok a) {assignment : Text × Double}
    (hm : assignment ∈ a.assignments) : ∃ t, readAssignment? t = some assignment := by
  rw [Arguments.read] at h
  cases hi : items arguments with
  | error cause =>
    rw [hi] at h
    cases h
  | ok found =>
    rw [hi] at h
    dsimp only at h
    cases hd : Draft.empty.addAll found with
    | error cause =>
      rw [hd] at h
      cases h
    | ok draft =>
      rw [hd] at h
      dsimp only at h
      rw [Draft.finish] at h
      cases hf : draft.formula with
      | none =>
        rw [hf] at h
        cases h
      | some formula =>
        rw [hf] at h
        cases h
        exact (mem_assignments_of_addAll hd hm).resolve_left List.not_mem_nil

theorem assigned_eq_none_of_equals {file : Text → Except Unreadable Text} {arguments : List Text}
    {limit : Nat} {assignments : List (Text × Double)} {source : Text}
    (h : Delivers file arguments limit assignments source) {name : Text} (hn : '=' ∈ name) :
    assigned assignments name = none := by
  obtain ⟨a, hread, -, rfl, -⟩ := h
  refine assigned_eq_none_iff.mpr fun other hm he => ?_
  obtain ⟨t, ht⟩ := exists_readAssignment?_of_read hread hm
  exact equals_not_mem_of_readAssignment? ht (he ▸ hn)

theorem assigned_of_last {name : Text} {x : Double} {later : List (Text × Double)}
    (h : ∀ other ∈ later, other.1 ≠ name) (before : List (Text × Double)) :
    assigned (before ++ (name, x) :: later) name = some x := by
  have hself : assigned [(name, x)] name = some x := List.lookup_cons_self
  rw [assigned_append, assigned_cons, assigned_eq_none_iff.mpr h, hself]
  rfl

/-! ## Values of cells -/

/-- The store once the cells of a scope have been given the values assigned to their names. -/
def refreshed (assignments : List (Text × Double)) (scope : Scope) : Store :=
  scope.registry.refresh (assigned assignments) scope.store

theorem valueOf_eq_evaluate {limit : Nat} {source : Text} {after : Scope} {e : Expr}
    (h : Expr.read limit source Scope.new = (.ok (some e), after))
    (assignments : List (Text × Double)) :
    valueOf assignments e = (e.evaluate (refreshed assignments after) Draws.start).1 := by
  have hfilled := Expr.filled_of_refresh sound_new h (assigned assignments)
  exact congrArg Prod.fst (evaluate_filledByName hfilled Draws.start)

theorem output_of_delivers {file : Text → Except Unreadable Text} {arguments : List Text}
    {limit : Nat} {assignments : List (Text × Double)} {source : Text} {e : Expr} {after : Scope}
    (hd : Delivers file arguments limit assignments source) (hn : assignments ≠ [])
    (h : Expr.read limit source Scope.new = (.ok (some e), after)) :
    (run file arguments).output =
      printed e (some (e.evaluate (refreshed assignments after) Draws.start).1) := by
  rw [run_of_delivers hd, report_of_read h assignments, shown, if_pos (Or.inl hn),
    valueOf_eq_evaluate h]

/-- Of the names that are bound while a text is read, those without an `=` can be assigned to:
the name, an `=` and a value, with any blanks around name and value, is the assignment of that
value to that name, and unless another one comes later, it is what the cell of the name holds
once the registry is refreshed.  A name with an `=` is assigned to by no argument, so its cell
holds zero whenever a command line assigns anything and a formula is evaluated. -/
theorem assignments_of_name {limit : Nat} {t : Text} {scope : Scope} {name : Text}
    (hnew : name ∉ scope.registry.names)
    (hbound : name ∈ (Expr.read limit t scope).2.registry.names) :
    ('=' ∉ name → ∀ value x, Number.read? value.trim = some x →
        (∀ s r, Padded name s → Padded value r →
          readAssignment? (s ++ '=' :: r) = some (name, x)) ∧
        ∀ before later, (∀ other ∈ later, other.1 ≠ name) → ∀ scope : Scope, scope.Sound →
          ∀ cell, scope.registry.find? name = some cell →
            (refreshed (before ++ (name, x) :: later) scope).read cell = x) ∧
      ('=' ∈ name → (∀ argument x, readAssignment? argument ≠ some (name, x)) ∧
        ∀ file arguments limit assignments source,
          Delivers file arguments limit assignments source → assignments ≠ [] →
            ∀ e after, Expr.read limit source Scope.new = (.ok (some e), after) →
              (run file arguments).output =
                  printed e (some (e.evaluate (refreshed assignments after) Draws.start).1) ∧
                ∀ cell, after.registry.find? name = some cell →
                  (refreshed assignments after).read cell = 0) := by
  have hname : IsName name :=
    (Expr.bindsNames_readAt limit 0 t scope name hbound).resolve_left hnew
  constructor
  · intro hn value x hx
    refine ⟨fun s r hs hr => readAssignment?_of_padded hn hname.trim hs hr hx, ?_⟩
    intro before later hlater scope hs cell hc
    rw [refreshed, hs.read_refresh _ hc, assigned_of_last hlater, Option.getD_some]
  · intro hn
    refine ⟨fun argument x h => equals_not_mem_of_readAssignment? h hn, ?_⟩
    intro file arguments limit assignments source hd hne e after hread
    refine ⟨output_of_delivers hd hne hread, fun cell hc => ?_⟩
    have hs := Expr.sound_of_read sound_new limit source
    rw [hread] at hs
    rw [refreshed, hs.read_refresh _ hc, assigned_eq_none_of_equals hd hn, Option.getD_none]

/-- Of the two variables of one formula, one can be assigned to and the other cannot. -/
theorem assignments_of_name_equals :
    ∃ (t : Text) (e : Expr) (after : Scope), t = "+ x a=b".toList ∧
      e = .operation .add [.var ⟨"x".toList, 0⟩, .var ⟨"a=b".toList, 1⟩] ∧
      Expr.read 512 t Scope.new = (.ok (some e), after) ∧
      readAssignment? "\u00a0x =\tinf ".toList = some ("x".toList, .infinity) ∧
      (refreshed [("x".toList, 1), ("x".toList, .infinity)] after).read ⟨"x".toList, 0⟩ =
        .infinity ∧
      (∀ argument x, readAssignment? argument ≠ some ("a=b".toList, x)) ∧
      (refreshed [("x".toList, .infinity)] after).read ⟨"a=b".toList, 1⟩ = 0 ∧
      (run (fun _ => .error .missing) ["--var=x=inf".toList, t]).output =
        printed e
          (some (e.evaluate (refreshed [("x".toList, .infinity)] after) Draws.start).1) := by
  have hf : Forest.ofText? "+ x a=b".toList =
      .ok [.atom "+".toList, .atom "x".toList, .atom "a=b".toList] := rfl
  have hread : Expr.read 512 "+ x a=b".toList Scope.new =
      (.ok (some (.operation .add [.var ⟨"x".toList, 0⟩, .var ⟨"a=b".toList, 1⟩])),
        ((Scope.new.intern "x".toList).2.intern "a=b".toList).2) := by
    rw [Forest.read_of_ok hf]
    rfl
  have hbinds := Expr.binds_of_read hread
  have hx := hbinds.find? ⟨"x".toList, 0⟩ List.mem_cons_self
  have hab := hbinds.find? ⟨"a=b".toList, 1⟩ (List.mem_cons_of_mem _ List.mem_cons_self)
  have hnew : ∀ name, name ∉ Scope.new.registry.names := Registry.not_mem_names_empty
  have hbound : ∀ cell ∈ [(⟨"x".toList, 0⟩ : Cell), ⟨"a=b".toList, 1⟩],
      cell.name ∈ (Expr.read 512 "+ x a=b".toList Scope.new).2.registry.names := by
    intro cell hc
    rw [hread]
    exact Registry.mem_names_iff.mpr (Registry.contains_iff.mpr ⟨cell, hbinds.find? cell hc⟩)
  have hsound := Expr.sound_of_read sound_new 512 "+ x a=b".toList
  rw [hread] at hsound
  have hblank : ∀ c ∈ "\u00a0".toList, isBlank c = true := List.all_eq_true.mp (by decide)
  have hspace : ∀ c ∈ " ".toList, isBlank c = true := List.all_eq_true.mp (by decide)
  have htab : ∀ c ∈ "\t".toList, isBlank c = true := List.all_eq_true.mp (by decide)
  have hname : Padded "x".toList "\u00a0x ".toList := .around _ hblank hspace
  have hvalue : Padded "inf".toList "\tinf ".toList := .around _ htab hspace
  have hd : Delivers (fun _ => .error .missing) ["--var=x=inf".toList, "+ x a=b".toList] 512
      [("x".toList, .infinity)] "+ x a=b".toList := ⟨_, rfl, rfl, rfl, rfl⟩
  obtain ⟨hgiven, -⟩ := assignments_of_name (hnew _) (hbound _ List.mem_cons_self)
  obtain ⟨hassigned, hcell⟩ := hgiven (by decide) "inf".toList .infinity rfl
  obtain ⟨-, hnone⟩ := assignments_of_name (hnew _)
    (hbound _ (List.mem_cons_of_mem _ List.mem_cons_self))
  obtain ⟨hnot, hzero⟩ := hnone (by decide)
  obtain ⟨houtput, hunset⟩ := hzero _ _ _ _ _ hd (List.cons_ne_nil _ _) _ _ hread
  exact ⟨_, _, _, rfl, rfl, hread, hassigned _ _ hname hvalue,
    hcell [("x".toList, 1)] [] (fun _ h => nomatch h) _ hsound _ hx, hnot, hunset _ hab, houtput⟩

end CommandLine
end ScoreFormula
