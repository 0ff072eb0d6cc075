import Mathlib.Logic.Relation
import ScoreFormula.CommandLine.Report
import ScoreFormula.Proofs.Diagram
import ScoreFormula.Proofs.Names
import ScoreFormula.Proofs.Session.Reuse

/-!
# What the command reports

A report is settled by the tree that the formula reads as in a new registry, and by the value
that is last assigned to each of its variables (`report_of_read`).  The rest follows: the
order of assignments to different names, assignments that are overridden and assignments to
names that the formula has not are nowhere to be seen, but for the line of the value, which a
formula with variables has only if something is assigned.
-/

namespace ScoreFormula

open Token

namespace CommandLine

/-! ## Assignments -/

/-- A name has the value that the last assignment to it gives, and zero if there is none. -/
inductive LastAssigned (assignments : List (Text × Double)) (name : Text) : Double → Prop
  | given {before after : List (Text × Double)} {value : Double} :
    assignments = before ++ (name, value) :: after → (∀ other ∈ after, other.1 ≠ name) →
      LastAssigned assignments name value
  | zero : (∀ other ∈ assignments, other.1 ≠ name) → LastAssigned assignments name 0

/-- One change of the assignments: two neighbours with different names change places, or one
that is overridden is left out. -/
inductive Rearranged : List (Text × Double) → List (Text × Double) → Prop
  | swap {first second : Text × Double} (before after : List (Text × Double)) :
    first.1 ≠ second.1 →
      Rearranged (before ++ first :: second :: after) (before ++ second :: first :: after)
  | drop {overridden : Text × Double} (before after : List (Text × Double)) :
    (∃ later ∈ after, later.1 = overridden.1) →
      Rearranged (before ++ overridden :: after) (before ++ after)

theorem assigned_append (before after : List (Text × Double)) (name : Text) :
    assigned (before ++ after) name = (assigned after name).or (assigned before name) := by
  rw [assigned, List.reverse_append, List.lookup_append]
  rfl

theorem assigned_eq_none_iff {assignments : List (Text × Double)} {name : Text} :
    assigned assignments name = none ↔ ∀ other ∈ assignments, other.1 ≠ name := by
  rw [assigned, List.lookup_eq_none_iff]
  simp only [List.mem_reverse, bne_iff_ne, ne_comm]

theorem assigned_cons (first : Text × Double) (after : List (Text × Double)) (name : Text) :
    assigned (first :: after) name = (assigned after name).or (assigned [first] name) :=
  assigned_append [first] after name

theorem assigned_singleton_of_ne {first : Text × Double} {name : Text} (h : first.1 ≠ name) :
    assigned [first] name = none := by
  rw [assigned_eq_none_iff]
  intro other hm
  rwa [List.mem_singleton.mp hm]

theorem assigned_cons_of_ne {first : Text × Double} {name : Text} (h : first.1 ≠ name)
    (after : List (Text × Double)) : assigned (first :: after) name = assigned after name := by
  rw [assigned_cons, assigned_singleton_of_ne h, Option.or_none]

theorem assigned_of_rearranged {assignments others : List (Text × Double)}
    (h : Rearranged assignments others) (name : Text) :
    assigned assignments name = assigned others name := by
  cases h with
  | @swap first second before after hne =>
    -- At most one of the two is an assignment to the name.
    have hpair : assigned (first :: second :: after) name =
        assigned (second :: first :: after) name := by
      by_cases hf : first.1 = name
      · have hs : second.1 ≠ name := fun hs => hne (hf.trans hs.symm)
        rw [assigned_cons_of_ne hs, assigned_cons, assigned_cons_of_ne hs, ← assigned_cons]
      · rw [assigned_cons_of_ne hf, assigned_cons second after,
          assigned_cons second (first :: after), assigned_cons_of_ne hf]
    rw [assigned_append, hpair, ← assigned_append]
  | @drop overridden before after hlater =>
    have hrest : assigned (overridden :: after) name = assigned after name := by
      by_cases hn : overridden.1 = name
      · obtain ⟨later, hm, he⟩ := hlater
        have hne : assigned after name ≠ none := fun hnone =>
          assigned_eq_none_iff.mp hnone later hm (he.trans hn)
        obtain ⟨value, hvalue⟩ := Option.ne_none_iff_exists'.mp hne
        rw [assigned_cons, hvalue, Option.some_or]
      · exact assigned_cons_of_ne hn after
    rw [assigned_append, hrest, ← assigned_append]

/-- The value of a name while a formula is evaluated. -/
def worth (assignments : List (Text × Double)) (name : Text) : Double :=
  (assigned assignments name).getD 0

theorem lastAssigned_worth (assignments : List (Text × Double)) (name : Text) :
    LastAssigned assignments name (worth assignments name) := by
  rw [worth]
  cases h : assigned assignments name with
  | none => exact .zero (assigned_eq_none_iff.mp h)
  | some value =>
    obtain ⟨later, earlier, hsplit, hlater⟩ := List.lookup_eq_some_iff.mp h
    have hgiven : assignments = earlier.reverse ++ (name, value) :: later.reverse := by
      rw [List.reverse_eq_iff.mp hsplit, List.reverse_append, List.reverse_cons,
        List.append_assoc]
      rfl
    refine .given hgiven fun other hm => ?_
    exact ne_comm.mp (bne_iff_ne.mp (hlater other (List.mem_reverse.mp hm)))

/-- An assignment to another name does not count. -/
theorem worth_of_ne {name : Text} {other : Text × Double} (h : other.1 ≠ name)
    (before after : List (Text × Double)) :
    worth (before ++ other :: after) name = worth (before ++ after) name := by
  rw [worth, worth, assigned_append, assigned_cons_of_ne h, ← assigned_append]

theorem eq_nil_iff_of_rearranged {assignments others : List (Text × Double)}
    (h : Rearranged assignments others) : assignments = [] ↔ others = [] := by
  cases h with
  | swap => simp
  | drop before after hlater =>
    obtain ⟨later, hm, -⟩ := hlater
    have hne : after ≠ [] := List.ne_nil_of_mem hm
    simp [hne]

/-! ## The report on a tree -/

/-- The text ends in a newline that no other newline stands before. -/
def EndsInNewline (t : Text) : Prop := ∃ body, t = body ++ ['\n'] ∧ body.getLast? ≠ some '\n'

theorem endsInNewline_append (before : Text) {line : Text} (hn : line ≠ []) (hl : '\n' ∉ line) :
    EndsInNewline (before ++ (line ++ ['\n'])) := by
  refine ⟨before ++ line, (List.append_assoc _ _ _).symm, fun h => ?_⟩
  rw [List.getLast?_append, List.getLast?_eq_some_getLast hn, Option.some_or] at h
  exact hl (Option.some.inj h ▸ List.getLast_mem hn)

/-- The line of a value, if there is one to show. -/
def valueLine : Option Double → Text
  | none => []
  | some value => '=' :: Layout.result.write value ++ ['\n']

/-- What is printed of a tree: its infix text, perhaps a value, and its diagram. -/
def printed (e : Expr) (value : Option Double) : Text :=
  '=' :: e.infixText ++ '\n' :: valueLine value ++ "tree\n".toList ++
    (e.diagram ++ if e.isAtom then ['\n'] else [])

theorem endsInNewline_printed {e : Expr} (h : ∀ cell ∈ e.cells, Word cell.name)
    (value : Option Double) : EndsInNewline (printed e value) := by
  obtain ⟨before, line, hn, hl, hdrawn⟩ := Expr.exists_last_line h
  rw [printed, hdrawn, ← List.append_assoc]
  exact endsInNewline_append _ hn hl

/-- The value of a tree whose variables have the values last assigned to their names. -/
def valueOf (assignments : List (Text × Double)) (e : Expr) : Double :=
  ((e.filledByName (worth assignments)).evaluate .empty Draws.start).1

/-- The value that is shown: none if the tree has variables and nothing is assigned. -/
def shown (assignments : List (Text × Double)) (e : Expr) : Option Double :=
  if assignments ≠ [] ∨ e.variables = [] then some (valueOf assignments e) else none

theorem isSome_shown {assignments : List (Text × Double)} {e : Expr} :
    (shown assignments e).isSome ↔ assignments ≠ [] ∨ e.variables = [] := by
  rw [shown, Option.isSome_ite]

end CommandLine

namespace Expr

/-- A new registry has names afterwards if the tree read against it has variables. -/
theorem isEmpty_iff_of_read {limit : Nat} {t : Text} {after : Scope} {e : Expr}
    (h : read limit t Scope.new = (.ok (some e), after)) :
    after.registry.isEmpty = true ↔ e.variables = [] := by
  have hbinds := binds_of_read h
  rw [Registry.isEmpty, List.isEmpty_iff, List.eq_nil_iff_forall_not_mem,
    List.eq_nil_iff_forall_not_mem]
  constructor
  · intro hempty name hm
    obtain ⟨cell, hc, -⟩ := List.mem_map.mp (mem_variables.mp hm)
    exact hempty cell (Registry.mem_of_find? (hbinds.find? cell hc))
  · intro hempty cell hc
    have hn : cell.name ∈ after.registry.names :=
      Registry.mem_names_iff.mpr (Registry.contains_iff.mpr ⟨cell, Registry.find?_of_mem hc⟩)
    rw [hbinds.after_eq, Scope.mem_names_internAll, ← mem_variables] at hn
    rcases hn with hnew | hn
    · cases Registry.mem_names_iff.mp hnew
    · exact hempty cell.name hn

end Expr

namespace CommandLine

variable {limit : Nat} {source : Text}

/-- Scoring a formula for a report gives the value that its variables' names have. -/
theorem score_of_read {after : Scope} {e : Expr}
    (h : Expr.read limit source Scope.new = (.ok (some e), after))
    (assignments : List (Text × Double)) :
    ∃ scope d, score limit (if assignments.isEmpty then none else some (assigned assignments))
        source Scope.new Draws.start = (.ok (some (e, valueOf assignments e)), scope, d) ∧
      scope.registry = after.registry := by
  cases assignments with
  | nil =>
    have hvalue : (e.filledByName (worth [])).evaluate .empty Draws.start =
        e.evaluate after.store Draws.start :=
      evaluate_filledByName (Expr.filled_of_new h) Draws.start
    refine ⟨after, (e.evaluate after.store Draws.start).2, ?_, rfl⟩
    rw [score, h, valueOf, hvalue]
    rfl
  | cons first rest =>
    have hfilled := Expr.filled_of_refresh sound_new h (assigned (first :: rest))
    let store := after.registry.refresh (assigned (first :: rest)) after.store
    have hvalue : (e.filledByName (worth (first :: rest))).evaluate .empty Draws.start =
        e.evaluate store Draws.start := evaluate_filledByName hfilled Draws.start
    refine ⟨⟨after.registry, store⟩, (e.evaluate store Draws.start).2, ?_, rfl⟩
    rw [score, h, valueOf, hvalue]
    rfl

/-- The report on a formula that reads as a tree is settled by the tree and by what is assigned
to its variables. -/
theorem report_of_read {after : Scope} {e : Expr}
    (h : Expr.read limit source Scope.new = (.ok (some e), after))
    (assignments : List (Text × Double)) :
    report limit assignments source = ⟨0, printed e (shown assignments e), []⟩ := by
  obtain ⟨scope, d, hscore, hregistry⟩ := score_of_read h assignments
  have hempty := Expr.isEmpty_iff_of_read h
  rw [report]
  dsimp only
  rw [hscore]
  dsimp only
  rw [hregistry, shown, printed]
  have hshow : (!assignments.isEmpty || after.registry.isEmpty) = true ↔
      assignments ≠ [] ∨ e.variables = [] := by
    rw [Bool.or_eq_true, hempty, Bool.not_eq_true', List.isEmpty_eq_false_iff]
  by_cases h : assignments ≠ [] ∨ e.variables = []
  · rw [if_pos (hshow.mpr h), if_pos h]
    rfl
  · rw [if_neg fun hs => h (hshow.mp hs), if_neg h]
    rfl

theorem report_of_not_read (h : ∀ e, (Expr.read limit source Scope.new).1 ≠ .ok (some e))
    (assignments : List (Text × Double)) :
    ∃ message, report limit assignments source = .failure 1 message := by
  rw [report]
  dsimp only
  rw [score]
  rcases hr : Expr.read limit source Scope.new with ⟨cause | _ | e, after⟩
  · exact ⟨cause.message, rfl⟩
  · exact ⟨ReadError.emptyInput.message, rfl⟩
  · rw [hr] at h
    exact absurd rfl (h e)

/-! ## Reports and what is computed -/

/-- The values last assigned can be given to the variables, and the tree has its value then. -/
theorem exists_store_of_read {after : Scope} {e : Expr}
    (h : Expr.read limit source Scope.new = (.ok (some e), after))
    (assignments : List (Text × Double)) :
    ∃ store, (∀ cell ∈ e.cells, LastAssigned assignments cell.name (store.read cell)) ∧
      valueOf assignments e = (e.evaluate store Draws.start).1 := by
  have hs := Expr.sound_of_read sound_new limit source
  rw [h] at hs
  obtain ⟨store, hread⟩ : ∃ store : Store, ∀ cell ∈ e.cells,
      store.read cell = worth assignments cell.name :=
    ⟨_, fun cell hc => hs.read_refresh (assigned assignments)
      ((Expr.binds_of_read h).find? cell hc)⟩
  refine ⟨store, fun cell hc => ?_, ?_⟩
  · rw [hread cell hc]
    exact lastAssigned_worth assignments cell.name
  · rw [valueOf, evaluate_filledByName (Expr.filled_eq hread)]

theorem valueOf_congr {assignments others : List (Text × Double)} {e : Expr}
    (h : ∀ name ∈ e.variables, worth assignments name = worth others name) :
    valueOf assignments e = valueOf others e := by
  have hfilled : e.filledByName (worth assignments) = e.filledByName (worth others) :=
    Expr.subst_congr e fun cell hc =>
      congrArg Expr.constant (h cell.name (Expr.mem_variables.mpr (List.mem_map_of_mem hc)))
  rw [valueOf, valueOf, hfilled]

/-- Without an assignment to a name that the tree has not, the value is the same or not shown. -/
theorem shown_of_not_mem {other : Text × Double} {e : Expr} (h : other.1 ∉ e.variables)
    (before after : List (Text × Double)) :
    shown (before ++ after) e = shown (before ++ other :: after) e ∨
      shown (before ++ after) e = none := by
  have hgiven : before ++ other :: after ≠ [] :=
    List.append_ne_nil_of_right_ne_nil before (List.cons_ne_nil other after)
  rw [shown, shown, if_pos (Or.inl hgiven)]
  by_cases hshow : before ++ after ≠ [] ∨ e.variables = []
  · left
    rw [if_pos hshow]
    refine congrArg some (valueOf_congr fun name hm => ?_)
    exact (worth_of_ne (fun he => h (he ▸ hm)) before after).symm
  · exact Or.inr (if_neg hshow)

theorem report_of_rearranged {assignments others : List (Text × Double)}
    (h : Rearranged assignments others) :
    report limit assignments source = report limit others source := by
  have hassigned : assigned assignments = assigned others := funext (assigned_of_rearranged h)
  have hempty : assignments.isEmpty = others.isEmpty := by
    rw [Bool.eq_iff_iff, List.isEmpty_iff, List.isEmpty_iff]
    exact eq_nil_iff_of_rearranged h
  rw [report, report, hassigned, hempty]

/-- The arguments, with the file if there is one, deliver a limit, the assignments in order and
the text of a formula. -/
def Delivers (file : Text → Except Unreadable Text) (arguments : List Text) (limit : Nat)
    (assignments : List (Text × Double)) (source : Text) : Prop :=
  ∃ a, Arguments.read arguments = .ok a ∧ a.limit = limit ∧ a.assignments = assignments ∧
    if a.fromFile then file a.formula = .ok source else a.formula = source

theorem run_of_delivers {file : Text → Except Unreadable Text} {arguments : List Text}
    {assignments : List (Text × Double)} (h : Delivers file arguments limit assignments source) :
    run file arguments = report limit assignments source := by
  obtain ⟨a, hread, rfl, rfl, hsource⟩ := h
  rw [run, hread]
  dsimp only
  by_cases hf : a.fromFile = true
  · rw [if_pos hf] at hsource ⊢
    rw [hsource]
  · rw [if_neg hf] at hsource ⊢
    rw [hsource]

theorem code_report_eq_zero_iff {assignments : List (Text × Double)} :
    (report limit assignments source).code = 0 ↔
      ∃ e, (Expr.read limit source Scope.new).1 = .ok (some e) := by
  constructor
  · intro hcode
    by_contra hnone
    obtain ⟨message, hreport⟩ := report_of_not_read (fun e he => hnone ⟨e, he⟩) assignments
    rw [hreport] at hcode
    cases hcode
  · rintro ⟨e, he⟩
    rw [report_of_read (Prod.ext he rfl) assignments]

theorem report_of_eqvGen {assignments others : List (Text × Double)}
    (h : Relation.EqvGen Rearranged assignments others) :
    report limit assignments source = report limit others source := by
  induction h with
  | rel _ _ h => exact report_of_rearranged h
  | refl _ => rfl
  | symm _ _ _ ih => exact ih.symm
  | trans _ _ _ _ _ ih ih' => exact ih.trans ih'

/-- The value that is shown is computed from the values last assigned. -/
theorem exists_store_of_shown {after : Scope} {e : Expr}
    (h : Expr.read limit source Scope.new = (.ok (some e), after))
    {assignments : List (Text × Double)} {x : Double} (hx : shown assignments e = some x) :
    ∃ store, (∀ cell ∈ e.cells, LastAssigned assignments cell.name (store.read cell)) ∧
      x = (e.evaluate store Draws.start).1 := by
  obtain ⟨store, hstore, hvalue⟩ := exists_store_of_read h assignments
  refine ⟨store, hstore, ?_⟩
  rw [shown, Option.ite_none_right_eq_some] at hx
  rw [← hvalue, Option.some.inj hx.2]

/-- The command reports what is computed.  It ends with code zero if the formula reads as a
tree in a new registry, and then prints the tree's infix text, its value and its diagram, and
else it ends with code one and prints nothing.  The value is there if something is assigned or
the tree has no variables, and is that of the tree with every variable set to the value last
assigned to its name, or to zero.  An assignment to any other name is to be seen in nothing but
whether the value is there, and rearranging the assignments is not to be seen at all. -/
theorem report_of_formula (limit : Nat) (assignments : List (Text × Double)) (source : Text) :
    (∀ file arguments, Delivers file arguments limit assignments source →
        run file arguments = report limit assignments source) ∧
      ((report limit assignments source).code = 0 ↔
        ∃ e, (Expr.read limit source Scope.new).1 = .ok (some e)) ∧
      ((∀ e, (Expr.read limit source Scope.new).1 ≠ .ok (some e)) →
        (report limit assignments source).code = 1 ∧
          (report limit assignments source).output = []) ∧
      (∀ e, (Expr.read limit source Scope.new).1 = .ok (some e) →
        ∃ value, (report limit assignments source).output = printed e value ∧
          EndsInNewline (printed e value) ∧
          (value.isSome ↔ assignments ≠ [] ∨ e.variables = []) ∧
          (∀ x, value = some x → ∃ store,
            (∀ cell ∈ e.cells, LastAssigned assignments cell.name (store.read cell)) ∧
              x = (e.evaluate store Draws.start).1) ∧
          ∀ before other after, assignments = before ++ other :: after → other.1 ∉ e.variables →
            (report limit (before ++ after) source).output = printed e value ∨
              (report limit (before ++ after) source).output = printed e none) ∧
      ∀ others, Relation.EqvGen Rearranged assignments others →
        report limit assignments source = report limit others source := by
  refine ⟨fun file arguments => run_of_delivers, code_report_eq_zero_iff, ?_, ?_,
    fun others => report_of_eqvGen⟩
  · intro hnone
    obtain ⟨message, hreport⟩ := report_of_not_read hnone assignments
    rw [hreport]
    exact ⟨rfl, rfl⟩
  · intro e he
    have hread : Expr.read limit source Scope.new =
        (.ok (some e), (Expr.read limit source Scope.new).2) := Prod.ext he rfl
    have hword : ∀ cell ∈ e.cells, Word cell.name := fun cell hc => (Expr.isName_of_read he hc).word
    refine ⟨shown assignments e, ?_, endsInNewline_printed hword _, isSome_shown,
      fun x => exists_store_of_shown hread, ?_⟩
    · rw [report_of_read hread assignments]
    · rintro before other after rfl hother
      rw [report_of_read hread (before ++ after)]
      exact (shown_of_not_mem hother before after).imp (congrArg (printed e)) (congrArg (printed e))

/-- A variable is shown with a value only if something is assigned, and only the last
assignment to it counts. -/
theorem report_of_formula_overridden :
    run (fun _ => .error .missing) ["x".toList] = report 512 [] "x".toList ∧
      (report 512 [] "x".toList).code = 0 ∧
      (report 512 [] "x".toList).output = "=x\ntree\nx\n".toList ∧
      report 512 [("x".toList, 1), ("y".toList, 2), ("x".toList, 3)] "x".toList =
        report 512 [("x".toList, 3), ("y".toList, 2)] "x".toList := by
  have hf : Forest.ofText? "x".toList = .ok [.atom "x".toList] := rfl
  have hread : (Expr.read 512 "x".toList Scope.new).1 = .ok (some (.var ⟨"x".toList, 0⟩)) := by
    rw [Forest.read_of_ok hf]
    rfl
  have hdrop : Rearranged [("x".toList, 1), ("y".toList, 2), ("x".toList, 3)]
      [("y".toList, 2), ("x".toList, 3)] := .drop [] _ ⟨("x".toList, 3), by simp, rfl⟩
  have hswap : Rearranged [("y".toList, 2), ("x".toList, 3)] [("x".toList, 3), ("y".toList, 2)] :=
    .swap [] [] (by decide)
  obtain ⟨hrun, hcode, -, hread', -⟩ := report_of_formula 512 [] "x".toList
  obtain ⟨-, -, -, -, hsame⟩ :=
    report_of_formula 512 [("x".toList, 1), ("y".toList, 2), ("x".toList, 3)] "x".toList
  obtain ⟨value, houtput, -, hvalue, -⟩ := hread' _ hread
  refine ⟨hrun _ _ ⟨_, rfl, rfl, rfl, rfl⟩, hcode.mpr ⟨_, hread⟩, ?_,
    hsame _ (.trans _ _ _ (.rel _ _ hdrop) (.rel _ _ hswap))⟩
  cases value with
  | none => exact houtput
  | some x => exact absurd (hvalue.mp rfl) (by decide)

end CommandLine
end ScoreFormula
