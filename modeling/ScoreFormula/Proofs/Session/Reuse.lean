import ScoreFormula.Proofs.Forest.Scope
import ScoreFormula.Proofs.Session.Draw
import ScoreFormula.Proofs.Session.Value

/-!
# A registry that is used again

Refreshing a registry sets every cell that it has, so nothing that was in it before can be
seen in the values of the trees read against it.  `scored_of_run` says that a registry left
behind by any run scores a text as a new registry does, whatever values it is refreshed
from, and that the value of a text by itself is the score where no name has a value.
-/

namespace ScoreFormula

open Forest

/-- What scoring a text comes to: its value, nothing, or why it has none, and the draws made. -/
def scored (limit : Nat) (values : Option (Text → Option Double)) (t : Text) (scope : Scope)
    (d : Draws) : Except ReadError (Option Double) × Draws :=
  match score limit values t scope d with
  | (result, _, d) => (result.map (Option.map Prod.snd), d)

/-! ## Values by name -/

theorem Registry.refresh_eq_writeAll (r : Registry) (values : Text → Option Double)
    (store : Store) :
    r.refresh values store =
      store.writeAll (r.cells.map fun cell => (cell, (values cell.name).getD 0)) := by
  rw [Store.writeAll, List.foldl_map]
  rfl

theorem Scope.Sound.read_refresh {scope : Scope} (hs : scope.Sound)
    (values : Text → Option Double) {name : Text} {cell : Cell}
    (h : scope.registry.find? name = some cell) :
    (scope.registry.refresh values scope.store).read cell = (values name).getD 0 := by
  have hbound : ∀ {other}, other ∈ scope.registry.cells →
      scope.registry.find? other.name = some other := Registry.find?_of_mem
  rw [Registry.refresh_eq_writeAll]
  refine Store.read_writeAll ?_ ?_ ?_
  · intro w hw
    obtain ⟨other, ho, rfl⟩ := List.mem_map.mp hw
    exact hs.bound (hbound ho)
  · intro w hw hl
    obtain ⟨other, ho, rfl⟩ := List.mem_map.mp hw
    rw [hs.apart (hbound ho) h hl]
  · right
    refine ⟨_, List.mem_map_of_mem (Registry.mem_of_find? h), rfl⟩

namespace Expr

theorem sound_of_read {scope : Scope} (hs : scope.Sound) (limit : Nat) (t : Text) :
    (read limit t scope).2.Sound := by
  obtain ⟨names, hnames⟩ := exists_internAll_of_read limit t
  rw [hnames]
  exact hs.internAll names

theorem filled_of_refresh {limit : Nat} {t : Text} {scope after : Scope} {e : Expr}
    (hs : scope.Sound) (h : read limit t scope = (.ok (some e), after))
    (values : Text → Option Double) :
    e.filled (after.registry.refresh values after.store) =
      e.filledByName fun name => (values name).getD 0 := by
  have hsound := sound_of_read hs limit t
  rw [h] at hsound
  exact filled_eq fun cell hc => hsound.read_refresh values ((binds_of_read h).find? cell hc)

/-- Read against a new registry, all variables are zero. -/
theorem filled_of_new {limit : Nat} {t : Text} {after : Scope} {e : Expr}
    (h : read limit t Scope.new = (.ok (some e), after)) :
    e.filled after.store = e.filledByName fun _ => 0 := by
  have hext := (binds_of_read h).toExtends
  refine filled_eq fun cell _ => ?_
  rw [hext.read]
  exact Store.read_of_size_le (Nat.zero_le _)

/-- A text is not refused for being empty: where it holds nothing, nothing is read. -/
theorem read_ne_emptyInput (limit : Nat) (t : Text) (scope : Scope) :
    (read limit t scope).1 ≠ .error .emptyInput := by
  intro h
  cases hf : ofText? t with
  | error cause =>
    rw [read_of_error hf] at h
    exact nomatch h
  | ok items =>
    have hc := course_readLevel limit 0 (topLevel items) scope
    rw [read_of_ok hf] at h
    match readLevel limit 0 (topLevel items) scope, h, hc with
    | (.error e, after), h, hc =>
      cases h
      obtain ⟨path, hstop, -⟩ := hc
      cases fault_of_stopOfLevel? hstop

end Expr

/-! ## Scores by name -/

/-- What a reading comes to if the variables have the values of their names. -/
def scoredByName (value : Text → Double) (result : ReadResult) (d : Draws) :
    Except ReadError (Option Double) × Draws :=
  match result with
  | .error cause => (.error cause, d)
  | .ok none => (.ok none, d)
  | .ok (some e) =>
    match (e.filledByName value).evaluate .empty d with
    | (found, d) => (.ok (some found), d)

theorem scoredByName_congr {result result' : ReadResult}
    (h : result.map (Option.map Expr.byName) = result'.map (Option.map Expr.byName))
    (value : Text → Double) (d : Draws) :
    scoredByName value result d = scoredByName value result' d := by
  match result, result', h with
  | .error cause, .error cause', h =>
    have hc : cause = cause' := Except.error.inj h
    rw [hc]
  | .ok none, .ok none, _ => rfl
  | .ok (some e), .ok (some e'), h =>
    have he : e.byName = e'.byName := Option.some.inj (Except.ok.inj h)
    rw [scoredByName, scoredByName, Expr.filledByName_congr he]

theorem evaluate_filledByName {e : Expr} {store : Store} {value : Text → Double}
    (h : e.filled store = e.filledByName value) (d : Draws) :
    (e.filledByName value).evaluate .empty d = e.evaluate store d := by
  rw [← h, Expr.evaluate, Expr.evaluate, Expr.evaluate?_filled]

theorem scored_of_sound {scope : Scope} (hs : scope.Sound) (limit : Nat)
    (values : Text → Option Double) (t : Text) (d : Draws) :
    scored limit (some values) t scope d =
      scoredByName (fun name => (values name).getD 0) (Expr.read limit t scope).1 d := by
  rw [scored, score]
  rcases hr : Expr.read limit t scope with ⟨cause | _ | e, after⟩
  · rfl
  · rfl
  · have hf := Expr.filled_of_refresh hs hr values
    dsimp only
    rw [scoredByName, evaluate_filledByName hf]
    rfl

theorem scored_of_new (limit : Nat) (t : Text) (d : Draws) :
    scored limit none t Scope.new d =
      scoredByName (fun _ => 0) (Expr.read limit t Scope.new).1 d := by
  rw [scored, score]
  rcases hr : Expr.read limit t Scope.new with ⟨cause | _ | e, after⟩
  · rfl
  · rfl
  · have hf := Expr.filled_of_new hr
    dsimp only
    rw [scoredByName, evaluate_filledByName hf]
    rfl

theorem sound_new : Scope.new.Sound where
  bound h := by cases h
  apart h := by cases h

/-- A score names no error but that of the reading. -/
theorem scoredByName_ne_error {result : ReadResult} {cause : ReadError}
    (h : result ≠ .error cause) (value : Text → Double) (d : Draws) :
    (scoredByName value result d).1 ≠ .error cause := by
  match result with
  | .error other => exact fun he => h (congrArg Except.error (Except.error.inj he))
  | .ok none => exact fun he => nomatch he
  | .ok (some e) => exact fun he => nomatch he

/-! ## A text by itself -/

theorem evaluateText_eq (t : Text) (d : Draws) :
    evaluateText t d =
      match scored Expr.defaultLimit (some fun _ => none) t Scope.new d with
      | (.error cause, d) => (.error cause, d)
      | (.ok none, d) => (.error .emptyInput, d)
      | (.ok (some value), d) => (.ok value, d) := by
  have hzero : scored Expr.defaultLimit (some fun _ => none) t Scope.new d =
      scored Expr.defaultLimit none t Scope.new d :=
    (scored_of_sound sound_new _ _ t d).trans (scored_of_new _ t d).symm
  rw [hzero, scored, evaluateText]
  rcases score Expr.defaultLimit none t Scope.new d with ⟨cause | _ | found, after, d'⟩
  · rfl
  · rfl
  · rfl

theorem evaluateText_emptyInput_iff (t : Text) (d : Draws) :
    (evaluateText t d).1 = .error .emptyInput ↔
      (scored Expr.defaultLimit (some fun _ => none) t Scope.new d).1 = .ok none := by
  have hne : (scored Expr.defaultLimit (some fun _ => none) t Scope.new d).1 ≠
      .error .emptyInput := by
    rw [scored_of_sound sound_new]
    exact scoredByName_ne_error (Expr.read_ne_emptyInput _ t _) _ d
  rw [evaluateText_eq]
  rcases hs : scored Expr.defaultLimit (some fun _ => none) t Scope.new d with
    ⟨cause | _ | value, d'⟩
  · rw [hs] at hne
    constructor
    · intro h
      exact absurd (congrArg Except.error (Except.error.inj h)) hne
    · intro h
      cases h
  · exact ⟨fun _ => rfl, fun _ => rfl⟩
  · constructor
    · intro h
      cases h
    · intro h
      cases h

namespace Session

open State

/-- Reading a text, refreshing its registry and evaluating the tree, as three steps of a
session, answer with this outcome. -/
def Scores (s : State) (key t keep : Text) (limit : Nat) (values : List (Text × Double)) :
    Except ReadError (Option Double) × Draws → Prop
  | (.error cause, _) => (s.step (.read key t limit keep)).1 = .unreadable cause
  | (.ok none, _) => (s.step (.read key t limit keep)).1 = .kept none
  | (.ok (some value), d) =>
    ∃ text, (s.run [.read key t limit keep, .refresh key values, .evaluate keep 1]).1 =
        [.kept (some text), .done, .values [value]] ∧
      (s.after [.read key t limit keep, .refresh key values, .evaluate keep 1]).draws = d

theorem scores_scored (s : State) (key t keep : Text) (limit : Nat)
    (values : List (Text × Double)) :
    Scores s key t keep limit values
      (scored limit (some fun name => values.lookup name) t (s.scope key) s.draws) := by
  rw [scored, score]
  rcases hr : Expr.read limit t (s.scope key) with ⟨cause | _ | e, after⟩
  · show (s.step (.read key t limit keep)).1 = .unreadable cause
    rw [State.step, hr]
  · show (s.step (.read key t limit keep)).1 = .kept none
    rw [State.step, hr]
  · -- The three states that follow: the tree kept, its cells refreshed, its draws made.
    have hread : s.step (.read key t limit keep) = (s.withScope key after).keep keep e := by
      rw [State.step, hr]
    have hreg : ((s.withScope key after).keep keep e).2.registry key = after.registry :=
      (registry_withScope s key key after).trans (if_pos rfl)
    have htree : (((s.withScope key after).keep keep e).2.step (.refresh key values)).2.trees.lookup
        keep = some e := (Table.lookup_put keep keep e s.trees).trans (if_pos rfl)
    have hstore : (((s.withScope key after).keep keep e).2.step (.refresh key values)).2.store =
        after.registry.refresh (fun name => values.lookup name) after.store := by
      rw [State.step, hreg]
      rfl
    have hlast := step_evaluate htree 1
    rw [hstore] at hlast
    refine ⟨e.infixText, ?_, ?_⟩
    · rw [run, hread]
      dsimp only [run]
      rw [hlast]
      rfl
    · rw [after_cons, after_cons, after_cons, hread, hlast]
      rfl

/-- A registry in whatever state scores a text as a new registry does, if it is refreshed
from the same values before the tree is evaluated.  A text has the value that it scores where
no name has one, and is refused as empty if it holds nothing. -/
theorem scored_of_run (steps : List Step) (key t : Text) (limit : Nat) :
    (∀ values d, scored limit (some values) t ((start.after steps).scope key) d =
        scored limit (some values) t Scope.new d) ∧
      (∀ keep values, Scores (start.after steps) key t keep limit values
        (scored limit (some fun name => values.lookup name) t Scope.new
          (start.after steps).draws)) ∧
      ∀ d, (evaluateText t d =
          match scored Expr.defaultLimit (some fun _ => none) t Scope.new d with
          | (.error cause, d) => (.error cause, d)
          | (.ok none, d) => (.error .emptyInput, d)
          | (.ok (some value), d) => (.ok value, d)) ∧
        ((evaluateText t d).1 = .error .emptyInput ↔
          (scored Expr.defaultLimit (some fun _ => none) t Scope.new d).1 = .ok none) := by
  have hsame : ∀ values d, scored limit (some values) t ((start.after steps).scope key) d =
      scored limit (some values) t Scope.new d := by
    intro values d
    rw [scored_of_sound ((sound_after steps).scope key), scored_of_sound sound_new]
    exact scoredByName_congr (read_byName limit t _ _) _ d
  refine ⟨hsame, ?_, ?_⟩
  · intro keep values
    rw [← hsame]
    exact scores_scored _ key t keep limit values
  · intro d
    exact ⟨evaluateText_eq t d, evaluateText_emptyInput_iff t d⟩

end Session
end ScoreFormula
