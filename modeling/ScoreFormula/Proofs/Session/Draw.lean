import ScoreFormula.Proofs.Draw
import ScoreFormula.Proofs.WellFormed

/-!
# Draws over a run

The trees of a session draw from two counts that all of them share.  `draws_of_run` says
that at every moment of a run the counts are the numbers of random nodes evaluated so far,
and that an evaluation then deals its draws from there on, in the order of the places of the
nodes.  What the cells hold does not enter into it.
-/

namespace ScoreFormula
namespace Session

namespace State

/-- How many nodes of an operator a step evaluates. -/
def drawn (s : State) (operator : Operator) : Step → Nat
  | .evaluate tree times =>
    match s.trees.lookup tree with
    | none => 0
    | some e => times * (e.places operator).length
  | .evaluateText source =>
    match (Expr.read Expr.defaultLimit source Scope.new).1 with
    | .ok (some e) => (e.places operator).length
    | _ => 0
  | _ => 0

/-- How many nodes of an operator a run evaluates. -/
def drawnAll (s : State) (operator : Operator) : List Step → Nat
  | [] => 0
  | step :: rest => s.drawn operator step + (s.step step).2.drawnAll operator rest

theorem step_evaluate {s : State} {tree : Text} {e : Expr} (h : s.trees.lookup tree = some e)
    (times : Nat) :
    s.step (.evaluate tree times) =
      (.values (evaluations s.store e times s.draws).1,
        { s with draws := (evaluations s.store e times s.draws).2 }) := by
  rw [State.step, h]

/-- Evaluating a tree again deals it the draws that follow. -/
theorem evaluations_eq {e : Expr} (h : e.WellFormed) (store : Store) (times : Nat) (d : Draws) :
    (evaluations store e times d).1.map some =
        (List.range times).map (fun n => e.valueGiven? store (e.dealt
          (d.advance (n * (e.places .rand).length) (n * (e.places .randIn).length)))) ∧
      (evaluations store e times d).2 =
        d.advance (times * (e.places .rand).length) (times * (e.places .randIn).length) := by
  induction times generalizing d with
  | zero => simp [evaluations, Draws.advance_zero]
  | succ times ih =>
    obtain ⟨hvalue, hdraws⟩ := Expr.evaluate_of_wellFormed h store d
    obtain ⟨hvalues, hrest⟩ := ih (e.evaluate store d).2
    have hsucc : ∀ n p, p + n * p = (n + 1) * p := by
      intro n p
      rw [Nat.succ_mul, Nat.add_comm]
    rw [hdraws] at hvalues hrest
    simp only [Draws.advance_advance, hsucc] at hvalues hrest
    rw [evaluations]
    simp only [hdraws]
    refine ⟨?_, hrest⟩
    rw [List.map_cons, hvalues, List.range_succ_eq_map, List.map_cons, List.map_map,
      Nat.zero_mul, Nat.zero_mul, Draws.advance_zero, hvalue]
    rfl

/-- However often a tree is evaluated, draws of other operators do not change its values. -/
theorem evaluations_of_sameDraws {e : Expr} (h : e.WellFormed) {d d' : Draws}
    (hd : e.SameDraws d d') (store : Store) (times : Nat) :
    (evaluations store e times d).1 = (evaluations store e times d').1 := by
  induction times generalizing d d' with
  | zero => rfl
  | succ times ih =>
    have hvalue := Expr.evaluate_of_sameDraws hd store
    have hrest := ih (hd.advance (e.places .rand).length (e.places .randIn).length)
    rw [← (Expr.evaluate_of_wellFormed h store d).2,
      ← (Expr.evaluate_of_wellFormed h store d').2] at hrest
    rw [evaluations, evaluations]
    dsimp only
    rw [hvalue, hrest]

theorem evaluateText_of_read {source : Text} {e : Expr} {scope : Scope}
    (h : Expr.read Expr.defaultLimit source Scope.new = (.ok (some e), scope)) (d : Draws) :
    evaluateText source d =
      (.ok (e.evaluate scope.store d).1, (e.evaluate scope.store d).2) := by
  rw [evaluateText, score, h]

/-- An evaluation makes one draw for each random node, and no other step makes any. -/
theorem draws_step {s : State} (hs : WellFormed s) (step : Step) :
    (s.step step).2.draws = s.draws.advance (s.drawn .rand step) (s.drawn .randIn step) := by
  cases step with
  | evaluate tree times =>
    rw [State.step, drawn, drawn]
    cases hl : s.trees.lookup tree with
    | none => rfl
    | some e => exact (evaluations_eq (hs tree e hl) s.store times s.draws).2
  | evaluateText source =>
    rw [State.step, drawn, drawn]
    rcases hr : Expr.read Expr.defaultLimit source Scope.new with ⟨cause | _ | e, scope⟩
    · simp only [ScoreFormula.evaluateText, score, hr, Draws.advance_zero]
    · simp only [ScoreFormula.evaluateText, score, hr, Draws.advance_zero]
    · rw [evaluateText_of_read hr]
      have he : e.WellFormed := Expr.wellFormed_of_read (congrArg Prod.fst hr)
      exact (Expr.evaluate_of_wellFormed he scope.store s.draws).2
  | _ =>
    -- Every other step leaves the counts alone.
    show (State.step s _).2.draws = s.draws
    rw [State.step]
    repeat' split
    all_goals rfl

theorem draws_after {s : State} (hs : WellFormed s) (steps : List Step) :
    (s.after steps).draws =
      s.draws.advance (s.drawnAll .rand steps) (s.drawnAll .randIn steps) := by
  induction steps generalizing s with
  | nil => rfl
  | cons step rest ih =>
    rw [after_cons, ih (wellFormed_step hs step), draws_step hs step, Draws.advance_advance,
      drawnAll, drawnAll]

end State

open State

/-- After every run the counts are the numbers of random nodes evaluated in it.  An evaluation
of a tree deals its draws from there on, over again if it is repeated, and so does scoring a
text.  A step moves the counts by the nodes that it evaluates.  Draws are dealt in the order
of the places. -/
theorem draws_of_run (steps : List Step) :
    (start.after steps).draws = ⟨start.drawnAll .rand steps, start.drawnAll .randIn steps⟩ ∧
      (∀ tree e times, (start.after steps).trees.lookup tree = some e →
        ∃ values, ((start.after steps).step (.evaluate tree times)).1 = .values values ∧
          values.map some = (List.range times).map fun n =>
            e.valueGiven? (start.after steps).store (e.dealt ((start.after steps).draws.advance
              (n * (e.places .rand).length) (n * (e.places .randIn).length)))) ∧
      (∀ source e scope,
        Expr.read Expr.defaultLimit source Scope.new = (.ok (some e), scope) →
          ∃ value, ((start.after steps).step (.evaluateText source)).1 = .value value ∧
            e.valueGiven? scope.store (e.dealt (start.after steps).draws) = some value) ∧
      (∀ step, ((start.after steps).step step).2.draws =
        (start.after steps).draws.advance ((start.after steps).drawn .rand step)
          ((start.after steps).drawn .randIn step)) ∧
      ∀ (e : Expr) (d : Draws) (i : Nat) (place : Place),
        ((e.places .rand)[i]? = some place → e.dealt d .rand place = draw (d.rand + i)) ∧
          ((e.places .randIn)[i]? = some place →
            e.dealt d .randIn place = draw (d.randIn + i)) := by
  have hs := wellFormed_after wellFormed_start steps
  refine ⟨?_, ?_, ?_, ?_, ?_⟩
  · rw [draws_after wellFormed_start steps]
    simp [Draws.advance, start, Draws.start]
  · intro tree e times hl
    refine ⟨_, ?_, (evaluations_eq (hs tree e hl) _ times _).1⟩
    rw [State.step, hl]
  · intro source e scope hr
    have he : e.WellFormed := Expr.wellFormed_of_read (congrArg Prod.fst hr)
    refine ⟨_, ?_, (Expr.evaluate_of_wellFormed he scope.store _).1⟩
    rw [State.step, evaluateText_of_read hr]
  · intro step
    exact draws_step hs step
  · intro e d i place
    have hd := e.deals_dealt d
    exact ⟨hd .rand (Or.inl rfl) i place, hd .randIn (Or.inr rfl) i place⟩

/-- Of two nested nodes the inner one has the first draw, and the nodes that bound them draw
from a count of their own. -/
theorem draws_of_run_nested :
    ∃ s e, s = start.after [.constant 2 ['a'], .apply "rand".toList [] ['b'],
        .apply "rand-in".toList [['a'], ['b']] ['c'],
        .apply "rand-in".toList [['c'], ['b']] ['d']] ∧
      s.trees.lookup ['d'] = some e ∧
      (∃ values, (s.step (.evaluate ['d'] 1)).1 = .values values ∧
        values.map some = [e.valueGiven? s.store (e.dealt s.draws)]) ∧
      (s.step (.evaluate ['d'] 1)).2.draws = ⟨2, 2⟩ ∧
      e.dealt s.draws .randIn [0] = draw 0 ∧ e.dealt s.draws .randIn [] = draw 1 := by
  obtain ⟨-, htree, -, hstep, hdeal⟩ := draws_of_run [.constant 2 ['a'],
    .apply "rand".toList [] ['b'], .apply "rand-in".toList [['a'], ['b']] ['c'],
    .apply "rand-in".toList [['c'], ['b']] ['d']]
  refine ⟨_, _, rfl, rfl, ?_, ?_, ?_, ?_⟩
  · exact htree ['d'] _ 1 rfl
  · exact hstep (.evaluate ['d'] 1)
  · exact (hdeal _ .start 0 [0]).2 rfl
  · exact (hdeal _ .start 1 []).2 rfl
end Session
end ScoreFormula
