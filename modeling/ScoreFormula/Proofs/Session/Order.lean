import ScoreFormula.Proofs.Session.Draw

/-!
# Evaluations in either order

All that an evaluation leaves behind for another is the counts of draws.  So two trees can be
evaluated in either order unless both have nodes of the same random operator: each has the
values that it has by itself, and the session ends in the same state.  A tree without random
nodes leaves nothing behind, and an evaluation of it can be put in anywhere.
-/

namespace ScoreFormula

namespace Expr

/-- No random operator has nodes in both trees. -/
def Apart (a b : Expr) : Prop :=
  ∀ operator, operator = .rand ∨ operator = .randIn →
    a.places operator = [] ∨ b.places operator = []

/-- No random operator has nodes in the tree. -/
def Drawless (e : Expr) : Prop :=
  ∀ operator, operator = .rand ∨ operator = .randIn → e.places operator = []

/-- The counts of draws once a tree has been evaluated some times. -/
def drawsAfter (e : Expr) (times : Nat) (d : Draws) : Draws :=
  d.advance (times * (e.places .rand).length) (times * (e.places .randIn).length)

theorem drawsAfter_comm (a b : Expr) (m n : Nat) (d : Draws) :
    a.drawsAfter m (b.drawsAfter n d) = b.drawsAfter n (a.drawsAfter m d) := by
  simp only [drawsAfter, Draws.advance_advance, Nat.add_comm]

theorem Apart.symm {a b : Expr} (h : a.Apart b) : b.Apart a :=
  fun operator ho => (h operator ho).symm

/-- The draws of one tree do not come out of the other's. -/
theorem Apart.sameDraws {a b : Expr} (h : a.Apart b) (times : Nat) (d : Draws) :
    a.SameDraws (b.drawsAfter times d) d := by
  have hb : ∀ operator, operator = .rand ∨ operator = .randIn → a.places operator ≠ [] →
      times * (b.places operator).length = 0 := by
    intro operator ho hne
    rw [(h operator ho).resolve_left hne]
    rfl
  rintro operator (rfl | rfl) hne
  · exact congrArg (d.rand + ·) (hb .rand (Or.inl rfl) hne)
  · exact congrArg (d.randIn + ·) (hb .randIn (Or.inr rfl) hne)

end Expr

namespace Session

open State

namespace State

variable {s : State} (hs : WellFormed s) {tree other : Text} {a b : Expr}
  (ha : s.trees.lookup tree = some a) (hb : s.trees.lookup other = some b)

include hs ha

/-- An evaluation answers with the values of its tree and counts their draws. -/
theorem step_evaluate_eq (times : Nat) :
    s.step (.evaluate tree times) =
      (.values (evaluations s.store a times s.draws).1,
        { s with draws := a.drawsAfter times s.draws }) := by
  rw [step_evaluate ha, (evaluations_eq (hs tree a ha) s.store times s.draws).2]
  rfl

include hb

/-- After an evaluation of the other tree a tree is answered for as before. -/
theorem answer_after_evaluate (h : a.Apart b) (m n : Nat) :
    ((s.step (.evaluate other n)).2.step (.evaluate tree m)).1 =
      (s.step (.evaluate tree m)).1 := by
  have hlater : { s with draws := b.drawsAfter n s.draws }.trees.lookup tree = some a := ha
  have hsame := evaluations_of_sameDraws (hs tree a ha) (h.sameDraws n s.draws) s.store m
  rw [step_evaluate_eq hs hb n, step_evaluate ha m]
  dsimp only
  rw [step_evaluate hlater m, hsame]

theorem state_after_evaluate_evaluate (m n : Nat) :
    ((s.step (.evaluate tree m)).2.step (.evaluate other n)).2 =
      { s with draws := b.drawsAfter n (a.drawsAfter m s.draws) } := by
  have hw : WellFormed { s with draws := a.drawsAfter m s.draws } := hs
  rw [step_evaluate_eq hs ha m]
  exact congrArg Prod.snd (step_evaluate_eq hw hb n)

end State

theorem evaluations_of_drawless {e : Expr} (h : e.WellFormed) (hd : e.Drawless) (store : Store)
    (times : Nat) (d : Draws) :
    evaluations store e times d = (List.replicate times (e.evaluate store d).1, d) := by
  have hdraws : (e.evaluate store d).2 = d := by
    rw [(Expr.evaluate_of_wellFormed h store d).2, hd .rand (Or.inl rfl), hd .randIn (Or.inr rfl)]
    rfl
  induction times with
  | zero => rfl
  | succ times ih =>
    rw [evaluations]
    dsimp only
    rw [hdraws, ih, List.replicate_succ]

/-- Two trees that are apart give the same answers and the same state in either order, however
often each is evaluated.  A tree without random nodes has one value in all its evaluations,
and whatever follows them goes as it would have without them. -/
theorem evaluations_commute (steps : List Step) {tree other : Text} {a b : Expr}
    (ha : (start.after steps).trees.lookup tree = some a)
    (hb : (start.after steps).trees.lookup other = some b) :
    (a.Apart b → ∀ m n, ∃ answer answer',
        ((start.after steps).run [.evaluate tree m, .evaluate other n]).1 = [answer, answer'] ∧
          ((start.after steps).run [.evaluate other n, .evaluate tree m]).1 = [answer', answer] ∧
            (start.after steps).after [.evaluate tree m, .evaluate other n] =
              (start.after steps).after [.evaluate other n, .evaluate tree m]) ∧
      (a.Drawless → ∀ m later,
        (start.after steps).run (.evaluate tree m :: later) =
          (.values (List.replicate m
              (a.evaluate (start.after steps).store (start.after steps).draws).1) ::
            ((start.after steps).run later).1, ((start.after steps).run later).2)) := by
  have hs := wellFormed_after wellFormed_start steps
  constructor
  · intro h m n
    refine ⟨((start.after steps).step (.evaluate tree m)).1,
      ((start.after steps).step (.evaluate other n)).1, ?_, ?_, ?_⟩
    · rw [← answer_after_evaluate hs hb ha h.symm n m]
      rfl
    · rw [← answer_after_evaluate hs ha hb h m n]
      rfl
    · have hab := state_after_evaluate_evaluate hs ha hb m n
      have hba := state_after_evaluate_evaluate hs hb ha n m
      rw [Expr.drawsAfter_comm] at hab
      exact hab.trans hba.symm
  · intro h m later
    have hsame := evaluations_of_drawless (hs tree a ha) h (start.after steps).store m
      (start.after steps).draws
    rw [run, step_evaluate ha, hsame]

/-- One tree draws for `rand` only and the other for `rand-in` only, and they share a cell. -/
theorem evaluations_commute_shared_cell :
    ∃ s a b, s = start.after [.intern ['r'] ['x'] (some ['h']), .var ['h'] ['x'],
        .apply "rand".toList [] ['u'], .apply "+".toList [['x'], ['u']] ['a'],
        .apply "rand-in".toList [['x'], ['x']] ['b']] ∧
      s.trees.lookup ['a'] = some a ∧ s.trees.lookup ['b'] = some b ∧ a.Apart b ∧
      (∃ answer answer', (s.run [.evaluate ['a'] 1, .evaluate ['b'] 1]).1 = [answer, answer'] ∧
        (s.run [.evaluate ['b'] 1, .evaluate ['a'] 1]).1 = [answer', answer] ∧
          s.after [.evaluate ['a'] 1, .evaluate ['b'] 1] =
            s.after [.evaluate ['b'] 1, .evaluate ['a'] 1]) ∧
      (Expr.var ⟨['x'], 0⟩).Drawless ∧ s.trees.lookup ['x'] = some (.var ⟨['x'], 0⟩) ∧
        (s.run [.evaluate ['x'] 2, .evaluate ['a'] 1]).2 = (s.run [.evaluate ['a'] 1]).2 := by
  have hapart : (Expr.operation .add [.var ⟨['x'], 0⟩, .operation .rand []]).Apart
      (.operation .randIn [.var ⟨['x'], 0⟩, .var ⟨['x'], 0⟩]) := by
    rintro operator (rfl | rfl)
    · exact Or.inr rfl
    · exact Or.inl rfl
  have hless : (Expr.var ⟨['x'], 0⟩).Drawless := fun _ _ => rfl
  obtain ⟨steps, hsteps⟩ : ∃ steps : List Step, steps =
      [.intern ['r'] ['x'] (some ['h']), .var ['h'] ['x'],
        .apply "rand".toList [] ['u'], .apply "+".toList [['x'], ['u']] ['a'],
        .apply "rand-in".toList [['x'], ['x']] ['b']] := ⟨_, rfl⟩
  have hx : (start.after steps).trees.lookup ['x'] = some (.var ⟨['x'], 0⟩) := by
    rw [hsteps]
    rfl
  have ha : (start.after steps).trees.lookup ['a'] =
      some (.operation .add [.var ⟨['x'], 0⟩, .operation .rand []]) := by
    rw [hsteps]
    rfl
  have hb : (start.after steps).trees.lookup ['b'] =
      some (.operation .randIn [.var ⟨['x'], 0⟩, .var ⟨['x'], 0⟩]) := by
    rw [hsteps]
    rfl
  have hfree := (evaluations_commute steps hx ha).2 hless 2 [.evaluate ['a'] 1]
  exact ⟨start.after steps, _, _, by rw [hsteps], ha, hb, hapart,
    (evaluations_commute steps ha hb).1 hapart 1 1, hless, hx, by rw [hfree]⟩

end Session
end ScoreFormula
