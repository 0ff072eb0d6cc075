import ScoreFormula.Proofs.Session

/-!
# Trees have the operands that their operators take

Reading a text and building an operation both count operands before they make a tree.  So
every tree that is read is well formed, and so is every tree that a session keeps, whatever
has been read, built and replaced before (`wellFormed_after`).

A session keeps only trees that can be obtained by reading and building.  What is true of
those is told by `Closed`, which a property of trees satisfies if reading gives trees that
have it, and building on such trees gives another.
-/

namespace ScoreFormula

open Token

namespace Expr

theorem allWellFormed_of_readOperands {operator : Operator} {index : Nat}
    {reads : List (Scope → ReadResult × Scope)} {scope after : Scope} {es : List Expr}
    (hw : ∀ read ∈ reads, ∀ scope e, (read scope).1 = .ok (some e) → e.WellFormed)
    (h : readOperands operator index reads scope = (.ok es, after)) : AllWellFormed es := by
  induction reads generalizing index scope es with
  | nil =>
    cases h
    exact trivial
  | cons read rest ih =>
    obtain ⟨operand, others, middle, hr, hrest, rfl⟩ := readOperands_cons_eq_ok.mp h
    refine ⟨hw read List.mem_cons_self scope operand (by rw [hr]), ?_⟩
    exact ih (fun read' hm => hw read' (List.mem_cons_of_mem _ hm)) hrest

theorem wellFormed_readAtom (atom : Text) (scope : Scope) :
    (readAtom atom scope).1.WellFormed := by
  rw [readAtom]
  cases Literal.read? atom with
  | some value => exact trivial
  | none => exact trivial

theorem wellFormed_of_map_apply {operator : Operator} {operands : List Expr} {e : Expr}
    (h : (apply operator operands).map some = .ok (some e)) (ho : AllWellFormed operands) :
    e.WellFormed := by
  obtain ⟨found, hfound, he⟩ := map_eq_ok h
  cases he
  exact wellFormed_apply hfound ho

theorem wellFormed_of_readOperation {symbol : Text} {operands : List (Scope → ReadResult × Scope)}
    {scope : Scope} {e : Expr}
    (hw : ∀ read ∈ operands, ∀ scope e, (read scope).1 = .ok (some e) → e.WellFormed)
    (h : (readOperation symbol operands scope).1 = .ok (some e)) : e.WellFormed := by
  rw [readOperation] at h
  cases hs : Operator.select? symbol operands.length with
  | none =>
    rw [hs] at h
    cases h
  | some operator =>
    simp only [hs] at h
    by_cases ha : operands.length = operator.arity
    · rw [if_neg (Classical.not_not.mpr ha)] at h
      rcases hr : readOperands operator 0 operands scope with ⟨cause | es, last⟩
      · rw [hr] at h
        cases h
      · rw [hr] at h
        exact wellFormed_of_map_apply h (allWellFormed_of_readOperands hw hr)
    · rw [if_pos ha] at h
      cases h

theorem wellFormed_of_readAt {limit depth : Nat} {t : Text} {scope : Scope} {e : Expr}
    (h : (readAt limit depth t scope).1 = .ok (some e)) : e.WellFormed := by
  rw [readAt_eq] at h
  rcases ht : tokenize t with cause | _ | ⟨token, _ | ⟨first, rest⟩⟩
  · rw [ht] at h
    cases h
  · rw [ht] at h
    cases h
  · simp only [ht] at h
    by_cases hg : isGroup token = true
    · rw [if_pos hg] at h
      by_cases hd : limit < depth + 1
      · rw [if_pos hd] at h
        cases h
      · rw [if_neg hd] at h
        cases hn : Operator.nullary? (strip token).trim with
        | some operator =>
          rw [hn] at h
          exact wellFormed_of_map_apply h trivial
        | none =>
          rw [hn] at h
          exact wellFormed_of_readAt h
    · rw [if_neg hg] at h
      cases h
      exact wellFormed_readAtom token scope
  · simp only [ht] at h
    refine wellFormed_of_readOperation ?_ h
    intro read hread scope e he
    obtain ⟨operand, hm, rfl⟩ := List.mem_map.mp hread
    exact wellFormed_of_readAt he
termination_by t.length
decreasing_by
  · exact length_strip_lt_of_tokenize ht hg
  · exact length_lt_of_mem_tail ht hm

theorem wellFormed_of_read {limit : Nat} {t : Text} {scope : Scope} {e : Expr}
    (h : (read limit t scope).1 = .ok (some e)) : e.WellFormed :=
  wellFormed_of_readAt h

theorem allWellFormed_iff {es : List Expr} : AllWellFormed es ↔ ∀ e ∈ es, e.WellFormed := by
  induction es with
  | nil => exact ⟨fun _ e hm => (nomatch hm), fun _ => trivial⟩
  | cons e rest ih => rw [AllWellFormed, ih, List.forall_mem_cons]

/-! ## Trees that can be obtained -/

/-- The trees that come of reading texts and of building operations on such trees. -/
inductive Obtainable : Expr → Prop
  | read {limit : Nat} {t : Text} {scope : Scope} {e : Expr} :
    (Expr.read limit t scope).1 = .ok (some e) → Obtainable e
  | constant (value : Double) : Obtainable (.constant value)
  | var (cell : Cell) : Obtainable (.var cell)
  | apply {operator : Operator} {operands : List Expr} {e : Expr} :
    Expr.apply operator operands = .ok e → (∀ operand ∈ operands, Obtainable operand) →
      Obtainable e

/-- All trees that are read have the property, and so has what is built on trees that do. -/
structure Closed (P : Expr → Prop) : Prop where
  read : ∀ {limit t scope e}, (Expr.read limit t scope).1 = .ok (some e) → P e
  constant : ∀ value, P (.constant value)
  var : ∀ cell, P (.var cell)
  apply : ∀ {operator operands e}, Expr.apply operator operands = .ok e →
    (∀ operand ∈ operands, P operand) → P e

theorem closed_obtainable : Closed Obtainable where
  read := .read
  constant := .constant
  var := .var
  apply := .apply

theorem closed_wellFormed : Closed WellFormed where
  read := wellFormed_of_read
  constant _ := trivial
  var _ := trivial
  apply h ho := wellFormed_apply h (allWellFormed_iff.mpr ho)

theorem Obtainable.of_closed {P : Expr → Prop} (hP : Closed P) {e : Expr} (h : Obtainable e) :
    P e := by
  induction h with
  | read h => exact hP.read h
  | constant value => exact hP.constant value
  | var cell => exact hP.var cell
  | apply h _ ih => exact hP.apply h ih

end Expr

namespace Session

/-- Every tree that is kept has the property. -/
def Kept (P : Expr → Prop) (s : State) : Prop := ∀ key e, s.trees.lookup key = some e → P e

/-- Every tree that is kept is well formed. -/
def WellFormed (s : State) : Prop := Kept Expr.WellFormed s

namespace State

section

variable {P : Expr → Prop}

theorem kept_keep {s : State} {key : Text} {e : Expr} (hs : Kept P s) (he : P e) :
    Kept P (s.keep key e).2 := by
  intro other found h
  have hl := (Table.lookup_put key other e s.trees).symm.trans h
  by_cases ho : other = key
  · rw [if_pos ho] at hl
    exact Option.some.inj hl ▸ he
  · rw [if_neg ho] at hl
    exact hs other found hl

theorem forall_mem_treesOf {s : State} (hs : Kept P s) {keys : List Text} {es : List Expr}
    (h : s.treesOf keys = .ok es) : ∀ e ∈ es, P e := by
  induction keys generalizing es with
  | nil =>
    cases h
    exact fun e hm => nomatch hm
  | cons key rest ih =>
    rw [treesOf] at h
    cases hl : s.trees.lookup key with
    | none =>
      rw [hl] at h
      cases h
    | some e =>
      rw [hl] at h
      obtain ⟨others, hothers, rfl⟩ := map_eq_ok h
      exact List.forall_mem_cons.mpr ⟨hs key e hl, ih hothers⟩

theorem kept_step (hP : Expr.Closed P) {s : State} (hs : Kept P s) (step : Step) :
    Kept P (s.step step).2 := by
  cases step with
  | read key t limit keep =>
    rw [State.step]
    rcases hr : Expr.read limit t (s.scope key) with ⟨cause | _ | e, scope⟩
    · exact hs
    · exact hs
    · exact kept_keep (s := s.withScope key scope) hs (hP.read (congrArg Prod.fst hr))
  | constant value keep => exact kept_keep hs (hP.constant value)
  | var cell keep =>
    rw [State.step]
    cases s.cells.lookup cell with
    | none => exact hs
    | some c => exact kept_keep hs (hP.var c)
  | apply symbol operands keep =>
    rw [State.step]
    cases Operator.ofSymbol? symbol with
    | none => exact hs
    | some operator =>
      dsimp only
      cases ho : s.treesOf operands with
      | error tree => exact hs
      | ok es =>
        dsimp only
        cases ha : Expr.apply operator es with
        | error cause => exact hs
        | ok e => exact kept_keep hs (hP.apply ha (forall_mem_treesOf hs ho))
  | _ =>
    -- No other step keeps a tree.
    intro key e h
    rw [State.step] at h
    repeat' split at h
    all_goals exact hs key e h

theorem kept_after (hP : Expr.Closed P) {s : State} (hs : Kept P s) (steps : List Step) :
    Kept P (s.after steps) := by
  induction steps generalizing s with
  | nil => exact hs
  | cons step rest ih => exact ih (kept_step hP hs step)

theorem kept_start : Kept P start := by
  intro key e h
  cases h

end

theorem wellFormed_step {s : State} (hs : WellFormed s) (step : Step) :
    WellFormed (s.step step).2 :=
  kept_step Expr.closed_wellFormed hs step

theorem wellFormed_after {s : State} (hs : WellFormed s) (steps : List Step) :
    WellFormed (s.after steps) :=
  kept_after Expr.closed_wellFormed hs steps

theorem wellFormed_start : WellFormed start := kept_start

end State
end Session
end ScoreFormula
