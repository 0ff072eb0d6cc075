import ScoreFormula.Proofs.Nesting

/-!
# One group further in

A group adds one to the depth at which its content is read, and a limit that is larger by one
makes up for it.  Then a reading goes as before, and if it stops at the nesting, it reports its
own limit (`readAt_raised`).
-/

namespace ScoreFormula

open Token Forest

/-- The error under a limit that is larger by one. -/
def ReadError.raised : ReadError → ReadError
  | .tooDeep limit => .tooDeep (limit + 1)
  | e => e

/-- The result under a limit that is larger by one. -/
def raised {α : Type} (result : Except ReadError α × Scope) : Except ReadError α × Scope :=
  (result.1.mapError ReadError.raised, result.2)

theorem raised_andThen {α β : Type} (result : Except ReadError α × Scope)
    (next : α → Scope → Except ReadError β × Scope) :
    raised (andThen result next) =
      andThen (raised result) fun a scope => raised (next a scope) := by
  match result with
  | (.error e, scope) => rfl
  | (.ok a, scope) => rfl

namespace Forest

mutual

theorem readItem_raised (limit depth : Nat) (item : Item) (scope : Scope) :
    readItem (limit + 1) (depth + 1) item scope = raised (readItem limit depth item scope) := by
  cases item with
  | atom text =>
    rw [readItem, readItem]
    by_cases ht : text.trim = []
    · rw [if_pos ht]
      rfl
    · rw [if_neg ht]
      rfl
  | group raw content =>
    rw [readItem, readItem]
    by_cases hd : limit < depth + 1
    · rw [if_pos hd, if_pos (Nat.succ_lt_succ hd)]
      rfl
    · rw [if_neg hd, if_neg fun h => hd (Nat.lt_of_succ_lt_succ h)]
      cases nullaryOf? content with
      | some operator => rfl
      | none => exact readLevel_raised limit (depth + 1) content scope

theorem readLevel_raised (limit depth : Nat) (items : List Item) (scope : Scope) :
    readLevel (limit + 1) (depth + 1) items scope = raised (readLevel limit depth items scope) := by
  match items with
  | [] =>
    rw [readLevel, readLevel]
    rfl
  | [item] =>
    rw [readLevel, readLevel]
    exact readItem_raised limit depth item scope
  | symbol :: first :: rest =>
    cases hs : Operator.select? symbol.raw (first :: rest).length with
    | none =>
      rw [readLevel, readLevel, hs]
      rfl
    | some operator =>
      by_cases ha : (first :: rest).length = operator.arity
      · rw [readLevel_operation hs ha, readLevel_operation hs ha, raised_andThen,
          readOperands_raised limit depth operator 0 (first :: rest) scope]
        rfl
      · rw [readLevel, readLevel, hs]
        simp only [ne_eq, if_pos ha]
        rfl

theorem readOperands_raised (limit depth : Nat) (operator : Operator) (index : Nat)
    (items : List Item) (scope : Scope) :
    readOperands (limit + 1) (depth + 1) operator index items scope =
      raised (readOperands limit depth operator index items scope) := by
  match items with
  | [] =>
    rw [readOperands, readOperands]
    rfl
  | item :: rest =>
    rw [readOperands_cons, readOperands_cons, raised_andThen,
      readItem_raised limit depth item scope]
    congr 1
    funext found scope
    cases found with
    | none => rfl
    | some operand =>
      rw [readRest, readRest, raised_andThen,
        readOperands_raised limit depth operator (index + 1) rest scope]
      rfl

end

end Forest

namespace Expr

/-- At every depth a text is read off the same items, or has the same imbalance. -/
theorem readAt_cases (t : Text) :
    (∃ cause, ∀ limit depth scope,
        readAt limit depth t scope = (.error (.imbalance cause), scope)) ∨
      ∃ items, ∀ limit depth scope,
        readAt limit depth t scope = readLevel limit depth items scope := by
  cases h : ofText? t with
  | error cause =>
    have ht : tokenize t = .error cause := scan_broken (broken_of_ofText? h)
    exact Or.inl ⟨cause, fun limit depth scope => by rw [readAt_eq, ht]⟩
  | ok items =>
    have hl := laidOut_of_ofText? h
    exact Or.inr ⟨topLevel items, readAt_of_agrees hl (agrees_of_laidOut hl)⟩

/-- One group further in, a text reads as it does under a limit smaller by one. -/
theorem readAt_raised (limit depth : Nat) (t : Text) (scope : Scope) :
    readAt (limit + 1) (depth + 1) t scope = raised (readAt limit depth t scope) := by
  rcases readAt_cases t with ⟨cause, hr⟩ | ⟨items, hr⟩
  · rw [hr, hr]
    rfl
  · rw [hr, hr]
    exact readLevel_raised limit depth items scope

/-- A larger limit does not change what has been read. -/
theorem readAt_of_ok {limit limit' depth : Nat} (hl : limit ≤ limit') {t : Text}
    {scope after : Scope} {found : Option Expr}
    (h : readAt limit depth t scope = (.ok found, after)) :
    readAt limit' depth t scope = (.ok found, after) := by
  rcases readAt_cases t with ⟨cause, hr⟩ | ⟨items, hr⟩
  · rw [hr] at h
    cases h
  · rw [hr] at h ⊢
    rcases narrows_readLevel hl depth items scope with he | ⟨he, -⟩
    · rw [← he, h]
    · rw [h] at he
      cases he

end Expr
end ScoreFormula
