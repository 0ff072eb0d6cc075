import ScoreFormula.Proofs.Forest.Read
import ScoreFormula.Proofs.Substitution

/-!
# Reading in different scopes

A reading asks its scope for cells and for nothing else.  So the same text read in any two
scopes ends in the same way: with the same error, with nothing, or with trees that are the
same by name.
-/

namespace ScoreFormula

open Forest

namespace Forest

/-- Two readings, each in a scope of its own, end in the same error, or in results that `f`
makes the same. -/
def SameUpTo {α β : Type} (f : α → β) (result result' : Except ReadError α × Scope) : Prop :=
  result.1.map f = result'.1.map f

theorem SameUpTo.andThen {α β γ δ : Type} {f : α → β} {g : γ → δ}
    {result result' : Except ReadError α × Scope}
    {next next' : α → Scope → Except ReadError γ × Scope} (h : SameUpTo f result result')
    (hn : ∀ a a' scope scope', f a = f a' → SameUpTo g (next a scope) (next' a' scope')) :
    SameUpTo g (andThen result next) (andThen result' next') := by
  match result, result', h with
  | (.error e, scope), (.error e', scope'), h =>
    have he : e = e' := Except.error.inj h
    rw [he]
    rfl
  | (.error _, _), (.ok _, _), h => exact nomatch h
  | (.ok _, _), (.error _, _), h => exact nomatch h
  | (.ok a, scope), (.ok a', scope'), h => exact hn a a' scope scope' (Except.ok.inj h)

theorem sameUpTo_readAtom (atom : Text) (scope scope' : Scope) :
    (Expr.readAtom atom scope).1.byName = (Expr.readAtom atom scope').1.byName := by
  rw [Expr.readAtom, Expr.readAtom]
  cases Literal.read? atom with
  | some value => rfl
  | none =>
    have hn : (scope.intern atom).1.name = (scope'.intern atom).1.name := by
      rw [Registry.name_of_find? (scope.find?_intern atom),
        Registry.name_of_find? (scope'.find?_intern atom)]
    show Expr.var ⟨(scope.intern atom).1.name, 0⟩ = Expr.var ⟨(scope'.intern atom).1.name, 0⟩
    rw [hn]

mutual

theorem sameUpTo_readItem (limit depth : Nat) (item : Item) (scope scope' : Scope) :
    SameUpTo (Option.map Expr.byName) (readItem limit depth item scope)
      (readItem limit depth item scope') := by
  cases item with
  | atom text =>
    rw [readItem, readItem]
    by_cases ht : text.trim = []
    · rw [if_pos ht, if_pos ht]
      rfl
    · rw [if_neg ht, if_neg ht]
      exact congrArg (fun e => Except.ok (some e)) (sameUpTo_readAtom text.trim scope scope')
  | group raw content =>
    rw [readItem, readItem]
    by_cases hd : limit < depth + 1
    · rw [if_pos hd, if_pos hd]
      rfl
    · rw [if_neg hd, if_neg hd]
      cases nullaryOf? content with
      | some operator => rfl
      | none => exact sameUpTo_readLevel limit (depth + 1) content scope scope'

theorem sameUpTo_readLevel (limit depth : Nat) (items : List Item) (scope scope' : Scope) :
    SameUpTo (Option.map Expr.byName) (readLevel limit depth items scope)
      (readLevel limit depth items scope') := by
  match items with
  | [] =>
    rw [readLevel, readLevel]
    rfl
  | [item] =>
    rw [readLevel, readLevel]
    exact sameUpTo_readItem limit depth item scope scope'
  | symbol :: first :: rest =>
    cases hs : Operator.select? symbol.raw (first :: rest).length with
    | none =>
      rw [readLevel, readLevel, hs]
      rfl
    | some operator =>
      by_cases ha : (first :: rest).length = operator.arity
      · rw [readLevel_operation hs ha, readLevel_operation hs ha]
        have ho := sameUpTo_readOperands limit depth operator 0 (first :: rest) scope scope'
        refine ho.andThen fun es es' _ _ he => ?_
        exact congrArg (fun es => Except.ok (some (Expr.operation operator es))) he
      · rw [readLevel, readLevel, hs]
        simp only [if_pos ha]
        rfl

theorem sameUpTo_readOperands (limit depth : Nat) (operator : Operator) (index : Nat)
    (items : List Item) (scope scope' : Scope) :
    SameUpTo (Expr.substAll fun cell => .var ⟨cell.name, 0⟩)
      (readOperands limit depth operator index items scope)
      (readOperands limit depth operator index items scope') := by
  match items with
  | [] =>
    rw [readOperands, readOperands]
    rfl
  | item :: rest =>
    rw [readOperands_cons, readOperands_cons]
    refine (sameUpTo_readItem limit depth item scope scope').andThen fun found found' _ _ hf => ?_
    match found, found', hf with
    | none, none, _ => rfl
    | none, some _, hf => exact nomatch hf
    | some _, none, hf => exact nomatch hf
    | some e, some e', hf =>
      have he : e.byName = e'.byName := Option.some.inj hf
      refine (sameUpTo_readOperands limit depth operator (index + 1) rest _ _).andThen
        fun es es' _ _ hes => ?_
      show Except.ok (e.byName :: _) = Except.ok (e'.byName :: _)
      rw [he, hes]

end

end Forest

/-- By name, what is read from a text does not depend on the scope. -/
theorem read_byName (limit : Nat) (t : Text) (scope scope' : Scope) :
    (Expr.read limit t scope).1.map (Option.map Expr.byName) =
      (Expr.read limit t scope').1.map (Option.map Expr.byName) := by
  cases h : ofText? t with
  | error cause =>
    rw [read_of_error h, read_of_error h]
  | ok items =>
    rw [read_of_ok h, read_of_ok h]
    exact sameUpTo_readLevel limit 0 (topLevel items) scope scope'

end ScoreFormula
