import ScoreFormula.Proofs.ReadingOrder
import ScoreFormula.Proofs.Wrapping

/-!
# Operations that are composed as text

There are two ways to an operation on operands that have texts: to build it by `Expr.apply` on the
trees of the texts, and to write the operator's symbol in front of the texts and read that.
`read_composed` says that both come to the same, the tree with its cells or the arity error with
all that it names.  Only a `-` before a single operand is not the operator that its symbol is.

The operands are read one after another, each in the scope that the one before left, and that is
how the composed text reads them (`ReadInTurn.readOperands`).  In a scope where all this has been
read already, reading it in turn gives the same trees and binds nothing (`ReadInTurn.again`).
-/

namespace ScoreFormula

open Token Text Forest

/-- A symbol and operands in parentheses, with single spaces between them. -/
def composed (symbol : Text) (operands : List Text) : Text :=
  parens ([' '].intercalate (symbol :: operands))

namespace Expr

/-- Each of the texts is read as a tree, the next one in the scope that is left. -/
inductive ReadInTurn (limit : Nat) : List Text → Scope → List Expr → Scope → Prop
  | nil {scope : Scope} : ReadInTurn limit [] scope [] scope
  | cons {t : Text} {texts : List Text} {scope middle after : Scope} {e : Expr} {es : List Expr} :
    read limit t scope = (.ok (some e), middle) → ReadInTurn limit texts middle es after →
      ReadInTurn limit (t :: texts) scope (e :: es) after

/-- The text is read as what `apply` makes of an operator and trees that were read from `scope` to
`after`.  Read in `scope` it leaves what they left, or nothing if the operator does not take them,
and later, in any scope that has the cells of `after`, it changes nothing. -/
structure ReadAsApplied (limit : Nat) (t : Text) (operator : Operator) (es : List Expr)
    (scope after : Scope) : Prop where
  first : read limit t scope =
    ((apply operator es).map some, if es.length = operator.arity then after else scope)
  later : ∀ other : Scope, (∀ name cell, after.registry.find? name = some cell →
    other.registry.find? name = some cell) →
      read limit t other = ((apply operator es).map some, other)

/-! ## Operands in turn -/

namespace ReadInTurn

variable {limit : Nat} {texts : List Text} {scope after : Scope} {es : List Expr}

theorem length_eq (h : ReadInTurn limit texts scope es after) : es.length = texts.length := by
  induction h with
  | nil => rfl
  | cons _ _ ih => rw [List.length_cons, List.length_cons, ih]

theorem toExtends (h : ReadInTurn limit texts scope es after) : scope.Extends after := by
  induction h with
  | nil => exact Scope.Extends.refl _
  | cons hr _ ih => exact (binds_of_read hr).toExtends.trans ih

theorem readOperands (h : ReadInTurn limit texts scope es after) (operator : Operator)
    (index : Nat) :
    readOperands operator index (texts.map (read limit)) scope = (.ok es, after) := by
  induction h generalizing index with
  | nil => rfl
  | cons hr _ ih => exact readOperands_cons_eq_ok.mpr ⟨_, _, _, hr, ih (index + 1), rfl⟩

/-- Read again where its cells are, a text finds them and binds nothing. -/
theorem again (h : ReadInTurn limit texts scope es after) {other : Scope}
    (ho : ∀ name cell, after.registry.find? name = some cell →
      other.registry.find? name = some cell) :
    ReadInTurn limit texts other es other := by
  induction h with
  | nil => exact .nil
  | @cons t texts scope middle after e es hr hrest ih =>
    have hbound : read limit t other = ((read limit t scope).1, other) := by
      refine read_of_bound limit t fun name cell hc => ?_
      rw [hr] at hc
      exact ho name cell (hrest.toExtends.find? hc)
    rw [hr] at hbound
    exact .cons hbound (ih ho)

end ReadInTurn

/-! ## The composed text -/

/-- The trees of the operands are what the operator is applied to, if there are as many as it
takes, and otherwise no operand is read. -/
theorem readOperation_in_turn {limit : Nat} {symbol : Text} {operator : Operator}
    {texts : List Text} {scope after : Scope} {es : List Expr}
    (hs : Operator.select? symbol texts.length = some operator)
    (h : ReadInTurn limit texts scope es after) :
    readOperation symbol (texts.map (read limit)) scope =
      ((apply operator es).map some, if es.length = operator.arity then after else scope) := by
  rw [readOperation, List.length_map, hs, ← h.length_eq]
  dsimp only
  by_cases ha : es.length = operator.arity
  · rw [if_neg (Classical.not_not.mpr ha), if_pos ha, h.readOperands operator 0]
  · rw [if_pos ha, if_neg ha, apply, if_neg ha]
    rfl

/-- Building an operation has no limit to report. -/
theorem raised_apply (operator : Operator) (es : List Expr) (scope : Scope) :
    raised ((apply operator es).map some, scope) = ((apply operator es).map some, scope) := by
  rw [apply]
  by_cases ha : es.length = operator.arity
  · rw [if_pos ha]
    rfl
  · rw [if_neg ha]
    rfl

variable {limit : Nat} {symbol : Text} {operator : Operator} {texts : List Text}
  {scope after : Scope} {es : List Expr}

theorem read_composed_of_select (hn : texts ≠ [])
    (ht : tokenize ([' '].intercalate (symbol :: texts)) = .ok (symbol :: texts))
    (hs : Operator.select? symbol texts.length = some operator)
    (h : ReadInTurn limit texts scope es after) :
    read (limit + 1) (composed symbol texts) scope =
      ((apply operator es).map some, if es.length = operator.arity then after else scope) := by
  obtain ⟨content, hc⟩ := laidOut_iff_balanced.mpr (exists_tokens_iff_balanced.mp ⟨_, ht⟩)
  -- The operands keep the group from being an operator without operands.
  have hnullary : Operator.nullary? (Text.trim ([' '].intercalate (symbol :: texts))) = none :=
    nullary?_of_tokenize ht fun w _ he => hn (List.cons.inj he).2
  rw [read, composed, readAt_parens hc, hnullary, if_neg (by omega), readAt_raised,
    readAt_of_operands hn ht]
  show raised (readOperation symbol (texts.map (read limit)) scope) = _
  rw [readOperation_in_turn hs h, raised_apply]

theorem readAsApplied_of_select (hn : texts ≠ [])
    (ht : tokenize ([' '].intercalate (symbol :: texts)) = .ok (symbol :: texts))
    (hs : Operator.select? symbol texts.length = some operator)
    (h : ReadInTurn limit texts scope es after) :
    ReadAsApplied (limit + 1) (composed symbol texts) operator es scope after where
  first := read_composed_of_select hn ht hs h
  later other ho := by
    have hlater := read_composed_of_select hn ht hs (h.again ho)
    rwa [ite_self] at hlater

/-- An operator's symbol in front of texts that are one token each, in a group, is read as what the
operator makes of their trees, under a limit that is larger by one: the operation on those very
trees, or the error that says how many there are and how many it takes.  A `-` in front of a
single operand is negation, which takes it. -/
theorem read_composed (hs : Operator.ofSymbol? symbol = some operator) (hn : texts ≠ [])
    (ht : ∀ t ∈ texts, tokenize t = .ok [t]) (h : ReadInTurn limit texts scope es after) :
    (¬(symbol = "-".toList ∧ texts.length = 1) →
        ReadAsApplied (limit + 1) (composed symbol texts) operator es scope after) ∧
      (symbol = "-".toList ∧ texts.length = 1 →
        ReadAsApplied (limit + 1) (composed symbol texts) .negate es scope after ∧
          apply .negate es = .ok (.operation .negate es)) := by
  have htokens : tokenize ([' '].intercalate (symbol :: texts)) = .ok (symbol :: texts) := by
    refine tokenize_intercalate fun p hp => ?_
    rcases List.mem_cons.mp hp with rfl | hp
    · rw [← Operator.symbol_of_ofSymbol? hs]
      exact tokenize_of_trim_eq (word_symbol operator) operator.trim_symbol
    · exact ht p hp
  constructor
  · intro hne
    refine readAsApplied_of_select hn htokens ?_ h
    rw [Operator.select?, if_neg hne, hs]
  · intro hminus
    have hone : es.length = Operator.negate.arity := h.length_eq.trans hminus.2
    refine ⟨readAsApplied_of_select hn htokens ?_ h, ?_⟩
    · rw [Operator.select?, if_pos hminus]
    · rw [apply, if_pos hone]

/-- The operands share a variable, and the same texts come to an operation behind one symbol and to
an error behind another. -/
theorem read_composed_shared_variable :
    ∃ texts es after, texts = ["b".toList, "(- a b)".toList] ∧
      es = [.var ⟨"b".toList, 0⟩,
        .operation .subtract [.var ⟨"a".toList, 1⟩, .var ⟨"b".toList, 0⟩]] ∧
      ReadInTurn 1 texts Scope.new es after ∧ (∀ t ∈ texts, tokenize t = .ok [t]) ∧
      read 2 "(- b (- a b))".toList after = (.ok (some (.operation .subtract es)), after) ∧
      read 2 "(! b (- a b))".toList Scope.new = (.error (.arityMismatch .not 2), Scope.new) ∧
      ∃ middle, ReadInTurn 1 ["b".toList] Scope.new [.var ⟨"b".toList, 0⟩] middle ∧
        read 2 "(- b)".toList Scope.new =
          (.ok (some (.operation .negate [.var ⟨"b".toList, 0⟩])), middle) := by
  have hf : ofText? "b".toList = .ok [.atom "b".toList] := rfl
  have hf' : ofText? "(- a b)".toList = .ok [.group "(- a b)".toList
      [.atom "-".toList, .atom "a".toList, .atom "b".toList]] := rfl
  have hfirst : read 1 "b".toList Scope.new =
      (.ok (some (.var ⟨"b".toList, 0⟩)), (Scope.new.intern "b".toList).2) := by
    rw [read_of_ok hf]
    rfl
  have hsecond : read 1 "(- a b)".toList (Scope.new.intern "b".toList).2 =
      (.ok (some (.operation .subtract [.var ⟨"a".toList, 1⟩, .var ⟨"b".toList, 0⟩])),
        ((Scope.new.intern "b".toList).2.intern "a".toList).2) := by
    rw [read_of_ok hf']
    rfl
  have hone : ∀ t ∈ ["b".toList], tokenize t = .ok [t] := List.forall_mem_singleton.mpr rfl
  have htwo : ∀ t ∈ ["b".toList, "(- a b)".toList], tokenize t = .ok [t] :=
    List.forall_mem_cons.mpr ⟨rfl, List.forall_mem_singleton.mpr rfl⟩
  have h := ReadInTurn.cons hfirst .nil
  have h' := ReadInTurn.cons hfirst (.cons hsecond .nil)
  have hs : Operator.ofSymbol? "-".toList = some .subtract := rfl
  have hs' : Operator.ofSymbol? "!".toList = some .not := rfl
  obtain ⟨hminus, -⟩ := read_composed hs (by decide) htwo h'
  obtain ⟨hnot, -⟩ := read_composed hs' (by decide) htwo h'
  obtain ⟨-, hnegate⟩ := read_composed hs (by decide) hone h
  exact ⟨_, _, _, rfl, rfl, h', htwo, (hminus (by decide)).later _ fun _ _ hc => hc,
    (hnot (by decide)).first, _, h, (hnegate (by decide)).1.first⟩

end Expr
end ScoreFormula
