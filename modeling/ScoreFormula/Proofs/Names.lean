import ScoreFormula.Proofs.Forest.Scope
import ScoreFormula.Proofs.Segmentation

/-!
# The names that reading binds

A name is bound only where a text comes down to a single atom that is no literal.  Such an
atom is a word with no blank at its ends, whatever else stands in the text and wherever
reading stops.  So every name that is bound while a text is read satisfies `IsName`, and so do
the names at the variables of every tree that is read.

These are all the names there are: a text that is a name and nothing else is read as its
variable, also where it is called as an operator is (`exists_read_binding_iff`).
-/

namespace ScoreFormula

open Token Text

/-- The only token of a text has no blank at its ends, and is a word if it is no group. -/
theorem word_of_tokenize {t token : Text} (h : tokenize t = .ok [token])
    (hg : isGroup token = false) : Word token ∧ token.trim = token := by
  have hs := segmented_of_tokenize h
  have ht : token = t.trim := by
    generalize t.trim = u at hs
    cases hs
    rfl
  refine ⟨?_, by rw [ht, trim_trim]⟩
  cases hs.piece token List.mem_cons_self with
  | word hw => exact hw
  | group => rw [isGroup_parens] at hg; cases hg

namespace Expr

/-- All names that the reading binds anew are names of variables. -/
def BindsNames {α : Type} (read : Scope → α × Scope) : Prop :=
  ∀ scope, ∀ name ∈ (read scope).2.registry.names, name ∈ scope.registry.names ∨ IsName name

theorem bindsNames_readAtom {token : Text} (hw : Word token) (ht : token.trim = token) :
    BindsNames (readAtom token) := by
  intro scope name h
  rw [readAtom] at h
  cases hl : Literal.read? token with
  | some value =>
    rw [hl] at h
    exact Or.inl h
  | none =>
    rw [hl] at h
    rw [Registry.mem_names_iff] at h ⊢
    rcases Scope.contains_intern.mp h with h | rfl
    · exact Or.inl h
    · exact Or.inr ⟨hw, ht, hl⟩

/-- The scope that reading operands leaves is that of the last operand that was read. -/
theorem scope_readOperands_cons (operator : Operator) (index : Nat)
    (read : Scope → ReadResult × Scope) (rest : List (Scope → ReadResult × Scope)) (scope : Scope) :
    (readOperands operator index (read :: rest) scope).2 = (read scope).2 ∨
      (readOperands operator index (read :: rest) scope).2 =
        (readOperands operator (index + 1) rest (read scope).2).2 := by
  rw [readOperands]
  rcases read scope with ⟨cause | _ | e, middle⟩
  · exact Or.inl rfl
  · exact Or.inl rfl
  · right
    dsimp only
    rcases readOperands operator (index + 1) rest middle with ⟨cause | es, last⟩
    · rfl
    · rfl

theorem bindsNames_readOperands {operator : Operator} {index : Nat}
    {reads : List (Scope → ReadResult × Scope)} (hr : ∀ read ∈ reads, BindsNames read) :
    BindsNames (readOperands operator index reads) := by
  induction reads generalizing index with
  | nil => exact fun _ _ h => Or.inl h
  | cons read rest ih =>
    intro scope name h
    have hfirst := hr read List.mem_cons_self scope name
    have hothers : ∀ other ∈ rest, BindsNames other := fun other hm =>
      hr other (List.mem_cons_of_mem _ hm)
    rcases scope_readOperands_cons operator index read rest scope with hs | hs
    · rw [hs] at h
      exact hfirst h
    · rw [hs] at h
      rcases ih hothers _ name h with h | h
      · exact hfirst h
      · exact Or.inr h

/-- An operation that is refused leaves the scope, and another leaves that of its operands. -/
theorem scope_readOperation (symbol : Text) (operands : List (Scope → ReadResult × Scope))
    (scope : Scope) :
    (readOperation symbol operands scope).2 = scope ∨
      ∃ operator, (readOperation symbol operands scope).2 =
        (readOperands operator 0 operands scope).2 := by
  rw [readOperation]
  cases Operator.select? symbol operands.length with
  | none => exact Or.inl rfl
  | some operator =>
    dsimp only
    by_cases ha : operands.length = operator.arity
    · rw [if_neg (Classical.not_not.mpr ha)]
      refine Or.inr ⟨operator, ?_⟩
      rcases readOperands operator 0 operands scope with ⟨cause | es, last⟩
      · rfl
      · rfl
    · rw [if_pos ha]
      exact Or.inl rfl

theorem bindsNames_readOperation {symbol : Text} {operands : List (Scope → ReadResult × Scope)}
    (hr : ∀ read ∈ operands, BindsNames read) : BindsNames (readOperation symbol operands) := by
  intro scope name h
  rcases scope_readOperation symbol operands scope with hs | ⟨operator, hs⟩
  · rw [hs] at h
    exact Or.inl h
  · rw [hs] at h
    exact bindsNames_readOperands hr scope name h

theorem bindsNames_readAt (limit depth : Nat) (t : Text) : BindsNames (readAt limit depth t) := by
  intro scope name h
  rw [readAt_eq] at h
  rcases ht : tokenize t with cause | _ | ⟨token, _ | ⟨first, rest⟩⟩
  · rw [ht] at h
    exact Or.inl h
  · rw [ht] at h
    exact Or.inl h
  · simp only [ht] at h
    by_cases hg : isGroup token = true
    · rw [if_pos hg] at h
      by_cases hd : limit < depth + 1
      · rw [if_pos hd] at h
        exact Or.inl h
      · rw [if_neg hd] at h
        cases hn : Operator.nullary? (strip token).trim with
        | some operator =>
          rw [hn] at h
          exact Or.inl h
        | none =>
          rw [hn] at h
          exact bindsNames_readAt limit (depth + 1) (strip token) scope name h
    · rw [if_neg hg] at h
      obtain ⟨hw, htrim⟩ := word_of_tokenize ht (Bool.not_eq_true _ ▸ hg)
      exact bindsNames_readAtom hw htrim scope name h
  · simp only [ht] at h
    refine bindsNames_readOperation ?_ scope name h
    intro read hread
    obtain ⟨operand, hm, rfl⟩ := List.mem_map.mp hread
    exact bindsNames_readAt limit depth operand
termination_by t.length
decreasing_by
  · exact length_strip_lt_of_tokenize ht hg
  · exact length_lt_of_mem_tail ht hm

/-- The names at the variables of a tree that is read are names. -/
theorem isName_of_read {limit : Nat} {t : Text} {scope : Scope} {e : Expr}
    (h : (read limit t scope).1 = .ok (some e)) {cell : Cell} (hc : cell ∈ e.cells) :
    IsName cell.name := by
  -- A new registry has no names, so those of the tree read there are bound while reading.
  have hname := read_byName limit t scope Scope.new
  rw [h] at hname
  rcases hn : read limit t Scope.new with ⟨cause | _ | e', after⟩
  · rw [hn] at hname
    cases hname
  · rw [hn] at hname
    cases hname
  · rw [hn] at hname
    have he := map_name_cells_congr (Option.some.inj (Except.ok.inj hname))
    have hm : cell.name ∈ e'.cells.map Cell.name := he ▸ List.mem_map_of_mem hc
    have hb := bindsNames_readAt limit 0 t Scope.new cell.name
    have hafter : (readAt limit 0 t Scope.new).2 = after := congrArg Prod.snd hn
    rw [hafter, (binds_of_read hn).after_eq, Scope.mem_names_internAll] at hb
    refine (hb (Or.inr hm)).resolve_left fun hempty => ?_
    cases Registry.mem_names_iff.mp hempty

/-! ## Every name is bound by a text -/

theorem isName_iff {name : Text} :
    IsName name ↔
      name ≠ [] ∧ (∀ c ∈ name, isSeparator c = false ∧ c ≠ '(' ∧ c ≠ ')') ∧
        (∀ c ∈ name.head?, isBlank c = false) ∧ (∀ c ∈ name.getLast?, isBlank c = false) ∧
          Literal.read? name = none := by
  have hplain : (∀ c ∈ name, isPlain c = true) ↔
      ∀ c ∈ name, isSeparator c = false ∧ c ≠ '(' ∧ c ≠ ')' := by
    simp [isPlain, and_assoc]
  have htrim : name.trim = name ↔
      (∀ c ∈ name.head?, isBlank c = false) ∧ ∀ c ∈ name.getLast?, isBlank c = false := by
    rw [trim_eq_self_iff, trimStart_eq_self_iff, trimEnd_eq_self_iff]
  rw [← hplain]
  constructor
  · intro h
    obtain ⟨hfirst, hlast⟩ := htrim.mp h.trim
    exact ⟨h.word.1, h.word.2, hfirst, hlast, h.not_literal⟩
  · intro h
    obtain ⟨hn, hp, hfirst, hlast, hl⟩ := h
    exact ⟨⟨hn, hp⟩, htrim.mpr ⟨hfirst, hlast⟩, hl⟩

/-- A symbol is an operator only in front of operands or alone in a group. -/
theorem isName_symbol (operator : Operator) : IsName operator.symbol :=
  ⟨Forest.word_symbol operator, operator.trim_symbol, by cases operator <;> rfl⟩

theorem read_of_isName {name : Text} (h : IsName name) (limit : Nat) (scope : Scope) :
    read limit name scope =
      (.ok (some (.var (scope.intern name).1)), (scope.intern name).2) := by
  show readAt limit 0 name scope = _
  rw [Forest.readAt_word h.word, Forest.readItem, h.trim, if_neg h.word.1, readAtom, h.not_literal]

/-- A text binds a name anew, as a whole or before an error, if and only if the name is not
empty, has no separator and no parenthesis in it and no blank at its ends, and is no literal.
Such a name alone is read as the variable of its cell, and no other name is bound by it.  The
symbols of all operators are names. -/
theorem exists_read_binding_iff (name : Text) :
    ((∃ limit t scope, name ∉ scope.registry.names ∧
        name ∈ (read limit t scope).2.registry.names) ↔ IsName name) ∧
      (IsName name ↔
        name ≠ [] ∧ (∀ c ∈ name, isSeparator c = false ∧ c ≠ '(' ∧ c ≠ ')') ∧
          (∀ c ∈ name.head?, isBlank c = false) ∧ (∀ c ∈ name.getLast?, isBlank c = false) ∧
            Literal.read? name = none) ∧
      (IsName name → ∀ limit scope, ∃ cell after,
        read limit name scope = (.ok (some (.var cell)), after) ∧
          after.registry.find? name = some cell ∧ Scope.Extends scope after ∧
            ∀ other, other ∈ after.registry.names ↔
              other ∈ scope.registry.names ∨ other = name) ∧
      ∀ operator : Operator, IsName operator.symbol := by
  have hnames : ∀ (scope : Scope) (other : Text), other ∈ (scope.intern name).2.registry.names ↔
      other ∈ scope.registry.names ∨ other = name := by
    intro scope other
    rw [Registry.mem_names_iff, Registry.mem_names_iff, Scope.contains_intern]
  refine ⟨?_, isName_iff, ?_, isName_symbol⟩
  · constructor
    · intro h
      obtain ⟨limit, t, scope, hnew, hbound⟩ := h
      exact (bindsNames_readAt limit 0 t scope name hbound).resolve_left hnew
    · intro h
      refine ⟨0, name, Scope.new, fun hm => ?_, ?_⟩
      · cases Registry.mem_names_iff.mp hm
      · rw [read_of_isName h]
        exact (hnames Scope.new name).mpr (Or.inr rfl)
  · intro h limit scope
    exact ⟨_, _, read_of_isName h limit scope, scope.find?_intern name,
      scope.extends_intern name, hnames scope⟩

/-- A name may have a blank inside, and may be called as an operator without operands is. -/
theorem exists_read_binding_iff_rand :
    IsName "rand".toList ∧ IsName "a\u00a0=b".toList ∧
      (∃ cell after, read 0 "rand".toList Scope.new = (.ok (some (.var cell)), after) ∧
        after.registry.find? "rand".toList = some cell) ∧
      ∃ cell after, read 0 "a\u00a0=b".toList Scope.new = (.ok (some (.var cell)), after) ∧
        after.registry.find? "a\u00a0=b".toList = some cell := by
  have hblank : IsName "a\u00a0=b".toList := ⟨word_of_all (by decide) (by decide), by decide, rfl⟩
  obtain ⟨-, -, hread, hsymbol⟩ := exists_read_binding_iff "rand".toList
  have hrand : IsName "rand".toList := hsymbol .rand
  obtain ⟨cell, after, hr, hf, -⟩ := hread hrand 0 Scope.new
  obtain ⟨-, -, hread', -⟩ := exists_read_binding_iff "a\u00a0=b".toList
  obtain ⟨cell', after', hr', hf', -⟩ := hread' hblank 0 Scope.new
  exact ⟨hrand, hblank, ⟨cell, after, hr, hf⟩, cell', after', hr', hf'⟩

end Expr
end ScoreFormula
