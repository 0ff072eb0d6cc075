import ScoreFormula.Proofs.Forest.Balanced
import ScoreFormula.Proofs.Nesting
import ScoreFormula.Proofs.Spelling

/-!
# The height of the trees that are read

Whatever follows a tree down to its leaves goes through its operations one inside the other,
so their number on the way bounds how deep it gets.  `length_of_branch` says that the limit on
nesting bounds this number for every tree that is read: each operation on the way has a group
of its own but the first, which may stand without parentheses.

A group adds a level whether or not it adds an operation, and an operation adds none.  So an
item has at least as many groups inside one another as its tree has operations, and a level
may have one operation more than that.
-/

namespace ScoreFormula

open Token Forest

namespace Expr

/-- The operators on a way from the root of a tree to one of its leaves.  An operation without
operands is a leaf. -/
inductive Branch : Expr → List Operator → Prop
  | constant (value : Double) : Branch (.constant value) []
  | var (cell : Cell) : Branch (.var cell) []
  | bare (operator : Operator) : Branch (.operation operator []) [operator]
  | through {operator : Operator} {operands : List Expr} {e : Expr} {operators : List Operator} :
    e ∈ operands → Branch e operators →
      Branch (.operation operator operands) (operator :: operators)

theorem height_le_heightOfAll {e : Expr} {es : List Expr} (h : e ∈ es) :
    e.height ≤ heightOfAll es := by
  induction es with
  | nil => exact nomatch h
  | cons first rest ih =>
    rw [heightOfAll]
    rcases List.mem_cons.mp h with rfl | h
    · exact Nat.le_max_left _ _
    · exact Nat.le_trans (ih h) (Nat.le_max_right _ _)

theorem Branch.length_le_height {e : Expr} {operators : List Operator} (h : Branch e operators) :
    operators.length ≤ e.height := by
  induction h with
  | constant => exact Nat.le_refl 0
  | var => exact Nat.le_refl 0
  | bare operator =>
    rw [height]
    exact Nat.le_add_left 1 _
  | through hm _ ih =>
    rw [height, List.length_cons]
    exact Nat.succ_le_succ (Nat.le_trans ih (height_le_heightOfAll hm))

end Expr

namespace Forest

open ScoreFormula.Expr

theorem height_readAtom (atom : Text) (scope : Scope) : (readAtom atom scope).1.height = 0 := by
  rw [readAtom]
  cases Literal.read? atom with
  | some value => rfl
  | none => rfl

mutual

theorem height_le_of_readItem {limit level : Nat} {item : Item} {scope after : Scope} {e : Expr}
    (h : readItem limit level item scope = (.ok (some e), after)) : e.height ≤ depth item := by
  cases item with
  | atom text =>
    rw [readItem] at h
    by_cases ht : text.trim = []
    · rw [if_pos ht] at h
      cases h
    · rw [if_neg ht] at h
      cases h
      exact Nat.le_of_eq (height_readAtom text.trim scope)
  | group raw content =>
    rw [readItem] at h
    rw [depth]
    by_cases hd : limit < level + 1
    · rw [if_pos hd] at h
      cases h
    · rw [if_neg hd] at h
      cases hn : nullaryOf? content with
      | some operator =>
        rw [hn] at h
        cases h
        show 0 + 1 ≤ depthOfAll content + 1
        omega
      | none =>
        rw [hn] at h
        exact height_le_of_readLevel h

theorem height_le_of_readLevel {limit level : Nat} {items : List Item} {scope after : Scope}
    {e : Expr} (h : readLevel limit level items scope = (.ok (some e), after)) :
    e.height ≤ depthOfAll items + 1 := by
  match items with
  | [] =>
    rw [readLevel] at h
    cases h
  | [item] =>
    rw [readLevel] at h
    have hi := height_le_of_readItem h
    rw [depthOfAll, depthOfAll, Nat.max_zero]
    omega
  | symbol :: first :: rest =>
    rw [readLevel] at h
    cases hs : Operator.select? symbol.raw (first :: rest).length with
    | none =>
      rw [hs] at h
      cases h
    | some operator =>
      rw [hs] at h
      by_cases ha : (first :: rest).length ≠ operator.arity
      · simp only [if_pos ha] at h
        cases h
      · simp only [if_neg ha] at h
        rcases hr : readOperands limit level operator 0 (first :: rest) scope with
          ⟨cause | es, last⟩
        · rw [hr] at h
          cases h
        · rw [hr] at h
          cases h
          have ho := heightOfAll_le_of_readOperands hr
          rw [height, depthOfAll_cons symbol]
          omega

theorem heightOfAll_le_of_readOperands {limit level : Nat} {operator : Operator} {index : Nat}
    {items : List Item} {scope after : Scope} {es : List Expr}
    (h : readOperands limit level operator index items scope = (.ok es, after)) :
    heightOfAll es ≤ depthOfAll items := by
  match items with
  | [] =>
    rw [readOperands] at h
    cases h
    exact Nat.le_refl 0
  | item :: rest =>
    rw [readOperands] at h
    rcases hi : readItem limit level item scope with ⟨cause | _ | e, middle⟩
    · rw [hi] at h
      cases h
    · rw [hi] at h
      cases h
    · rw [hi] at h
      rcases hr : readOperands limit level operator (index + 1) rest middle with ⟨cause | es, last⟩
      · simp only [hr] at h
        cases h
      · simp only [hr] at h
        cases h
        have he := height_le_of_readItem hi
        have hes := heightOfAll_le_of_readOperands hr
        rw [heightOfAll, depthOfAll_cons]
        omega

end

/-- The items of a text that is one group between blanks. -/
theorem topLevel_of_parens {t body : Text} {items : List Item} (h : LaidOut t items)
    (hb : Balanced body) (ht : t.trim = parens body) :
    ∃ item, topLevel items = [item] := by
  obtain ⟨content, hc⟩ := laidOut_iff_balanced.mpr hb
  have htokens := tokenize_of_laidOut h
  rw [← tokenize_trim, ht, tokenize_parens hc] at htokens
  obtain ⟨item, hi, -⟩ := List.map_eq_singleton_iff.mp (Except.ok.inj htokens).symm
  refine ⟨tidy item, ?_⟩
  rw [topLevel_eq, hi, tidyAll, tidyAll]

end Forest

namespace Expr

theorem height_le_of_read {limit : Nat} {t : Text} {scope : Scope} {e : Expr}
    (h : (read limit t scope).1 = .ok (some e)) :
    e.height ≤ nesting t + 1 ∧
      ∀ body, Balanced body → t.trim = parens body → e.height ≤ nesting t := by
  cases hf : ofText? t with
  | error cause =>
    rw [read_of_error hf] at h
    cases h
  | ok items =>
    have hs := laidOut_of_ofText? hf
    have hn : nesting t = depthOfAll (topLevel items) := by
      rw [nesting_of_laidOut hs, depthOfAll_topLevel]
    rw [read_of_ok hf] at h
    rcases hr : readLevel limit 0 (topLevel items) scope with ⟨result, after⟩
    rw [hr] at h
    cases h
    rw [hn]
    refine ⟨height_le_of_readLevel hr, ?_⟩
    intro body hb ht
    obtain ⟨item, hi⟩ := topLevel_of_parens hs hb ht
    rw [hi, readLevel] at hr
    rw [hi, depthOfAll, depthOfAll, Nat.max_zero]
    exact height_le_of_readItem hr

/-- No way from the root of a tree that is read to a leaf goes through more operations than
groups are nested in the text, and the limit allows, but for one that needs no parentheses.
There is no such operation if the text is a single group. -/
theorem length_of_branch {limit : Nat} {t : Text} {scope : Scope} {e : Expr}
    (h : (read limit t scope).1 = .ok (some e)) {operators : List Operator}
    (hb : Branch e operators) :
    operators.length ≤ min limit (nesting t) + 1 ∧
      ∀ body, Balanced body → t.trim = parens body →
        operators.length ≤ min limit (nesting t) := by
  have hl := hb.length_le_height
  obtain ⟨hbare, hgroup⟩ := height_le_of_read h
  rw [Nat.min_eq_right (nesting_le_of_read h)]
  refine ⟨Nat.le_trans hl hbare, ?_⟩
  intro body hbody ht
  exact Nat.le_trans hl (hgroup body hbody ht)

/-- A limit that is just large enough, and a branch that is as long as it allows. -/
theorem length_of_branch_two_groups :
    ∃ (t body : Text) (e : Expr), t = " (abs (abs x))".toList ∧ body = "abs (abs x)".toList ∧
      e = operation .abs [operation .abs [var ⟨"x".toList, 0⟩]] ∧
      (read 2 t Scope.new).1 = .ok (some e) ∧ Branch e [.abs, .abs] ∧ Balanced body ∧
      t.trim = parens body ∧ [Operator.abs, Operator.abs].length ≤ min 2 (nesting t) := by
  have hf : ofText? " (abs (abs x))".toList = .ok [.group "(abs (abs x))".toList
      [.atom "abs".toList, .group "(abs x)".toList [.atom "abs".toList, .atom "x".toList]]] := rfl
  have hr : (read 2 " (abs (abs x))".toList Scope.new).1 =
      .ok (some (operation .abs [operation .abs [var ⟨"x".toList, 0⟩]])) := by
    rw [read_of_ok hf]
    rfl
  have hbranch : Branch (operation .abs [operation .abs [var ⟨"x".toList, 0⟩]]) [.abs, .abs] :=
    .through List.mem_cons_self (.through List.mem_cons_self (.var _))
  have hbody : ofText? "abs (abs x)".toList = .ok [.atom "abs".toList,
      .group "(abs x)".toList [.atom "abs".toList, .atom "x".toList]] := rfl
  have hb := (laidOut_of_ofText? hbody).balanced
  have ht : Text.trim " (abs (abs x))".toList = parens "abs (abs x)".toList := by decide
  exact ⟨_, _, _, rfl, rfl, rfl, hr, hbranch, hb, ht, (length_of_branch hr hbranch).2 _ hb ht⟩

end Expr
end ScoreFormula
