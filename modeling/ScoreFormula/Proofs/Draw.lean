import Mathlib.Data.List.Nodup
import ScoreFormula.Expr.Evaluate

/-!
# The draws of a tree

`places` lists where the nodes of an operator stand in a tree, from left to right and each
node behind its operands.  `dealt` gives the node with number `i` in that list the draw that
lies `i` behind the draws made before, and `valueGiven?` is the value of a tree whose random
nodes have their draws already: no count of draws goes through it, and the order in which
operands are taken is nothing to it.

`evaluate?_eq` says that evaluating a tree comes to the same and makes as many draws as there
are random nodes.
-/

namespace ScoreFormula

/-- How many draws a rule makes when it is applied. -/
def Rule.draws : Rule → Draws
  | draw => ⟨1, 0⟩
  | drawBetween _ => ⟨0, 1⟩
  | _ => ⟨0, 0⟩

/-- The value for the given operand values and, if the rule makes a draw, the given draw. -/
def Rule.valueGiven? : Rule → List Double → Double → Option Double
  | draw, [], u => some u
  | unary f, [a], _ => some (f a)
  | binary f, [a, b], _ => some (f a b)
  | drawBetween f, [a, b], u => some (f a b u)
  | ternary f, [a, b, c], _ => some (f a b c)
  | _, _, _ => none

/-- How many draws have been made for an operator. -/
def Draws.made (d : Draws) : Operator → Nat
  | .rand => d.rand
  | .randIn => d.randIn
  | _ => 0

/-- The operands that lead from the root of a tree to a node, each by its index. -/
abbrev Place := List Nat

namespace Expr

/-- The place of the root of an operation, if it is a node of the operator. -/
def atRoot (op operator : Operator) : List Place := if op = operator then [[]] else []

mutual

/-- The places of an operator's nodes, from left to right, operands before their operation. -/
def places (operator : Operator) : Expr → List Place
  | constant _ => []
  | var _ => []
  | operation op operands =>
    placesOfAll operator 0 operands ++ atRoot op operator

def placesOfAll (operator : Operator) (index : Nat) : List Expr → List Place
  | [] => []
  | e :: rest => (e.places operator).map (index :: ·) ++ placesOfAll operator (index + 1) rest

end

mutual

/-- The value of a tree in which the node of an operator at a place has the given draw. -/
def valueGiven? (store : Store) : Expr → (Operator → Place → Double) → Option Double
  | constant value, _ => some value
  | var cell, _ => some (store.read cell)
  | operation operator operands, given =>
    match valuesGiven? store 0 operands given with
    | none => none
    | some values => operator.rule.valueGiven? values (given operator [])

def valuesGiven? (store : Store) (index : Nat) :
    List Expr → (Operator → Place → Double) → Option (List Double)
  | [], _ => some []
  | e :: rest, given =>
    match e.valueGiven? store fun operator place => given operator (index :: place) with
    | none => none
    | some value => (valuesGiven? store (index + 1) rest given).map (value :: ·)

end

/-- The nested node draws before the node that it bounds. -/
example : (operation .randIn
    [operation .randIn [constant 0, constant 1], operation .rand []]).places .randIn =
      [[0], []] := rfl

/-- The draws that the nodes of a tree are given if `d` have been made before. -/
def dealt (e : Expr) (d : Draws) (operator : Operator) (place : Place) : Double :=
  draw (d.made operator + (e.places operator).idxOf place)

end Expr

/-! ## Rules -/

theorem Operator.draws_rule (operator : Operator) :
    operator.rule.draws =
      ⟨if operator = .rand then 1 else 0, if operator = .randIn then 1 else 0⟩ := by
  cases operator <;> rfl

theorem Rule.value?_eq {rule : Rule} {d : Draws} {u : Double}
    (hr : rule.draws.rand = 1 → u = ScoreFormula.draw d.rand)
    (hi : rule.draws.randIn = 1 → u = ScoreFormula.draw d.randIn) (args : List Double) :
    rule.value? args d =
      (rule.valueGiven? args u).map fun value =>
        (value, d.advance rule.draws.rand rule.draws.randIn) := by
  cases rule with
  | draw => rcases args with _ | ⟨a, rest⟩ <;> simp [value?, valueGiven?, draws, hr rfl]
  | unary f =>
    rcases args with _ | ⟨a, _ | ⟨b, rest⟩⟩ <;>
      simp [value?, valueGiven?, draws, Draws.advance_zero]
  | binary f =>
    rcases args with _ | ⟨a, _ | ⟨b, _ | ⟨c, rest⟩⟩⟩ <;>
      simp [value?, valueGiven?, draws, Draws.advance_zero]
  | ternary f =>
    rcases args with _ | ⟨a, _ | ⟨b, _ | ⟨c, _ | ⟨e, rest⟩⟩⟩⟩ <;>
      simp [value?, valueGiven?, draws, Draws.advance_zero]
  | drawBetween f =>
    rcases args with _ | ⟨a, _ | ⟨b, _ | ⟨c, rest⟩⟩⟩ <;>
      simp [value?, valueGiven?, draws, hi rfl]

/-! ## Dealing draws -/

/-- The draws made once the nodes at some places have had theirs. -/
def Draws.past (d : Draws) (places : Operator → List Place) : Draws :=
  d.advance (places .rand).length (places .randIn).length

/-- Nodes have the draws that follow `d`, in the order of their places. -/
def Deals (d : Draws) (places : Operator → List Place) (given : Operator → Place → Double) :
    Prop :=
  ∀ operator, operator = .rand ∨ operator = .randIn → ∀ i place,
    (places operator)[i]? = some place → given operator place = draw (d.made operator + i)

namespace Deals

variable {d : Draws} {places : Operator → List Place} {given : Operator → Place → Double}

theorem made_past {operator : Operator} (h : operator = .rand ∨ operator = .randIn) :
    (d.past places).made operator = d.made operator + (places operator).length := by
  rcases h with rfl | rfl <;> rfl

theorem past_append (others : Operator → List Place) :
    d.past (fun operator => places operator ++ others operator) = (d.past places).past others := by
  simp only [Draws.past, Draws.advance_advance, List.length_append]

theorem append (others : Operator → List Place)
    (h : Deals d (fun operator => places operator ++ others operator) given) :
    Deals d places given ∧ Deals (d.past places) others given := by
  constructor
  · intro operator ho i place hp
    have hlt := (List.getElem?_eq_some_iff.mp hp).1
    exact h operator ho i place (by rw [List.getElem?_append_left hlt, hp])
  · intro operator ho i place hp
    rw [made_past ho, Nat.add_assoc]
    refine h operator ho _ place ?_
    rw [List.getElem?_append_right (Nat.le_add_right _ i), Nat.add_sub_cancel_left, hp]

theorem map_cons {index : Nat}
    (h : Deals d (fun operator => (places operator).map (index :: ·)) given) :
    Deals d places fun operator place => given operator (index :: place) := by
  intro operator ho i place hp
  exact h operator ho i (index :: place) (by rw [List.getElem?_map, hp]; rfl)

theorem past_map {f : Place → Place} :
    d.past (fun operator => (places operator).map f) = d.past places := by
  simp only [Draws.past, List.length_map]

end Deals

namespace Expr

theorem past_atRoot (d : Draws) (op : Operator) :
    d.past (atRoot op) = d.advance op.rule.draws.rand op.rule.draws.randIn := by
  rw [Operator.draws_rule, Draws.past, atRoot, atRoot]
  by_cases hr : op = .rand <;> by_cases hi : op = .randIn <;> simp [hr, hi]

theorem value?_of_deals {d : Draws} {op : Operator} {given : Operator → Place → Double}
    (h : Deals d (atRoot op) given) (args : List Double) :
    op.rule.value? args d =
      (op.rule.valueGiven? args (given op [])).map fun value => (value, d.past (atRoot op)) := by
  have hu : ∀ operator, operator = .rand ∨ operator = .randIn → op = operator →
      given op [] = draw (d.made operator) := by
    rintro operator ho rfl
    exact h op ho 0 [] (by simp [atRoot])
  rw [past_atRoot]
  refine Rule.value?_eq ?_ ?_ args
  · intro hr
    rw [Operator.draws_rule] at hr
    exact hu .rand (Or.inl rfl) (by simpa using hr)
  · intro hi
    rw [Operator.draws_rule] at hi
    exact hu .randIn (Or.inr rfl) (by simpa using hi)

mutual

theorem evaluate?_of_deals (store : Store) :
    ∀ (e : Expr) (d : Draws) (given : Operator → Place → Double),
      Deals d (fun operator => e.places operator) given →
        evaluate? store e d =
          (e.valueGiven? store given).map fun value =>
            (value, d.past fun operator => e.places operator)
  | constant _, _, _, _ => rfl
  | var _, _, _, _ => rfl
  | operation op operands, d, given, h => by
    have hsplit := Deals.append (atRoot op) h
    have ho := evaluateAll?_of_deals store operands 0 d given hsplit.1
    have hpast : (d.past fun operator => (operation op operands).places operator) = _ :=
      Deals.past_append (atRoot op)
    rw [evaluate?, ho, valueGiven?, hpast]
    cases valuesGiven? store 0 operands given with
    | none => rfl
    | some values => exact value?_of_deals hsplit.2 values

theorem evaluateAll?_of_deals (store : Store) :
    ∀ (es : List Expr) (index : Nat) (d : Draws) (given : Operator → Place → Double),
      Deals d (fun operator => placesOfAll operator index es) given →
        evaluateAll? store es d =
          (valuesGiven? store index es given).map fun values =>
            (values, d.past fun operator => placesOfAll operator index es)
  | [], _, _, _, _ => rfl
  | e :: rest, index, d, given, h => by
    have hsplit := Deals.append (fun operator => placesOfAll operator (index + 1) rest) h
    have he := evaluate?_of_deals store e d _ hsplit.1.map_cons
    have hr := evaluateAll?_of_deals store rest (index + 1) _ given hsplit.2
    have hpast : (d.past fun operator => placesOfAll operator index (e :: rest)) = _ :=
      Deals.past_append fun operator => placesOfAll operator (index + 1) rest
    rw [Deals.past_map] at hr hpast
    rw [evaluateAll?, he, valuesGiven?, hpast]
    cases e.valueGiven? store fun operator place => given operator (index :: place) with
    | none => rfl
    | some value =>
      simp only [Option.map_some, hr]
      cases valuesGiven? store (index + 1) rest given with
      | none => rfl
      | some values => rfl

end

/-! ## Each node has a place of its own -/

theorem exists_of_mem_placesOfAll {operator : Operator} {index : Nat} {es : List Expr}
    {place : Place} (h : place ∈ placesOfAll operator index es) :
    ∃ first rest, place = first :: rest ∧ index ≤ first := by
  induction es generalizing index with
  | nil => exact absurd h (by simp [placesOfAll])
  | cons e rest ih =>
    rw [placesOfAll, List.mem_append] at h
    rcases h with h | h
    · obtain ⟨inner, -, rfl⟩ := List.mem_map.mp h
      exact ⟨index, inner, rfl, Nat.le_refl index⟩
    · obtain ⟨first, inner, hplace, hle⟩ := ih h
      exact ⟨first, inner, hplace, Nat.le_of_succ_le hle⟩

mutual

theorem nodup_places (operator : Operator) : ∀ e : Expr, (e.places operator).Nodup
  | constant _ => List.nodup_nil
  | var _ => List.nodup_nil
  | operation op operands => by
    rw [places]
    refine List.Nodup.append (nodup_placesOfAll operator 0 operands) ?_ ?_
    · rw [atRoot]
      by_cases h : op = operator
      · rw [if_pos h]
        exact List.nodup_singleton _
      · rw [if_neg h]
        exact List.nodup_nil
    · intro place hm hroot
      obtain ⟨first, rest, rfl, -⟩ := exists_of_mem_placesOfAll hm
      by_cases h : op = operator <;> simp [atRoot, h] at hroot

theorem nodup_placesOfAll (operator : Operator) (index : Nat) :
    ∀ es : List Expr, (placesOfAll operator index es).Nodup
  | [] => List.nodup_nil
  | e :: rest => by
    rw [placesOfAll]
    refine List.Nodup.append ?_ (nodup_placesOfAll operator (index + 1) rest) ?_
    · exact (nodup_places operator e).map fun _ _ h => (List.cons.inj h).2
    · intro place hm hrest
      obtain ⟨inner, -, rfl⟩ := List.mem_map.mp hm
      obtain ⟨first, others, hplace, hle⟩ := exists_of_mem_placesOfAll hrest
      obtain ⟨rfl, -⟩ := List.cons.inj hplace
      omega

end

theorem deals_dealt (e : Expr) (d : Draws) :
    Deals d (fun operator => e.places operator) (e.dealt d) := by
  intro operator _ i place hp
  obtain ⟨hlt, rfl⟩ := List.getElem?_eq_some_iff.mp hp
  rw [dealt, (nodup_places operator e).idxOf_getElem i hlt]

/-- A tree has the value that it has with its draws dealt, and evaluating it makes as many
draws as it has random nodes. -/
theorem evaluate?_eq (store : Store) (e : Expr) (d : Draws) :
    evaluate? store e d =
      (e.valueGiven? store (e.dealt d)).map fun value =>
        (value, d.advance (e.places .rand).length (e.places .randIn).length) :=
  evaluate?_of_deals store e d _ (e.deals_dealt d)

theorem evaluate_of_wellFormed {e : Expr} (h : e.WellFormed) (store : Store) (d : Draws) :
    e.valueGiven? store (e.dealt d) = some (evaluate store e d).1 ∧
      (evaluate store e d).2 = d.advance (e.places .rand).length (e.places .randIn).length := by
  have he := evaluate?_eq store e d
  rw [evaluate?_eq_some h] at he
  obtain ⟨value, hvalue, hpair⟩ := Option.map_eq_some_iff.mp he.symm
  rw [← hpair]
  exact ⟨hvalue, rfl⟩

/-! ## The draws that matter to a tree -/

/-- The same draws come next for each random operator that the tree has a node of. -/
def SameDraws (e : Expr) (d d' : Draws) : Prop :=
  ∀ operator, operator = .rand ∨ operator = .randIn → e.places operator ≠ [] →
    d.made operator = d'.made operator

theorem SameDraws.deals {e : Expr} {d d' : Draws} (h : e.SameDraws d d') :
    Deals d' (fun operator => e.places operator) (e.dealt d) := by
  intro operator ho i place (hp : (e.places operator)[i]? = some place)
  have hne : e.places operator ≠ [] := by
    intro hnil
    rw [hnil] at hp
    cases hp
  rw [← h operator ho hne]
  exact e.deals_dealt d operator ho i place hp

/-- Draws of an operator that the tree has no node of do not change its value. -/
theorem evaluate_of_sameDraws {e : Expr} {d d' : Draws} (h : e.SameDraws d d') (store : Store) :
    (evaluate store e d).1 = (evaluate store e d').1 := by
  have hd := evaluate?_eq store e d
  have hd' := evaluate?_of_deals store e d' (e.dealt d) h.deals
  rw [evaluate, evaluate, hd, hd']
  cases e.valueGiven? store (e.dealt d) with
  | none => rfl
  | some value => rfl

theorem SameDraws.advance {e : Expr} {d d' : Draws} (h : e.SameDraws d d') (p q : Nat) :
    e.SameDraws (d.advance p q) (d'.advance p q) := by
  rintro operator (rfl | rfl) hne
  · exact congrArg (· + p) (h .rand (Or.inl rfl) hne)
  · exact congrArg (· + q) (h .randIn (Or.inr rfl) hne)

end Expr
end ScoreFormula
