import Mathlib.Data.List.Basic
import ScoreFormula.Proofs.WellFormed

/-!
# What evaluation asks of operators

A function of the catalogue takes its arguments by their places and does not count them.
`Rule.call?` says so, and is nothing where a function takes an argument that is not there.
`trace?` evaluates a tree in this way and keeps the calls made.

A tree that can be obtained never comes to such a call: every operation in it has as many
operands as the catalogue lists, so its function is called with as many arguments
(`calls_of_run`).
-/

namespace ScoreFormula

/-- The number of operands that the catalogue lists with an operator. -/
def Operator.listedArity : Operator → Nat
  | rand => 0
  | not | sign | ln | ln1plus | log2 | abs | negate | exp | sigmoid | tanh => 1
  | floor | ceil | round | sqrt | cos | sin | tan => 1
  | equal | notEqual | greater | greaterEqual | less | lessEqual | or | and => 2
  | add | subtract | multiply | divide | power | max | min | remainder | randIn => 2
  | choose | within => 3

theorem Operator.arity_eq_listedArity (operator : Operator) :
    operator.arity = operator.listedArity := by
  cases operator <;> rfl

theorem Operator.listedArity_le (operator : Operator) : operator.listedArity ≤ 3 := by
  cases operator <;> decide

namespace Rule

/-- The value for operand values that are taken by their places, however many there are. -/
def call? (rule : Rule) (arguments : List Double) (d : Draws) : Option (Double × Draws) :=
  match rule with
  | draw => some (ScoreFormula.draw d.rand, d.advance 1 0)
  | unary f => do
    let a ← arguments[0]?
    some (f a, d)
  | binary f => do
    let a ← arguments[0]?
    let b ← arguments[1]?
    some (f a b, d)
  | drawBetween f => do
    let a ← arguments[0]?
    let b ← arguments[1]?
    some (f a b (ScoreFormula.draw d.randIn), d.advance 0 1)
  | ternary f => do
    let a ← arguments[0]?
    let b ← arguments[1]?
    let c ← arguments[2]?
    some (f a b c, d)

/-- With the right number of arguments it is no matter whether they are counted. -/
theorem call?_eq_value? {rule : Rule} {arguments : List Double} (h : arguments.length = rule.arity)
    (d : Draws) : rule.call? arguments d = rule.value? arguments d := by
  cases rule with
  | draw =>
    obtain rfl := List.length_eq_zero_iff.mp h
    rfl
  | unary f =>
    obtain ⟨a, rfl⟩ := List.length_eq_one_iff.mp h
    rfl
  | binary f =>
    obtain ⟨a, b, rfl⟩ := List.length_eq_two.mp h
    rfl
  | drawBetween f =>
    obtain ⟨a, b, rfl⟩ := List.length_eq_two.mp h
    rfl
  | ternary f =>
    obtain ⟨a, b, c, rfl⟩ := List.length_eq_three.mp h
    rfl

end Rule

/-- An operator and the arguments that its function is called with. -/
structure Call where
  operator : Operator
  arguments : List Double

namespace Expr

mutual

/-- The calls made while a tree is evaluated, one after another, with what `evaluate?` gives.
There is nothing if a function takes an argument that is not there. -/
def trace? (store : Store) : Expr → Draws → Option (List Call × Double × Draws)
  | constant value, d => some ([], value, d)
  | var cell, d => some ([], store.read cell, d)
  | operation operator operands, d =>
    match traceAll? store operands d with
    | none => none
    | some (calls, values, d) =>
      (operator.rule.call? values d).map fun result => (calls ++ [⟨operator, values⟩], result)

def traceAll? (store : Store) : List Expr → Draws → Option (List Call × List Double × Draws)
  | [], d => some ([], [], d)
  | e :: rest, d =>
    match trace? store e d with
    | none => none
    | some (calls, value, d) =>
      match traceAll? store rest d with
      | none => none
      | some (others, values, d) => some (calls ++ others, value :: values, d)

end

mutual

/-- The operators of a tree, those of the operands before the one that is applied to them. -/
def operators : Expr → List Operator
  | constant _ => []
  | var _ => []
  | operation operator operands => operatorsOfAll operands ++ [operator]

def operatorsOfAll : List Expr → List Operator
  | [] => []
  | e :: rest => e.operators ++ operatorsOfAll rest

end

/-- The calls are those of these operators, each with as many arguments as it takes. -/
structure CallsOf (operators : List Operator) (calls : List Call) : Prop where
  operators_eq : calls.map Call.operator = operators
  length_eq : ∀ call ∈ calls, call.arguments.length = call.operator.arity

theorem callsOf_nil : CallsOf [] [] :=
  ⟨rfl, fun _ hm => nomatch hm⟩

theorem CallsOf.append {operators others : List Operator} {calls calls' : List Call}
    (h : CallsOf operators calls) (h' : CallsOf others calls') :
    CallsOf (operators ++ others) (calls ++ calls') where
  operators_eq := by rw [List.map_append, h.operators_eq, h'.operators_eq]
  length_eq call hm := (List.mem_append.mp hm).elim (h.length_eq call) (h'.length_eq call)

theorem callsOf_singleton {operator : Operator} {values : List Double}
    (h : values.length = operator.arity) : CallsOf [operator] [⟨operator, values⟩] where
  operators_eq := rfl
  length_eq call hm := by
    rw [List.mem_singleton.mp hm]
    exact h

mutual

/-- Where evaluation gives a value, so does the trace, by calls that are in order. -/
theorem exists_trace (store : Store) :
    ∀ (e : Expr) {d : Draws} {result : Double × Draws}, evaluate? store e d = some result →
      ∃ calls, trace? store e d = some (calls, result) ∧ CallsOf e.operators calls
  | constant value, d, result, h => by
    cases h
    exact ⟨[], rfl, callsOf_nil⟩
  | var cell, d, result, h => by
    cases h
    exact ⟨[], rfl, callsOf_nil⟩
  | operation operator operands, d, result, h => by
    rw [evaluate?] at h
    rcases hv : evaluateAll? store operands d with _ | ⟨values, d'⟩
    · rw [hv] at h
      cases h
    · rw [hv] at h
      dsimp only at h
      have hl : values.length = operator.arity :=
        Rule.value?_isSome_iff.mp (Option.isSome_iff_exists.mpr ⟨result, h⟩)
      obtain ⟨calls, ht, hc⟩ := exists_traceAll store operands hv
      refine ⟨calls ++ [⟨operator, values⟩], ?_, hc.append (callsOf_singleton hl)⟩
      rw [trace?, ht]
      dsimp only
      rw [Rule.call?_eq_value? hl, h]
      rfl

theorem exists_traceAll (store : Store) :
    ∀ (es : List Expr) {d : Draws} {values : List Double} {d' : Draws},
      evaluateAll? store es d = some (values, d') →
        ∃ calls, traceAll? store es d = some (calls, values, d') ∧
          CallsOf (operatorsOfAll es) calls
  | [], d, values, d', h => by
    cases h
    exact ⟨[], rfl, callsOf_nil⟩
  | e :: rest, d, values, d', h => by
    rw [evaluateAll?] at h
    rcases he : evaluate? store e d with _ | ⟨value, middle⟩
    · rw [he] at h
      cases h
    · rw [he] at h
      dsimp only at h
      rcases hr : evaluateAll? store rest middle with _ | ⟨others, last⟩
      · rw [hr] at h
        cases h
      · rw [hr] at h
        cases h
        obtain ⟨calls, ht, hc⟩ := exists_trace store e he
        obtain ⟨calls', ht', hc'⟩ := exists_traceAll store rest hr
        refine ⟨calls ++ calls', ?_, hc.append hc'⟩
        rw [traceAll?, ht]
        dsimp only
        rw [ht']

end

/-! ## The operations in a tree -/

/-- The first tree is the second, or stands somewhere in it. -/
inductive Within (e : Expr) : Expr → Prop
  | self : Within e e
  | operand {operator : Operator} {operands : List Expr} {operand : Expr} :
    operand ∈ operands → Within e operand → Within e (.operation operator operands)

theorem WellFormed.within {e whole : Expr} (h : Within e whole) (hw : whole.WellFormed) :
    e.WellFormed := by
  induction h with
  | self => exact hw
  | operand hm _ ih => exact ih (allWellFormed_iff.mp hw.2 _ hm)

end Expr

namespace Session

open State

/-- A step that fails to read or to build keeps no tree. -/
theorem State.trees_of_unreadable (s : State) (step : Step) (cause : ReadError) :
    (s.step step).1 = .unreadable cause → (s.step step).2.trees = s.trees := by
  cases step with
  | read key t limit keep =>
    rw [State.step]
    rcases Expr.read limit t (s.scope key) with ⟨cause | _ | e, scope⟩
    · exact fun _ => rfl
    · exact fun _ => rfl
    · intro h
      cases h
  | constant value keep =>
    intro h
    cases h
  | var cell keep =>
    rw [State.step]
    rcases s.cells.lookup cell with _ | c
    · exact fun _ => rfl
    · intro h
      cases h
  | apply symbol operands keep =>
    rw [State.step]
    rcases Operator.ofSymbol? symbol with _ | operator
    · exact fun _ => rfl
    · dsimp only
      rcases s.treesOf operands with tree | es
      · exact fun _ => rfl
      · dsimp only
        rcases Expr.apply operator es with cause | e
        · exact fun _ => rfl
        · intro h
          cases h
  | _ =>
    -- No other step keeps a tree.
    rw [State.step]
    repeat' split
    all_goals exact fun _ => rfl

/-- Every tree of a session can be obtained by reading and building.  In such a tree every
operation, at any depth, has an operator of the catalogue and as many operands as are listed
there, which is at most three.  So in every state its evaluation calls the functions of its
operators, from left to right and operands first, each with as many arguments as are listed,
and no function takes an argument that is not there.  A step that fails to read or to build
leaves no tree behind. -/
theorem calls_of_run (steps : List Step) :
    (∀ key e, (start.after steps).trees.lookup key = some e → e.Obtainable) ∧
      (∀ e : Expr, e.Obtainable →
        (∀ operator operands, Expr.Within (.operation operator operands) e →
          Operator.ofSymbol? operator.symbol = some operator ∧
            operands.length = operator.listedArity ∧ operands.length ≤ 3) ∧
        ∀ store d, ∃ calls, e.trace? store d = some (calls, e.evaluate store d) ∧
          calls.map Call.operator = e.operators ∧
          ∀ call ∈ calls, call.arguments.length = call.operator.listedArity) ∧
      ∀ step cause, ((start.after steps).step step).1 = .unreadable cause →
        ((start.after steps).step step).2.trees = (start.after steps).trees := by
  refine ⟨?_, ?_, ?_⟩
  · exact kept_after Expr.closed_obtainable kept_start steps
  · intro e he
    have hw : e.WellFormed := he.of_closed Expr.closed_wellFormed
    constructor
    · intro operator operands hin
      have hl := (hw.within hin).1
      rw [Operator.arity_eq_listedArity] at hl
      refine ⟨Operator.ofSymbol?_symbol operator, hl, ?_⟩
      rw [hl]
      exact operator.listedArity_le
    · intro store d
      obtain ⟨calls, ht, hc⟩ := Expr.exists_trace store e (Expr.evaluate?_eq_some (d := d) hw)
      refine ⟨calls, ht, hc.operators_eq, fun call hm => ?_⟩
      rw [hc.length_eq call hm, Operator.arity_eq_listedArity]
  · exact trees_of_unreadable _

/-- A refused operation leaves the tree of its key as it was. -/
theorem calls_of_run_refused :
    ∃ s e, s = start.after [.constant 1 ['c'], .apply "rand".toList [] ['r'],
        .apply "if".toList [['c'], ['r'], ['c']] ['i']] ∧
      s.trees.lookup ['i'] = some e ∧ e.Obtainable ∧
      (∀ store d, ∃ calls, e.trace? store d = some (calls, e.evaluate store d) ∧
        calls.map Call.operator = [.rand, .choose]) ∧
      (s.step (.apply "+".toList [['c']] ['i'])).1 = .unreadable (.arityMismatch .add 1) ∧
      (s.step (.apply "+".toList [['c']] ['i'])).2.trees.lookup ['i'] = some e := by
  obtain ⟨hkept, hcalls, hfail⟩ := calls_of_run [.constant 1 ['c'], .apply "rand".toList [] ['r'],
    .apply "if".toList [['c'], ['r'], ['c']] ['i']]
  have he := hkept ['i'] _ rfl
  refine ⟨_, _, rfl, rfl, he, fun store d => ?_, rfl, ?_⟩
  · obtain ⟨calls, ht, ho, -⟩ := (hcalls _ he).2 store d
    exact ⟨calls, ht, ho⟩
  · rw [hfail (.apply "+".toList [['c']] ['i']) (.arityMismatch .add 1) rfl]
    rfl

end Session
end ScoreFormula
