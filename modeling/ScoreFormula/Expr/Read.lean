import ScoreFormula.Decimal.Numeral
import ScoreFormula.Expr

/-!
# Reading formulas

A text is read one nesting level at a time.  Its tokens are nothing, a group, an
atom, or an operator symbol before operands; the content of a group and each operand
are read as texts of their own, a group's content one level deeper.

Names are bound in the registry as their atoms are read, so what stands to the left
of an error stays bound.
-/

namespace ScoreFormula

/-- The outcome of reading: a tree, nothing where the text holds nothing, or an error. -/
abbrev ReadResult := Except ReadError (Option Expr)

namespace Expr

def defaultLimit : Nat := 512

/-- An atom is a constant if it is a literal and a variable otherwise. -/
def readAtom (atom : Text) (scope : Scope) : Expr × Scope :=
  match Literal.read? atom with
  | some value => (.constant value, scope)
  | none =>
    match scope.intern atom with
    | (cell, scope) => (.var cell, scope)

/-- Reads operands from left to right up to the first that is an error or holds
nothing; `index` is the place of the first. -/
def readOperands (operator : Operator) :
    Nat → List (Scope → ReadResult × Scope) → Scope → Except ReadError (List Expr) × Scope
  | _, [], scope => (.ok [], scope)
  | index, read :: rest, scope =>
    match read scope with
    | (.error e, scope) => (.error e, scope)
    | (.ok none, scope) => (.error (.emptyOperand operator index), scope)
    | (.ok (some operand), scope) =>
      match readOperands operator (index + 1) rest scope with
      | (.error e, scope) => (.error e, scope)
      | (.ok operands, scope) => (.ok (operand :: operands), scope)

/-- Reads an operator symbol and the operands after it.  The symbol and the number of
operands are settled before any operand is read. -/
def readOperation (symbol : Text) (operands : List (Scope → ReadResult × Scope))
    (scope : Scope) : ReadResult × Scope :=
  match Operator.select? symbol operands.length with
  | none => (.error (.unsupportedOperator symbol), scope)
  | some operator =>
    if operands.length ≠ operator.arity then
      (.error (.arityMismatch operator operands.length), scope)
    else
      match readOperands operator 0 operands scope with
      | (.error e, scope) => (.error e, scope)
      | (.ok operands, scope) => ((apply operator operands).map some, scope)

/-- Reads a text inside `depth` groups, of which at most `limit` may be nested.  A
group that holds only the symbol of an operator without operands is that operator. -/
def readAt (limit depth : Nat) (input : Text) (scope : Scope) : ReadResult × Scope :=
  match _h : tokenize input with
  | .error cause => (.error (.imbalance cause), scope)
  | .ok [] => (.ok none, scope)
  | .ok [token] =>
    if _hg : Token.isGroup token then
      if limit < depth + 1 then (.error (.tooDeep limit), scope)
      else
        match Operator.nullary? (Token.strip token).trim with
        | some operator => ((apply operator []).map some, scope)
        | none => readAt limit (depth + 1) (Token.strip token) scope
    else
      match readAtom token scope with
      | (leaf, scope) => (.ok (some leaf), scope)
  | .ok (symbol :: first :: rest) =>
    readOperation symbol
      ((first :: rest).attach.map fun operand => readAt limit depth operand.1) scope
termination_by input.length
decreasing_by
  · exact Token.length_strip_lt_of_tokenize _h _hg
  · exact Token.length_lt_of_mem_tail _h operand.2

def read (limit : Nat) (input : Text) (scope : Scope) : ReadResult × Scope :=
  readAt limit 0 input scope

/-- Reading a text is settled by its tokens. -/
theorem readAt_eq (limit depth : Nat) (input : Text) (scope : Scope) :
    readAt limit depth input scope =
      match tokenize input with
      | .error cause => (.error (.imbalance cause), scope)
      | .ok [] => (.ok none, scope)
      | .ok [token] =>
        if Token.isGroup token then
          if limit < depth + 1 then (.error (.tooDeep limit), scope)
          else
            match Operator.nullary? (Token.strip token).trim with
            | some operator => ((apply operator []).map some, scope)
            | none => readAt limit (depth + 1) (Token.strip token) scope
        else
          match readAtom token scope with
          | (leaf, scope) => (.ok (some leaf), scope)
      | .ok (symbol :: first :: rest) =>
        readOperation symbol ((first :: rest).map (readAt limit depth)) scope := by
  rw [readAt]
  split <;> simp_all

/-- Operands are all read if the first is read and then the others are. -/
theorem readOperands_cons_eq_ok {operator : Operator} {index : Nat}
    {read : Scope → ReadResult × Scope} {rest : List (Scope → ReadResult × Scope)}
    {scope after : Scope} {es : List Expr} :
    readOperands operator index (read :: rest) scope = (.ok es, after) ↔
      ∃ e others middle, read scope = (.ok (some e), middle) ∧
        readOperands operator (index + 1) rest middle = (.ok others, after) ∧ es = e :: others := by
  rw [readOperands]
  rcases read scope with ⟨cause | _ | e, middle⟩
  · simp
  · simp
  · rcases hr : readOperands operator (index + 1) rest middle with ⟨cause | others, last⟩
    · simp only [hr]
      constructor
      · intro h
        cases h
      · rintro ⟨_, _, _, he, ho, -⟩
        cases he
        cases hr.symm.trans ho
    · simp only [hr]
      constructor
      · intro h
        cases h
        exact ⟨e, others, middle, rfl, hr, rfl⟩
      · rintro ⟨_, _, _, he, ho, rfl⟩
        cases he
        cases hr.symm.trans ho
        rfl

/-- Operands stop at the first, which is an error or holds nothing, or at a later one. -/
theorem readOperands_cons_eq_error {operator : Operator} {index : Nat}
    {read : Scope → ReadResult × Scope} {rest : List (Scope → ReadResult × Scope)}
    {scope after : Scope} {e : ReadError} :
    readOperands operator index (read :: rest) scope = (.error e, after) ↔
      read scope = (.error e, after) ∨
        (read scope = (.ok none, after) ∧ e = .emptyOperand operator index) ∨
          ∃ found middle, read scope = (.ok (some found), middle) ∧
            readOperands operator (index + 1) rest middle = (.error e, after) := by
  rw [readOperands]
  rcases read scope with ⟨cause | _ | found, middle⟩
  · simp
  · simp [eq_comm, and_comm]
  · rw [or_iff_right (by simp), or_iff_right (by simp)]
    constructor
    · intro h
      refine ⟨found, middle, rfl, ?_⟩
      rcases hr : readOperands operator (index + 1) rest middle with ⟨cause | others, last⟩
      · simp only [hr] at h
        exact h
      · simp only [hr] at h
        cases h
    · rintro ⟨_, _, he, hr⟩
      cases he
      simp only [hr]

end Expr
end ScoreFormula
