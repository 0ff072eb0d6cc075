import ScoreFormula.Proofs.Binding
import ScoreFormula.Proofs.Forest.Read

/-!
# The course of a reading

Whether a reading stops, where, and which names it has met by then can be told from the
forest alone.  `stop?` gives the place as a path: the places of the operands that lead from
the outermost operation to the construct at fault.  Groups around a single item add
nothing to a path.  `left` lists the names at the operands to the left of a path, and
`names` those of a whole item.

`course_readLevel` ties them to the reader: the scope afterwards has exactly these names
bound, one after another from left to right, and nothing else has happened to it.
-/

namespace ScoreFormula
namespace Forest

mutual

/-- The names at the operand places of an item, from left to right. -/
def names : Item → List Text
  | .atom text =>
    if text.trim = [] then []
    else
      match Literal.read? text.trim with
      | some _ => []
      | none => [text.trim]
  | .group _ content =>
    match nullaryOf? content with
    | some _ => []
    | none => namesOfLevel content

def namesOfLevel : List Item → List Text
  | [] => []
  | [item] => names item
  | _ :: first :: rest => namesOfAll (first :: rest)

def namesOfAll : List Item → List Text
  | [] => []
  | item :: rest => names item ++ namesOfAll rest

end

mutual

/-- Whether an item holds nothing that could be read. -/
def isVoid : Item → Bool
  | .atom text => decide (text.trim = [])
  | .group _ content =>
    match nullaryOf? content with
    | some _ => false
    | none => isVoidLevel content

def isVoidLevel : List Item → Bool
  | [] => true
  | [item] => isVoid item
  | _ :: _ :: _ => false

end

/-- The places of operands, from the outermost operation inwards. -/
abbrev Path := List Nat

mutual

/-- The path to the construct at which reading stops, and why it does. -/
def stop? (limit depth : Nat) : Item → Option (Path × ReadError)
  | .atom _ => none
  | .group _ content =>
    if limit < depth + 1 then some ([], .tooDeep limit)
    else
      match nullaryOf? content with
      | some _ => none
      | none => stopOfLevel? limit (depth + 1) content

def stopOfLevel? (limit depth : Nat) : List Item → Option (Path × ReadError)
  | [] => none
  | [item] => stop? limit depth item
  | symbol :: first :: rest =>
    match Operator.select? symbol.raw (first :: rest).length with
    | none => some ([], .unsupportedOperator symbol.raw)
    | some operator =>
      if (first :: rest).length ≠ operator.arity then
        some ([], .arityMismatch operator (first :: rest).length)
      else stopOfOperands? limit depth operator 0 (first :: rest)

def stopOfOperands? (limit depth : Nat) (operator : Operator) (index : Nat) :
    List Item → Option (Path × ReadError)
  | [] => none
  | item :: rest =>
    match stop? limit depth item with
    | some (path, e) => some (index :: path, e)
    | none =>
      if isVoid item = true then some ([index], .emptyOperand operator index)
      else stopOfOperands? limit depth operator (index + 1) rest

end

mutual

/-- The names of the operands to the left of a path. -/
def left (path : Path) : Item → List Text
  | .atom _ => []
  | .group _ content => leftOfLevel path content

def leftOfLevel (path : Path) : List Item → List Text
  | [] => []
  | [item] => left path item
  | _ :: first :: rest =>
    match path with
    | [] => []
    | index :: path => leftOfOperands index path (first :: rest)

def leftOfOperands (index : Nat) (path : Path) : List Item → List Text
  | [] => []
  | item :: rest =>
    match index with
    | 0 => left path item
    | index + 1 => names item ++ leftOfOperands index path rest

end

mutual

theorem left_nil (item : Item) : left [] item = [] := by
  cases item with
  | atom text => rw [left]
  | group raw content =>
    rw [left]
    exact leftOfLevel_nil content

theorem leftOfLevel_nil (items : List Item) : leftOfLevel [] items = [] := by
  match items with
  | [] => rw [leftOfLevel]
  | [item] =>
    rw [leftOfLevel]
    exact left_nil item
  | symbol :: first :: rest => rw [leftOfLevel]

end

theorem leftOfLevel_cons (index : Nat) (path : Path) (symbol first : Item) (rest : List Item) :
    leftOfLevel (index :: path) (symbol :: first :: rest) =
      leftOfOperands index path (first :: rest) := by
  simp only [leftOfLevel]

theorem leftOfOperands_zero (path : Path) (item : Item) (rest : List Item) :
    leftOfOperands 0 path (item :: rest) = left path item := by
  simp only [leftOfOperands]

theorem leftOfOperands_succ (index : Nat) (path : Path) (item : Item) (rest : List Item) :
    leftOfOperands (index + 1) path (item :: rest) =
      names item ++ leftOfOperands index path rest := by
  simp only [leftOfOperands]

/-- A reading from `scope` goes as its stop, its names and the names to the left of a stop
foretell. -/
def Course (scope : Scope) (result : ReadResult × Scope) (stop : Option (Path × ReadError))
    (void : Bool) (names : List Text) (left : Path → List Text) : Prop :=
  match result with
  | (.ok none, after) => stop = none ∧ void = true ∧ names = [] ∧ after = scope
  | (.ok (some e), after) =>
    stop = none ∧ void = false ∧ e.cells.map Cell.name = names ∧
      Scope.Binds scope e.cells after
  | (.error e, after) => ∃ path, stop = some (path, e) ∧ after = scope.internAll (left path)

/-- The same of operands, the first of which has the place `index`. -/
def CourseOfAll (scope : Scope) (index : Nat) (result : Except ReadError (List Expr) × Scope)
    (stop : Option (Path × ReadError)) (names : List Text) (left : Nat → Path → List Text) :
    Prop :=
  match result with
  | (.ok es, after) =>
    stop = none ∧ (Expr.cellsOfAll es).map Cell.name = names ∧
      Scope.Binds scope (Expr.cellsOfAll es) after
  | (.error e, after) =>
    ∃ place path, stop = some ((index + place) :: path, e) ∧
      after = scope.internAll (left place path)

/-- Reading stops at once, with no operand to the left. -/
theorem course_error {scope : Scope} {e : ReadError} {void : Bool} {names : List Text}
    {left : Path → List Text} (h : left [] = []) :
    Course scope (.error e, scope) (some ([], e)) void names left := by
  refine ⟨[], rfl, ?_⟩
  rw [h]
  rfl

theorem course_readAtom {text : Text} (ht : text.trim ≠ []) (limit depth : Nat) (scope : Scope) :
    Course scope (readItem limit depth (.atom text) scope) none false (names (.atom text))
      (left · (.atom text)) := by
  rw [readItem, if_neg ht, names, if_neg ht, Expr.readAtom]
  cases hl : Literal.read? text.trim with
  | some value => exact ⟨rfl, rfl, rfl, Scope.Binds.nil scope⟩
  | none =>
    have hn : (scope.intern text.trim).1.name = text.trim :=
      Registry.name_of_find? (scope.find?_intern text.trim)
    refine ⟨rfl, rfl, ?_, Scope.Binds.intern scope text.trim⟩
    show [(scope.intern text.trim).1.name] = [text.trim]
    rw [hn]

mutual

theorem course_readItem (limit depth : Nat) (item : Item) (scope : Scope) :
    Course scope (readItem limit depth item scope) (stop? limit depth item) (isVoid item)
      (names item) (left · item) := by
  cases item with
  | atom text =>
    by_cases ht : text.trim = []
    · rw [readItem, if_pos ht, stop?, isVoid, names, if_pos ht]
      exact ⟨rfl, by simp [ht], rfl, rfl⟩
    · rw [stop?, isVoid, decide_eq_false ht]
      exact course_readAtom ht limit depth scope
  | group raw content =>
    rw [readItem, stop?]
    by_cases hd : limit < depth + 1
    · rw [if_pos hd, if_pos hd]
      exact course_error (left_nil _)
    · rw [if_neg hd, if_neg hd, isVoid, names]
      cases hn : nullaryOf? content with
      | some operator => exact ⟨rfl, rfl, rfl, Scope.Binds.nil scope⟩
      | none =>
        simp only [left]
        exact course_readLevel limit (depth + 1) content scope

theorem course_readLevel (limit depth : Nat) (items : List Item) (scope : Scope) :
    Course scope (readLevel limit depth items scope) (stopOfLevel? limit depth items)
      (isVoidLevel items) (namesOfLevel items) (leftOfLevel · items) := by
  match items with
  | [] =>
    rw [readLevel, stopOfLevel?, isVoidLevel, namesOfLevel]
    exact ⟨rfl, rfl, rfl, rfl⟩
  | [item] =>
    rw [readLevel, stopOfLevel?, isVoidLevel, namesOfLevel]
    simp only [leftOfLevel]
    exact course_readItem limit depth item scope
  | symbol :: first :: rest =>
    rw [readLevel, stopOfLevel?, isVoidLevel, namesOfLevel]
    cases hs : Operator.select? symbol.raw (first :: rest).length with
    | none => exact course_error (leftOfLevel_nil _)
    | some operator =>
      by_cases ha : (first :: rest).length ≠ operator.arity
      · simp only [if_pos ha]
        exact course_error (leftOfLevel_nil _)
      · simp only [if_neg ha]
        have ho := course_readOperands limit depth operator 0 (first :: rest) scope
        cases hr : readOperands limit depth operator 0 (first :: rest) scope with
        | mk result after =>
          rw [hr] at ho
          cases result with
          | error e =>
            obtain ⟨place, path, hstop, hafter⟩ := ho
            rw [Nat.zero_add] at hstop
            refine ⟨place :: path, hstop, ?_⟩
            show after = scope.internAll (leftOfLevel (place :: path) (symbol :: first :: rest))
            rw [leftOfLevel_cons]
            exact hafter
          | ok es =>
            obtain ⟨hstop, hnames, hbinds⟩ := ho
            refine ⟨hstop, rfl, ?_, ?_⟩
            · rw [Expr.cells]
              exact hnames
            · rw [Expr.cells]
              exact hbinds

theorem course_readOperands (limit depth : Nat) (operator : Operator) (index : Nat)
    (items : List Item) (scope : Scope) :
    CourseOfAll scope index (readOperands limit depth operator index items scope)
      (stopOfOperands? limit depth operator index items) (namesOfAll items)
      (leftOfOperands · · items) := by
  match items with
  | [] =>
    rw [readOperands, stopOfOperands?, namesOfAll]
    exact ⟨rfl, rfl, Scope.Binds.nil scope⟩
  | item :: rest =>
    rw [readOperands, stopOfOperands?, namesOfAll]
    have hi := course_readItem limit depth item scope
    match hr : readItem limit depth item scope with
    | (.error e, after) =>
      rw [hr] at hi
      obtain ⟨path, hstop, hafter⟩ := hi
      rw [hstop]
      refine ⟨0, path, rfl, ?_⟩
      show after = scope.internAll (leftOfOperands 0 path (item :: rest))
      rw [leftOfOperands_zero]
      exact hafter
    | (.ok none, after) =>
      rw [hr] at hi
      obtain ⟨hstop, hvoid, -, hafter⟩ := hi
      rw [hstop]
      simp only [if_pos hvoid]
      refine ⟨0, [], rfl, ?_⟩
      show after = scope.internAll (leftOfOperands 0 [] (item :: rest))
      rw [leftOfOperands_zero, left_nil]
      exact hafter
    | (.ok (some e), middle) =>
      rw [hr] at hi
      obtain ⟨hstop, hvoid, hnames, hbinds⟩ := hi
      rw [hstop]
      simp only [hvoid, if_neg Bool.false_ne_true]
      have ho := course_readOperands limit depth operator (index + 1) rest middle
      cases hro : readOperands limit depth operator (index + 1) rest middle with
      | mk result after =>
        rw [hro] at ho
        cases result with
        | error e' =>
          obtain ⟨place, path, hstop', hafter⟩ := ho
          refine ⟨place + 1, path, ?_, ?_⟩
          · rw [hstop', Nat.add_right_comm, Nat.add_assoc]
          · show after = scope.internAll (leftOfOperands (place + 1) path (item :: rest))
            rw [leftOfOperands_succ, ← hnames, Scope.internAll_append, ← hbinds.after_eq]
            exact hafter
        | ok es =>
          obtain ⟨hstop', hnames', hbinds'⟩ := ho
          refine ⟨hstop', ?_, ?_⟩
          · rw [Expr.cellsOfAll, List.map_append, hnames, hnames']
          · rw [Expr.cellsOfAll]
            exact hbinds.append hbinds'

end

/-- The names that a reading binds, as its stop, its names and the names to the left of a stop
foretell them. -/
def foretold (stop : Option (Path × ReadError)) (names : List Text) (left : Path → List Text) :
    List Text :=
  match stop with
  | none => names
  | some (path, _) => left path

theorem after_of_course {scope : Scope} {result : ReadResult × Scope}
    {stop : Option (Path × ReadError)} {void : Bool} {names : List Text}
    {left : Path → List Text} (h : Course scope result stop void names left) :
    result.2 = scope.internAll (foretold stop names left) := by
  match result, h with
  | (.ok none, _), ⟨hstop, _, hnames, hafter⟩ =>
    rw [hstop, hnames]
    exact hafter
  | (.ok (some _), _), ⟨hstop, _, hnames, hbinds⟩ =>
    rw [hstop, ← hnames]
    exact hbinds.after_eq
  | (.error _, _), ⟨path, hstop, hafter⟩ =>
    rw [hstop]
    exact hafter

theorem extends_of_course {scope : Scope} {result : ReadResult × Scope}
    {stop : Option (Path × ReadError)} {void : Bool} {names : List Text}
    {left : Path → List Text} (h : Course scope result stop void names left) :
    Scope.Extends scope result.2 := by
  rw [after_of_course h]
  exact scope.extends_internAll _

theorem extends_of_courseOfAll {scope : Scope} {index : Nat}
    {result : Except ReadError (List Expr) × Scope} {stop : Option (Path × ReadError)}
    {names : List Text} {left : Nat → Path → List Text}
    (h : CourseOfAll scope index result stop names left) : Scope.Extends scope result.2 := by
  match result, h with
  | (.ok _, _), h => exact h.2.2.toExtends
  | (.error _, _), h =>
    obtain ⟨place, path, -, hafter⟩ := h
    rw [hafter]
    exact scope.extends_internAll _

/-! ## What can stop a reading -/

mutual

/-- How many groups stand inside one another in an item. -/
def depth : Item → Nat
  | .atom _ => 0
  | .group _ content => depthOfAll content + 1

def depthOfAll : List Item → Nat
  | [] => 0
  | item :: rest => max (depth item) (depthOfAll rest)

end

theorem depthOfAll_cons (item : Item) (rest : List Item) :
    depthOfAll (item :: rest) = max (depth item) (depthOfAll rest) := by
  rw [depthOfAll]

/-- The errors of a forest with `depth` groups inside one another. -/
inductive Fault (limit depth : Nat) : ReadError → Prop
  | unsupportedOperator (symbol : Text) : Fault limit depth (.unsupportedOperator symbol)
  | arityMismatch (operator : Operator) (found : Nat) :
    Fault limit depth (.arityMismatch operator found)
  | emptyOperand (operator : Operator) (index : Nat) :
    Fault limit depth (.emptyOperand operator index)
  | tooDeep : limit < depth → Fault limit depth (.tooDeep limit)

theorem Fault.mono {limit depth depth' : Nat} {e : ReadError} (h : Fault limit depth e)
    (hd : depth ≤ depth') : Fault limit depth' e := by
  cases h with
  | unsupportedOperator symbol => exact .unsupportedOperator symbol
  | arityMismatch operator found => exact .arityMismatch operator found
  | emptyOperand operator index => exact .emptyOperand operator index
  | tooDeep hl => exact .tooDeep (Nat.lt_of_lt_of_le hl hd)

mutual

theorem fault_of_stop? {limit level : Nat} {item : Item} {path : Path} {e : ReadError}
    (h : stop? limit level item = some (path, e)) : Fault limit (level + depth item) e := by
  cases item with
  | atom text =>
    rw [stop?] at h
    exact nomatch h
  | group raw content =>
    rw [stop?] at h
    by_cases hd : limit < level + 1
    · rw [if_pos hd] at h
      cases h
      exact .tooDeep (by rw [depth]; omega)
    · rw [if_neg hd] at h
      cases hn : nullaryOf? content with
      | some operator =>
        rw [hn] at h
        exact nomatch h
      | none =>
        rw [hn] at h
        have hf := fault_of_stopOfLevel? h
        exact hf.mono (by rw [depth]; omega)

theorem fault_of_stopOfLevel? {limit level : Nat} {items : List Item} {path : Path}
    {e : ReadError} (h : stopOfLevel? limit level items = some (path, e)) :
    Fault limit (level + depthOfAll items) e := by
  match items with
  | [] =>
    rw [stopOfLevel?] at h
    exact nomatch h
  | [item] =>
    rw [stopOfLevel?] at h
    exact (fault_of_stop? h).mono (by rw [depthOfAll]; omega)
  | symbol :: first :: rest =>
    rw [stopOfLevel?] at h
    cases hs : Operator.select? symbol.raw (first :: rest).length with
    | none =>
      rw [hs] at h
      cases h
      exact .unsupportedOperator symbol.raw
    | some operator =>
      rw [hs] at h
      by_cases ha : (first :: rest).length ≠ operator.arity
      · simp only [if_pos ha] at h
        cases h
        exact .arityMismatch operator _
      · simp only [if_neg ha] at h
        have hf := fault_of_stopOfOperands? h
        exact hf.mono (by rw [depthOfAll_cons symbol]; omega)

theorem fault_of_stopOfOperands? {limit level : Nat} {operator : Operator} {index : Nat}
    {items : List Item} {path : Path} {e : ReadError}
    (h : stopOfOperands? limit level operator index items = some (path, e)) :
    Fault limit (level + depthOfAll items) e := by
  match items with
  | [] =>
    rw [stopOfOperands?] at h
    exact nomatch h
  | item :: rest =>
    rw [stopOfOperands?] at h
    rw [depthOfAll]
    match hi : stop? limit level item with
    | some (inner, cause) =>
      rw [hi] at h
      cases h
      exact (fault_of_stop? hi).mono (by omega)
    | none =>
      rw [hi] at h
      by_cases hv : isVoid item = true
      · simp only [if_pos hv] at h
        cases h
        exact .emptyOperand operator index
      · simp only [if_neg hv] at h
        exact (fault_of_stopOfOperands? h).mono (by omega)

end

end Forest

namespace Expr

/-! ## A whole text -/

/-- All that reading a text does to its scope is binding names, the same in every scope. -/
theorem exists_internAll_of_read (limit : Nat) (t : Text) :
    ∃ bound, ∀ scope, (read limit t scope).2 = scope.internAll bound := by
  cases h : Forest.ofText? t with
  | error cause =>
    refine ⟨[], fun scope => ?_⟩
    rw [Forest.read_of_error h]
    rfl
  | ok items =>
    refine ⟨Forest.foretold (Forest.stopOfLevel? limit 0 (Forest.topLevel items))
      (Forest.namesOfLevel (Forest.topLevel items))
      (Forest.leftOfLevel · (Forest.topLevel items)), fun scope => ?_⟩
    rw [Forest.read_of_ok h]
    exact Forest.after_of_course (Forest.course_readLevel limit 0 (Forest.topLevel items) scope)

/-- Reading a tree binds its cells under their names. -/
theorem binds_of_read {limit : Nat} {t : Text} {scope after : Scope} {e : Expr}
    (h : read limit t scope = (.ok (some e), after)) : Scope.Binds scope e.cells after := by
  cases hf : Forest.ofText? t with
  | error cause =>
    rw [Forest.read_of_error hf] at h
    exact nomatch h
  | ok items =>
    have hc := Forest.course_readLevel limit 0 (Forest.topLevel items) scope
    rw [← Forest.read_of_ok hf, h] at hc
    exact hc.2.2.2

end Expr
end ScoreFormula
