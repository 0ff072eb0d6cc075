import ScoreFormula.Expr.Diagram
import ScoreFormula.Score

/-!
# Sessions

A session is a run of steps on registries, trees and cells that go by keys of their
own.  All registries share one store, so a tree or a held cell keeps its meaning when
the registry it came from is dropped, and a registry made later under the same key
has cells of its own.

A step that fails answers why and leaves the session as it was, except that names
bound while a text was read stay bound.
-/

namespace ScoreFormula
namespace Session

/-- Entries by key, at most one for each key. -/
abbrev Table (α : Type) := List (Text × α)

namespace Table

def erase {α : Type} (key : Text) (t : Table α) : Table α := t.filter fun entry => entry.1 != key

def put {α : Type} (key : Text) (value : α) (t : Table α) : Table α := (key, value) :: erase key t

/-- Replaces the entry of a key, if there is a key. -/
def hold {α : Type} (key : Option Text) (value : α) (t : Table α) : Table α :=
  match key with
  | none => t
  | some key => put key value t

end Table

structure State where
  store : Store
  registries : Table Registry
  trees : Table Expr
  cells : Table Cell
  draws : Draws

namespace State

def start : State := ⟨.empty, [], [], [], .start⟩

/-- The registry of a key, which is empty if there is none yet. -/
def registry (s : State) (key : Text) : Registry := (s.registries.lookup key).getD .empty

def scope (s : State) (key : Text) : Scope := ⟨s.registry key, s.store⟩

def withScope (s : State) (key : Text) (scope : Scope) : State :=
  { s with store := scope.store, registries := Table.put key scope.registry s.registries }

def values? (s : State) (key : Text) : Option (List (Text × Double)) :=
  (s.registries.lookup key).map fun r => r.values s.store

end State

/-- What can be asked of a session.  A step that names a registry which is not there
makes it, except for dropping it. -/
inductive Step
  | read (registry input : Text) (limit : Nat) (keep : Text)
  | evaluateText (source : Text)
  | evaluate (tree : Text) (times : Nat)
  | describe (tree : Text)
  | constant (value : Double) (keep : Text)
  | var (cell keep : Text)
  | apply (symbol : Text) (operands : List Text) (keep : Text)
  /-- The cell of a name, created on first use, and held if a key is given. -/
  | intern (registry name : Text) (held : Option Text)
  /-- The cell of a name that is bound, held if a key is given. -/
  | find (registry name : Text) (held : Option Text)
  | get (cell : Text)
  | put (cell : Text) (value : Double)
  | same (first second : Text)
  | contains (registry name : Text)
  | set (registry name : Text) (value : Double)
  | refresh (registry : Text) (values : List (Text × Double))
  | size (registry : Text)
  | drop (registry : Text)

structure View where
  infixText : Text
  diagram : Text
  «variables» : List Text
  isAtom : Bool

def view (e : Expr) : View := ⟨e.infixText, e.diagram, e.variables, e.isAtom⟩

inductive Answer
  /-- The infix text of a tree that was kept, or nothing. -/
  | kept (text : Option Text)
  | value (value : Double)
  | values (values : List Double)
  | view (view : View)
  | cell (cell : Option (Text × Double))
  | same (yes : Bool)
  | truth (yes : Bool)
  | size (count : Nat)
  | done
  | unreadable (cause : ReadError)
  | noSuchOperator (symbol : Text)
  | noSuchTree (key : Text)
  | noSuchCell (key : Text)

namespace State

def keep (s : State) (key : Text) (e : Expr) : Answer × State :=
  (.kept (some e.infixText), { s with trees := Table.put key e s.trees })

def cellAnswer (s : State) (cell : Cell) : Answer := .cell (some (cell.name, s.store.read cell))

def evaluations (store : Store) (e : Expr) : Nat → Draws → List Double × Draws
  | 0, d => ([], d)
  | times + 1, d =>
    match e.evaluate store d with
    | (value, d) =>
      match evaluations store e times d with
      | (values, d) => (value :: values, d)

/-- The trees kept under keys, or the first key that has none. -/
def treesOf (s : State) : List Text → Except Text (List Expr)
  | [] => .ok []
  | key :: rest =>
    match s.trees.lookup key with
    | none => .error key
    | some e => (s.treesOf rest).map (e :: ·)

def step (s : State) : Step → Answer × State
  | .read registry input limit key =>
    match Expr.read limit input (s.scope registry) with
    | (.error cause, scope) => (.unreadable cause, s.withScope registry scope)
    | (.ok none, scope) => (.kept none, s.withScope registry scope)
    | (.ok (some e), scope) => (s.withScope registry scope).keep key e
  | .evaluateText source =>
    match ScoreFormula.evaluateText source s.draws with
    | (.error cause, d) => (.unreadable cause, { s with draws := d })
    | (.ok value, d) => (.value value, { s with draws := d })
  | .evaluate tree times =>
    match s.trees.lookup tree with
    | none => (.noSuchTree tree, s)
    | some e =>
      match evaluations s.store e times s.draws with
      | (values, d) => (.values values, { s with draws := d })
  | .describe tree =>
    match s.trees.lookup tree with
    | none => (.noSuchTree tree, s)
    | some e => (.view (Session.view e), s)
  | .constant value key => s.keep key (.constant value)
  | .var cell key =>
    match s.cells.lookup cell with
    | none => (.noSuchCell cell, s)
    | some c => s.keep key (.var c)
  | .apply symbol operands key =>
    match Operator.ofSymbol? symbol with
    | none => (.noSuchOperator symbol, s)
    | some operator =>
      match s.treesOf operands with
      | .error tree => (.noSuchTree tree, s)
      | .ok operands =>
        match Expr.apply operator operands with
        | .error cause => (.unreadable cause, s)
        | .ok e => s.keep key e
  | .intern registry name held =>
    match (s.scope registry).intern name with
    | (cell, scope) =>
      let s := s.withScope registry scope
      (s.cellAnswer cell, { s with cells := Table.hold held cell s.cells })
  | .find registry name held =>
    let s := s.withScope registry (s.scope registry)
    match (s.registry registry).find? name with
    | none => (.cell none, s)
    | some cell => (s.cellAnswer cell, { s with cells := Table.hold held cell s.cells })
  | .get cell =>
    match s.cells.lookup cell with
    | none => (.noSuchCell cell, s)
    | some c => (s.cellAnswer c, s)
  | .put cell value =>
    match s.cells.lookup cell with
    | none => (.noSuchCell cell, s)
    | some c =>
      let s := { s with store := s.store.write c value }
      (s.cellAnswer c, s)
  | .same first second =>
    match s.cells.lookup first, s.cells.lookup second with
    | some a, some b => (.same (a.location == b.location), s)
    | _, _ => (.noSuchCell [], s)
  | .contains registry name =>
    let s := s.withScope registry (s.scope registry)
    (.truth ((s.registry registry).contains name), s)
  | .set registry name value =>
    match (s.registry registry).set name value s.store with
    | (found, store) => (.truth found, s.withScope registry ⟨s.registry registry, store⟩)
  | .refresh registry values =>
    let store := (s.registry registry).refresh (fun name => values.lookup name) s.store
    (.done, s.withScope registry ⟨s.registry registry, store⟩)
  | .size registry =>
    let s := s.withScope registry (s.scope registry)
    (.size (s.registry registry).size, s)
  | .drop registry =>
    (.truth (s.registries.lookup registry).isSome,
      { s with registries := Table.erase registry s.registries })

def run (s : State) : List Step → List Answer × State
  | [] => ([], s)
  | step :: rest =>
    match s.step step with
    | (answer, s) =>
      match run s rest with
      | (answers, s) => (answer :: answers, s)

end State

end Session
end ScoreFormula
