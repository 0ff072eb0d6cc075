import ScoreFormula.Proofs.Forest.Course
import ScoreFormula.Proofs.Literal

/-!
# Writing a tree down and reading it back

A tree is written in prefix form: literals and names as they are, and an operation as its
symbol and its operands in parentheses, which may be left out around the whole of a text.
The gaps between the parts are the writer's choice.  `read_written` says that every tree
that can be written is read back from each of its texts, with the cells that the registry
has for its names.

The proof puts an item beside each part of a text.  The items of the parts are those of the
text, whatever the gaps are, and an item reads as the part of the tree it stands for.
-/

namespace ScoreFormula

open Token Forest

/-- What may stand for a variable in a text. -/
structure IsName (name : Text) : Prop where
  word : Word name
  trim : name.trim = name
  not_literal : Literal.read? name = none

/-- The texts that name an operator of which the number of operands is known. -/
def Operator.IsSymbol (operator : Operator) (symbol : Text) : Prop :=
  symbol = operator.symbol ∨ operator = .negate ∧ symbol = "-".toList

def IsGap (gap : Text) : Prop := ∀ c ∈ gap, isSeparator c = true

/-- Pieces one after another with gaps before, between and after them.  Only next to a
parenthesis can a gap be empty. -/
inductive Joined : List Text → Text → Prop
  | nil {gap : Text} : IsGap gap → Joined [] gap
  | cons {gap piece rest : Text} {pieces : List Text} :
    IsGap gap → isGroup piece = true ∨ Breaks rest → Joined pieces rest →
      Joined (piece :: pieces) (gap ++ (piece ++ rest))

theorem isGap_nil : IsGap [] := fun _ h => nomatch h

theorem isGap_space : IsGap [' '] := by
  intro c hc
  rw [List.mem_singleton.mp hc]
  decide

theorem exists_joined (pieces : List Text) : ∃ t, Joined pieces t := by
  have h : ∃ t, Joined pieces t ∧ Breaks t := by
    induction pieces with
    | nil => exact ⟨[], Joined.nil isGap_nil, breaks_nil⟩
    | cons piece rest ih =>
      obtain ⟨t, hj, hb⟩ := ih
      refine ⟨[' '] ++ (piece ++ t), Joined.cons isGap_space (Or.inr hb) hj, ?_⟩
      exact breaks_cons (by decide)
  obtain ⟨t, hj, -⟩ := h
  exact ⟨t, hj⟩

namespace Expr

mutual

/-- The tree has a text: its constants have literals, its variables are names and its
operations have as many operands as their operators take. -/
def Writable : Expr → Prop
  | constant value => ∃ literal, Literal.read? literal = some value
  | var cell => IsName cell.name
  | operation operator operands => operands.length = operator.arity ∧ AllWritable operands

def AllWritable : List Expr → Prop
  | [] => True
  | e :: rest => e.Writable ∧ AllWritable rest

end

mutual

/-- The texts that stand for a tree inside another text.  Operations have their parentheses
there. -/
inductive Spells : Expr → Text → Prop
  | constant {value : Double} {literal : Text} :
    Literal.read? literal = some value → Spells (.constant value) literal
  | var (cell : Cell) : Spells (.var cell) cell.name
  | operation {operator : Operator} {operands : List Expr} {symbol body : Text}
      {texts : List Text} :
    operator.IsSymbol symbol → AllSpell operands texts → Joined (symbol :: texts) body →
      Spells (.operation operator operands) (parens body)

inductive AllSpell : List Expr → List Text → Prop
  | nil : AllSpell [] []
  | cons {e : Expr} {rest : List Expr} {t : Text} {texts : List Text} :
    Spells e t → AllSpell rest texts → AllSpell (e :: rest) (t :: texts)

end

/-- The whole texts of a tree. -/
inductive Written : Expr → Text → Prop
  | whole {e : Expr} {s t : Text} : Spells e s → Joined [s] t → Written e t
  | bare {operator : Operator} {operands : List Expr} {symbol t : Text} {texts : List Text} :
    operands ≠ [] → operator.IsSymbol symbol → AllSpell operands texts →
      Joined (symbol :: texts) t → Written (.operation operator operands) t

mutual

/-- How many operations stand inside one another. -/
def height : Expr → Nat
  | constant _ => 0
  | var _ => 0
  | operation _ operands => heightOfAll operands + 1

def heightOfAll : List Expr → Nat
  | [] => 0
  | e :: rest => max e.height (heightOfAll rest)

end

mutual

/-- The tree with the cells that a scope has for its names. -/
def resolve (scope : Scope) : Expr → Expr
  | constant value => constant value
  | var cell => var (scope.intern cell.name).1
  | operation operator operands => operation operator (resolveAll scope operands)

def resolveAll (scope : Scope) : List Expr → List Expr
  | [] => []
  | e :: rest => e.resolve scope :: resolveAll scope rest

end

def names (e : Expr) : List Text := e.cells.map Cell.name

def namesOfAll (es : List Expr) : List Text := (cellsOfAll es).map Cell.name

theorem names_constant (value : Double) : (constant value).names = [] := by
  rw [names, cells]
  rfl

theorem names_var (cell : Cell) : (var cell).names = [cell.name] := by
  rw [names, cells]
  rfl

theorem names_operation (operator : Operator) (operands : List Expr) :
    (operation operator operands).names = namesOfAll operands := by
  rw [names, cells, namesOfAll]

theorem namesOfAll_cons (e : Expr) (rest : List Expr) :
    namesOfAll (e :: rest) = e.names ++ namesOfAll rest := by
  rw [namesOfAll, cellsOfAll, List.map_append, names, namesOfAll]

mutual

theorem cells_resolve (scope : Scope) (e : Expr) :
    (e.resolve scope).cells = e.cells.map fun cell => (scope.intern cell.name).1 := by
  cases e with
  | constant value => rw [resolve, cells]; rfl
  | var cell => rw [resolve, cells, cells]; rfl
  | operation operator operands =>
    rw [resolve, cells, cells]
    exact cellsOfAll_resolveAll scope operands

theorem cellsOfAll_resolveAll (scope : Scope) (es : List Expr) :
    cellsOfAll (resolveAll scope es) =
      (cellsOfAll es).map fun cell => (scope.intern cell.name).1 := by
  cases es with
  | nil => rw [resolveAll, cellsOfAll]; rfl
  | cons e rest =>
    rw [resolveAll, cellsOfAll, cellsOfAll, List.map_append, cells_resolve scope e,
      cellsOfAll_resolveAll scope rest]

end

/-- Where all names of a tree are bound, its resolved variables are the cells they are bound
to. -/
theorem find?_of_mem_cells_resolve {scope : Scope} {e : Expr}
    (h : ∀ cell ∈ e.cells, scope.registry.contains cell.name = true) :
    ∀ cell ∈ (e.resolve scope).cells, scope.registry.find? cell.name = some cell := by
  intro cell hc
  rw [cells_resolve] at hc
  obtain ⟨other, ho, rfl⟩ := List.mem_map.mp hc
  obtain ⟨bound, hb⟩ := Registry.contains_iff.mp (h other ho)
  rw [Scope.intern_of_find? hb, Registry.name_of_find? hb]
  exact hb

/-! ## Every writable tree has a text -/

mutual

theorem exists_spells (e : Expr) (h : e.Writable) : ∃ t, Spells e t := by
  cases e with
  | constant value =>
    obtain ⟨literal, hl⟩ := h
    exact ⟨literal, .constant hl⟩
  | var cell => exact ⟨cell.name, .var cell⟩
  | operation operator operands =>
    obtain ⟨texts, ht⟩ := exists_allSpell operands h.2
    obtain ⟨body, hj⟩ := exists_joined (operator.symbol :: texts)
    exact ⟨parens body, .operation (Or.inl rfl) ht hj⟩

theorem exists_allSpell (es : List Expr) (h : AllWritable es) : ∃ texts, AllSpell es texts := by
  cases es with
  | nil => exact ⟨[], .nil⟩
  | cons e rest =>
    obtain ⟨t, ht⟩ := exists_spells e h.1
    obtain ⟨texts, hr⟩ := exists_allSpell rest h.2
    exact ⟨t :: texts, .cons ht hr⟩

end

theorem exists_written {e : Expr} (h : e.Writable) : ∃ t, Written e t := by
  obtain ⟨s, hs⟩ := exists_spells e h
  obtain ⟨t, hj⟩ := exists_joined [s]
  exact ⟨t, .whole hs hj⟩

end Expr

/-! ## The items of joined pieces -/

/-- An item that stays whole: its text is laid out as it alone, and has no blank edge. -/
structure Solid (item : Item) : Prop where
  laidOut : LaidOut item.raw [item]
  trim : item.raw.trim = item.raw

theorem solid_atom {w : Text} (hw : Word w) (ht : w.trim = w) : Solid (.atom w) :=
  ⟨.of_word hw, ht⟩

theorem solid_group {s : Text} {content : List Item} (h : LaidOut s content) :
    Solid (.group (parens s) content) := by
  refine ⟨.of_parens h, ?_⟩
  have hs : Text.trimStart (parens s) = parens s := Text.trimStart_cons_of_not_blank (by decide) _
  show Text.trimEnd (Text.trimStart (parens s)) = parens s
  rw [hs, trimEnd_parens]

theorem Solid.trimStart {w : Text} (h : Solid (.atom w)) : Text.trimStart w = w :=
  (Text.trim_eq_self_iff.mp h.trim).1

theorem Solid.trimEnd {w : Text} (h : Solid (.atom w)) : Text.trimEnd w = w :=
  (Text.trim_eq_self_iff.mp h.trim).2

theorem Solid.word {w : Text} (h : Solid (.atom w)) : Word w :=
  h.laidOut.word_of_mem List.mem_cons_self

theorem trimFirst_of_solid {items : List Item} (h : ∀ item ∈ items, Solid item) :
    trimFirst items = items := by
  match items, h with
  | [], _ => rfl
  | .atom w :: rest, h =>
    have hw := h (.atom w) List.mem_cons_self
    rw [trimFirst, hw.trimStart, if_neg hw.word.1]
  | .group raw content :: rest, _ => rfl

theorem trimLast_of_solid {items : List Item} (h : ∀ item ∈ items, Solid item) :
    trimLast items = items := by
  induction items with
  | nil => rfl
  | cons item rest ih =>
    have hr := ih fun other hm => h other (List.mem_cons_of_mem _ hm)
    cases item with
    | atom w =>
      have hw := h (.atom w) List.mem_cons_self
      by_cases hn : rest = []
      · subst hn
        rw [trimLast_cons_atom hr, hw.trimEnd, if_neg hw.word.1]
      · rw [trimLast_cons_of_ne_nil (by rwa [hr]), hr]
    | group raw content => rw [trimLast_cons_group, hr]

theorem topLevel_of_solid {items : List Item} (h : ∀ item ∈ items, Solid item) :
    topLevel items = tidyAll items := by
  rw [topLevel_eq, trimEdges, trimFirst_of_solid h, trimLast_of_solid h]

theorem LaidOut.gaps {gap t : Text} {items : List Item} (hg : IsGap gap) (h : LaidOut t items) :
    LaidOut (gap ++ t) items := by
  induction gap with
  | nil => exact h
  | cons c gap ih =>
    exact .gap (hg c List.mem_cons_self) (ih fun d hd => hg d (List.mem_cons_of_mem _ hd))

/-- Joined pieces are laid out as the items of the pieces, whatever the gaps are. -/
theorem laidOut_of_joined {pieces : List Text} {t : Text} (h : Joined pieces t)
    {items : List Item} (hr : items.map Item.raw = pieces) (hs : ∀ item ∈ items, Solid item) :
    LaidOut t items := by
  induction h generalizing items with
  | nil hg =>
    rw [List.map_eq_nil_iff.mp hr]
    have := LaidOut.gaps hg .nil
    rwa [List.append_nil] at this
  | @cons gap piece rest pieces hg hb _ ih =>
    obtain ⟨item, others, rfl, rfl, hr'⟩ := List.map_eq_cons_iff.mp hr
    have hrest := ih hr' fun other hm => hs other (List.mem_cons_of_mem _ hm)
    have hsolid := hs item List.mem_cons_self
    apply LaidOut.gaps hg
    cases item with
    | atom w =>
      have hw := hsolid.word
      rcases hb with hb | hb
      · have hp : isGroup w = false := isGroup_plain hw.2
        exact absurd hb (by rw [Item.raw, hp]; decide)
      · exact .atom hw hb hrest
    | group raw content =>
      obtain ⟨s, rfl, hc⟩ := hsolid.laidOut.content_of_mem List.mem_cons_self
      exact .group hc hrest

/-! ## Symbols -/

namespace Operator

theorem IsSymbol.word {operator : Operator} {symbol : Text} (h : operator.IsSymbol symbol) :
    Word symbol := by
  rcases h with rfl | ⟨rfl, rfl⟩
  · exact word_symbol operator
  · exact word_symbol .subtract

theorem trim_symbol (operator : Operator) : operator.symbol.trim = operator.symbol := by
  cases operator <;> decide

theorem IsSymbol.trim {operator : Operator} {symbol : Text} (h : operator.IsSymbol symbol) :
    symbol.trim = symbol := by
  rcases h with rfl | ⟨rfl, rfl⟩
  · exact trim_symbol operator
  · exact trim_symbol .subtract

/-- The number of operands tells subtraction from negation. -/
theorem IsSymbol.select? {operator : Operator} {symbol : Text} (h : operator.IsSymbol symbol) :
    Operator.select? symbol operator.arity = some operator := by
  rcases h with rfl | ⟨rfl, rfl⟩
  · have hne : ¬(operator.symbol = "-".toList ∧ operator.arity = 1) := by
      rintro ⟨hs, ha⟩
      have he : operator = .subtract := symbol_injective (b := .subtract) hs
      rw [he] at ha
      exact absurd ha (by decide)
    rw [Operator.select?, if_neg hne, ofSymbol?_symbol]
  · rfl

theorem IsSymbol.nullary? {operator : Operator} {symbol : Text} (h : operator.IsSymbol symbol)
    (ha : operator.arity = 0) : Operator.nullary? symbol = some operator := by
  rcases h with rfl | ⟨rfl, rfl⟩
  · rw [Operator.nullary?, ofSymbol?_symbol, Option.filter_some, ha]
    rfl
  · exact absurd ha (by decide)

end Operator

/-! ## Reading the items of a tree -/

namespace Forest

open ScoreFormula.Expr

/-- A reading from `scope` gives the tree and binds the names of the tree.  Its cells are
told by any later scope, since operands that follow bind more names. -/
def Yields (scope : Scope) (result : ReadResult × Scope) (e : Expr) : Prop :=
  ∃ tree, result = (.ok (some tree), scope.internAll e.names) ∧
    ∀ final, Scope.Extends (scope.internAll e.names) final → tree = e.resolve final

def ReadsAs (item : Item) (e : Expr) : Prop :=
  ∀ limit depth scope, depth + e.height ≤ limit →
    Yields scope (readItem limit depth (tidy item) scope) e

def AllReadAs (items : List Item) (es : List Expr) : Prop :=
  ∀ limit depth operator index scope, depth + heightOfAll es ≤ limit → ∃ trees,
    readOperands limit depth operator index (tidyAll items) scope =
        (.ok trees, scope.internAll (Expr.namesOfAll es)) ∧
      ∀ final, Scope.Extends (scope.internAll (Expr.namesOfAll es)) final →
        trees = resolveAll final es

theorem readsAs_constant {literal : Text} {value : Double}
    (h : Literal.read? literal = some value) : ReadsAs (.atom literal) (.constant value) := by
  intro limit depth scope _
  obtain ⟨hw, ht⟩ := Literal.word_of_read? h
  refine ⟨.constant value, ?_, ?_⟩
  · rw [tidy, readItem, ht, if_neg hw.1, readAtom, h, names_constant]
    rfl
  · intro final _
    rw [resolve]

theorem readsAs_var {cell : Cell} (h : IsName cell.name) :
    ReadsAs (.atom cell.name) (.var cell) := by
  intro limit depth scope _
  refine ⟨.var (scope.intern cell.name).1, ?_, ?_⟩
  · rw [tidy, readItem, h.trim, if_neg h.word.1, readAtom, h.not_literal, names_var]
    rfl
  · intro final hf
    have hb := hf.find? (scope.find?_intern cell.name)
    rw [resolve, Scope.intern_of_find? hb]

theorem allReadAs_nil : AllReadAs [] [] := by
  intro limit depth operator index scope _
  refine ⟨[], ?_, ?_⟩
  · rw [tidyAll, readOperands]
    rfl
  · intro final _
    rw [resolveAll]

theorem allReadAs_cons {item : Item} {items : List Item} {e : Expr} {es : List Expr}
    (hi : ReadsAs item e) (hr : AllReadAs items es) : AllReadAs (item :: items) (e :: es) := by
  intro limit depth operator index scope hl
  rw [heightOfAll] at hl
  have he : depth + e.height ≤ limit := by omega
  have hes : depth + heightOfAll es ≤ limit := by omega
  obtain ⟨tree, hread, htree⟩ := hi limit depth scope he
  obtain ⟨trees, hreads, htrees⟩ :=
    hr limit depth operator (index + 1) (scope.internAll e.names) hes
  refine ⟨tree :: trees, ?_, ?_⟩
  · rw [tidyAll, readOperands, hread]
    dsimp only
    rw [hreads, namesOfAll_cons, Scope.internAll_append]
  · intro final hf
    rw [namesOfAll_cons, Scope.internAll_append] at hf
    have hfirst := (Scope.extends_internAll (scope.internAll e.names) (Expr.namesOfAll es)).trans hf
    rw [resolveAll, htree final hfirst, htrees final hf]

theorem yields_operation {operator : Operator} {symbol : Text} {items : List Item}
    {es : List Expr} (hs : operator.IsSymbol symbol) (ha : items.length = operator.arity)
    (hn : items ≠ []) (hr : AllReadAs items es) {limit depth : Nat}
    (hl : depth + heightOfAll es ≤ limit) (scope : Scope) :
    Yields scope (readLevel limit depth (tidyAll (.atom symbol :: items)) scope)
      (.operation operator es) := by
  obtain ⟨trees, hread, htrees⟩ := hr limit depth operator 0 scope hl
  refine ⟨.operation operator trees, ?_, ?_⟩
  · obtain ⟨first, rest, rfl⟩ := List.exists_cons_of_ne_nil hn
    have hcount : (tidy first :: tidyAll rest).length = operator.arity := by
      rw [← ha, List.length_cons, List.length_cons, length_tidyAll]
    have hselect : Operator.select? (tidy (.atom symbol)).raw
        (tidy first :: tidyAll rest).length = some operator := by
      rw [raw_tidy, hcount]
      exact hs.select?
    rw [tidyAll] at hread
    rw [tidyAll, tidyAll, readLevel_operation hselect hcount, hread, names_operation]
    rfl
  · intro final hf
    rw [names_operation] at hf
    rw [resolve, htrees final hf]

theorem nullaryOf?_operation {operator : Operator} {symbol : Text} {items : List Item}
    (hs : operator.IsSymbol symbol) (ha : items.length = operator.arity) :
    nullaryOf? (tidyAll (.atom symbol :: items)) = if items = [] then some operator else none := by
  cases items with
  | nil => rw [if_pos rfl, tidyAll, tidyAll, tidy, nullaryOf?, hs.nullary? ha.symm]
  | cons first rest =>
    rw [if_neg (List.cons_ne_nil first rest), tidyAll, tidyAll]
    rfl

theorem solid_of_isSymbol {operator : Operator} {symbol : Text} (hs : operator.IsSymbol symbol)
    {items : List Item} (hw : ∀ item ∈ items, Solid item) :
    ∀ item ∈ Item.atom symbol :: items, Solid item := by
  intro item hm
  rcases List.mem_cons.mp hm with rfl | hm
  · exact solid_atom hs.word hs.trim
  · exact hw item hm

theorem laidOut_of_isSymbol {operator : Operator} {symbol t : Text} {texts : List Text}
    (hs : operator.IsSymbol symbol) {items : List Item} (hr : items.map Item.raw = texts)
    (hw : ∀ item ∈ items, Solid item) (hj : Joined (symbol :: texts) t) :
    LaidOut t (.atom symbol :: items) := by
  have hraw : (Item.atom symbol :: items).map Item.raw = symbol :: texts := by
    rw [List.map_cons, hr]
    rfl
  exact laidOut_of_joined hj hraw (solid_of_isSymbol hs hw)

theorem readsAs_operation {operator : Operator} {symbol raw : Text} {items : List Item}
    {es : List Expr} (hs : operator.IsSymbol symbol) (ha : items.length = operator.arity)
    (he : items.length = es.length) (hw : ∀ item ∈ items, Solid item) (hr : AllReadAs items es) :
    ReadsAs (.group raw (.atom symbol :: items)) (.operation operator es) := by
  intro limit depth scope hl
  have ht : trimEdges (tidyAll (.atom symbol :: items)) = tidyAll (.atom symbol :: items) :=
    topLevel_of_solid (solid_of_isSymbol hs hw)
  rw [height] at hl
  have hd : ¬limit < depth + 1 := by omega
  rw [tidy, readItem, if_neg hd, ht, nullaryOf?_operation hs ha]
  by_cases hn : items = []
  · -- Without operands the group is the operator, and no name is met.
    have hes : es = [] := by
      rw [hn] at he
      exact List.length_eq_zero_iff.mp he.symm
    subst hes
    rw [if_pos hn]
    refine ⟨.operation operator [], ?_, ?_⟩
    · rw [names_operation]
      rfl
    · intro final _
      rw [resolve, resolveAll]
  · rw [if_neg hn]
    exact yields_operation hs ha hn hr (by omega) scope

mutual

theorem item_of_spells {e : Expr} {t : Text} (h : Spells e t) (he : e.Writable) :
    ∃ item, item.raw = t ∧ Solid item ∧ ReadsAs item e := by
  cases h with
  | constant hl =>
    obtain ⟨hw, ht⟩ := Literal.word_of_read? hl
    exact ⟨.atom t, rfl, solid_atom hw ht, readsAs_constant hl⟩
  | var cell =>
    have hn : IsName cell.name := he
    exact ⟨.atom cell.name, rfl, solid_atom hn.word hn.trim, readsAs_var hn⟩
  | @operation operator es symbol body texts hs hes hj =>
    obtain ⟨ha, hwrite⟩ := he
    obtain ⟨items, hraw, hlen, hsolid, hread⟩ := items_of_allSpell hes hwrite
    have hlaid := laidOut_of_isSymbol hs hraw hsolid hj
    exact ⟨.group (parens body) (.atom symbol :: items), rfl, solid_group hlaid,
      readsAs_operation hs (hlen.trans ha) hlen hsolid hread⟩

theorem items_of_allSpell {es : List Expr} {texts : List Text} (h : AllSpell es texts)
    (hes : AllWritable es) :
    ∃ items, items.map Item.raw = texts ∧ items.length = es.length ∧
      (∀ item ∈ items, Solid item) ∧ AllReadAs items es := by
  cases h with
  | nil => exact ⟨[], rfl, rfl, by simp, allReadAs_nil⟩
  | cons ht hrest =>
    obtain ⟨item, hraw, hsolid, hread⟩ := item_of_spells ht hes.1
    obtain ⟨items, hraws, hlen, hsolids, hreads⟩ := items_of_allSpell hrest hes.2
    refine ⟨item :: items, ?_, ?_, ?_, allReadAs_cons hread hreads⟩
    · rw [List.map_cons, hraw, hraws]
    · rw [List.length_cons, List.length_cons, hlen]
    · intro other hm
      rcases List.mem_cons.mp hm with rfl | hm
      · exact hsolid
      · exact hsolids other hm

end

theorem yields_of_written {e : Expr} (he : e.Writable) {t : Text} (h : Written e t) {limit : Nat}
    (hl : e.height ≤ limit) (scope : Scope) : Yields scope (Expr.read limit t scope) e := by
  cases h with
  | @whole e s t hs hj =>
    obtain ⟨item, hraw, hsolid, hread⟩ := item_of_spells hs he
    have hsolids : ∀ other ∈ [item], Solid other := by
      intro other hm
      rw [List.mem_singleton.mp hm]
      exact hsolid
    have hr : [item].map Item.raw = [s] := by rw [List.map_singleton, hraw]
    rw [read_of_laidOut (laidOut_of_joined hj hr hsolids), topLevel_of_solid hsolids, tidyAll,
      tidyAll, readLevel]
    exact hread limit 0 scope (by omega)
  | @bare operator es symbol t texts hn hs hes hj =>
    obtain ⟨ha, hwrite⟩ := he
    obtain ⟨items, hraw, hlen, hsolid, hread⟩ := items_of_allSpell hes hwrite
    have hlaid := laidOut_of_isSymbol hs hraw hsolid hj
    have hne : items ≠ [] := by
      rintro rfl
      exact hn (List.length_eq_zero_iff.mp hlen.symm)
    rw [height] at hl
    rw [read_of_laidOut hlaid, topLevel_of_solid (solid_of_isSymbol hs hsolid)]
    exact yields_operation hs (hlen.trans ha) hne hread (by omega) scope

end Forest

/-- Every tree that can be written has a text, and each of its texts is read back as the
tree, with the cells that the registry then has for its names. -/
theorem read_written {e : Expr} (he : e.Writable) :
    (∃ t, e.Written t) ∧
      ∀ t, e.Written t → ∀ limit, e.height ≤ limit → ∀ scope,
        ∃ after, Expr.read limit t scope = (.ok (some (e.resolve after)), after) ∧
          (∀ name, name ∈ after.registry.names ↔
            name ∈ scope.registry.names ∨ name ∈ e.variables) ∧
          ∀ cell ∈ (e.resolve after).cells, after.registry.find? cell.name = some cell := by
  refine ⟨Expr.exists_written he, ?_⟩
  intro t ht limit hl scope
  obtain ⟨tree, hread, htree⟩ := yields_of_written he ht hl scope
  rw [htree _ (Scope.Extends.refl _)] at hread
  have hnames : ∀ name, name ∈ (scope.internAll e.names).registry.names ↔
      name ∈ scope.registry.names ∨ name ∈ e.variables := by
    intro name
    rw [Scope.mem_names_internAll, Expr.mem_variables, Expr.names]
  refine ⟨_, hread, hnames, Expr.find?_of_mem_cells_resolve ?_⟩
  intro cell hc
  rw [← Registry.mem_names_iff, hnames, Expr.mem_variables]
  exact Or.inr (List.mem_map_of_mem hc)

/-- A variable may be called as an operator is, and a group may touch what stands before it. -/
theorem read_written_difference :
    (Expr.operation .subtract [.var ⟨"rand".toList, 0⟩, .operation .rand []]).Writable ∧
      ∃ after, Expr.read 2 "- rand(rand)".toList Scope.new =
        (.ok (some (.operation .subtract
          [.var (after.intern "rand".toList).1, .operation .rand []])), after) := by
  have he : (Expr.operation .subtract
      [.var ⟨"rand".toList, 0⟩, .operation .rand []]).Writable :=
    ⟨rfl, ⟨word_of_all (by decide) (by decide), by decide, rfl⟩, ⟨rfl, trivial⟩, trivial⟩
  have hnil : Joined [] [] := .nil isGap_nil
  have hrand : Joined ["rand".toList] "rand".toList := .cons isGap_nil (Or.inr breaks_nil) hnil
  have hgroup : Joined ["(rand)".toList] "(rand)".toList := .cons isGap_nil (Or.inl rfl) hnil
  have hboth : Joined ["rand".toList, "(rand)".toList] " rand(rand)".toList :=
    .cons isGap_space (Or.inr (breaks_cons (by decide))) hgroup
  have hall : Joined ["-".toList, "rand".toList, "(rand)".toList] "- rand(rand)".toList :=
    .cons isGap_nil (Or.inr (breaks_cons (by decide))) hboth
  have hw : Expr.Written (.operation .subtract [.var ⟨"rand".toList, 0⟩, .operation .rand []])
      "- rand(rand)".toList :=
    .bare (List.cons_ne_nil _ _) (Or.inl rfl)
      (.cons (.var _) (.cons (.operation (Or.inl rfl) .nil hrand) .nil)) hall
  obtain ⟨after, hread, -⟩ := (read_written he).2 _ hw 2 (by decide) Scope.new
  exact ⟨he, after, hread⟩

end ScoreFormula
