import Mathlib.Data.List.Chain
import ScoreFormula.Proofs.Diagram
import ScoreFormula.Proofs.Draw

/-!
# The strokes of a diagram

The strokes in front of the labels join up from line to line.  `exists_lines_diagram` says so of
every diagram: the lines stand for the nodes in pre-order, each with its mark in the columns of
its depth, and no stroke ends in the air or begins there, except under the label of a parent.

A node draws a bar through the lines below it as long as more children of its parent follow.  So
the last line of a subtree has strokes down exactly where its root's `indent` puts bars below
it, whatever the subtree is, and there the next line takes them up.
-/

namespace ScoreFormula

namespace Diagram

/-- A line of a diagram and the place of its node. -/
structure Line where
  place : Place
  /-- What stands in front of the label. -/
  drawn : Text
  label : Text

def Line.text (line : Line) : Text := line.drawn ++ line.label

/-- The mark stands in the column of the node's depth, four columns for each level. -/
def Line.Placed (line : Line) : Prop :=
  ∃ lead last, line.drawn = lead ++ branch last ∧ lead.length = 4 * line.place.length

/-- A stroke in this column goes on below. -/
def Down (drawn : Text) (column : Nat) : Prop :=
  drawn[column]? = some '|' ∨ drawn[column]? = some '├'

/-- A stroke in this column comes from above. -/
def Up (drawn : Text) (column : Nat) : Prop := Down drawn column ∨ drawn[column]? = some '└'

/-- The line of a node, with a label to hang on, and the line of one of its children. -/
def IsParent (upper lower : Line) : Prop :=
  upper.label ≠ [] ∧ ∃ index, lower.place = upper.place ++ [index]

/-- Strokes down are taken up in the next line, and strokes up begin in the line above: at a
stroke down, or under the first character of the parent's label. -/
structure Connected (lines : List Line) : Prop where
  below : ∀ i line, lines[i]? = some line → ∀ column, Down line.drawn column →
    ∃ next, lines[i + 1]? = some next ∧ Up next.drawn column
  above : ∀ i line, lines[i + 1]? = some line → ∀ column, Up line.drawn column →
    ∃ upper, lines[i]? = some upper ∧
      (Down upper.drawn column ∨ IsParent upper line ∧ column = upper.drawn.length)

/-! ## Strokes in one line -/

theorem down_append {t u : Text} {column : Nat} :
    Down (t ++ u) column ↔ Down t column ∨ t.length ≤ column ∧ Down u (column - t.length) := by
  unfold Down
  by_cases hc : column < t.length
  · have hle : ¬t.length ≤ column := by omega
    rw [List.getElem?_append_left hc]
    exact ⟨Or.inl, fun h => h.resolve_right fun h => hle h.1⟩
  · have hle : t.length ≤ column := by omega
    rw [List.getElem?_append_right hle, List.getElem?_eq_none hle]
    simp [hle]

/-- A character that is not among the rest can only be the first. -/
theorem getElem?_cons_eq_iff {c d : Char} {rest : Text} (hd : d ∉ rest) {column : Nat} :
    (c :: rest)[column]? = some d ↔ column = 0 ∧ c = d := by
  cases column with
  | zero => simp
  | succ column =>
    rw [List.getElem?_cons_succ]
    exact ⟨fun h => absurd (List.mem_of_getElem? h) hd, fun h => absurd h.1 (by omega)⟩

theorem down_cons {c : Char} {rest : Text} (hbar : '|' ∉ rest) (hfork : '├' ∉ rest)
    {column : Nat} : Down (c :: rest) column ↔ column = 0 ∧ (c = '|' ∨ c = '├') := by
  rw [Down, getElem?_cons_eq_iff hbar, getElem?_cons_eq_iff hfork, and_or_left]

theorem down_indent {last : Bool} {column : Nat} :
    Down (indent last) column ↔ last = false ∧ column = 0 := by
  cases last with
  | false => simp [indent, down_cons]
  | true => simp [indent, down_cons]

theorem down_branch {last : Bool} {column : Nat} :
    Down (branch last) column ↔ last = false ∧ column = 0 := by
  cases last with
  | false => simp [branch, down_cons]
  | true => simp [branch, down_cons]

theorem corner_branch {last : Bool} {column : Nat} :
    (branch last)[column]? = some '└' ↔ last = true ∧ column = 0 := by
  cases last with
  | false => simp [branch, getElem?_cons_eq_iff]
  | true => simp [branch, getElem?_cons_eq_iff]

theorem down_append_indent {lead : Text} {last : Bool} {column : Nat} :
    Down (lead ++ indent last) column ↔ Down lead column ∨ last = false ∧ column = lead.length := by
  rw [down_append, down_indent]
  constructor
  · intro h
    exact h.imp_right fun h => ⟨h.2.1, by omega⟩
  · intro h
    exact h.imp_right fun h => ⟨by omega, h.1, by omega⟩

/-- Below its mark a node's strokes go on where its `indent` has bars. -/
theorem down_append_branch {lead : Text} {last : Bool} {column : Nat} :
    Down (lead ++ branch last) column ↔ Down (lead ++ indent last) column := by
  rw [down_append, down_append, down_branch, down_indent]

theorem corner_not_mem_append_indent {lead : Text} (hl : '└' ∉ lead) (last : Bool) :
    '└' ∉ lead ++ indent last := by
  have hindent : '└' ∉ indent last := by
    cases last <;> decide
  rw [List.mem_append]
  exact fun h => h.elim hl hindent

/-- Of the strokes up to a node's line one leads to its mark, and the others pass it by. -/
theorem up_append_branch {lead : Text} (hl : '└' ∉ lead) {last : Bool} {column : Nat} :
    Up (lead ++ branch last) column ↔ Down lead column ∨ column = lead.length := by
  have hcorner : (lead ++ branch last)[column]? = some '└' ↔
      last = true ∧ column = lead.length := by
    by_cases hc : column < lead.length
    · rw [List.getElem?_append_left hc]
      refine ⟨fun h => absurd (List.mem_of_getElem? h) hl, fun h => ?_⟩
      omega
    · have hle : lead.length ≤ column := by omega
      rw [List.getElem?_append_right hle, corner_branch]
      have hzero : column - lead.length = 0 ↔ column = lead.length := by omega
      rw [hzero]
  rw [Up, down_append_branch, down_append_indent, hcorner, or_assoc, ← or_and_right]
  cases last <;> simp

/-! ## Strokes from line to line -/

/-- The strokes of two lines, one directly above the other, join up. -/
structure Meets (upper lower : Line) : Prop where
  below : ∀ column, Down upper.drawn column → Up lower.drawn column
  above : ∀ column, Up lower.drawn column →
    Down upper.drawn column ∨ IsParent upper lower ∧ column = upper.drawn.length

/-- A first child hangs on its parent's label. -/
theorem meets_child {upper lower : Line} {lead : Text} {last last' : Bool} (hl : '└' ∉ lead)
    (hu : upper.drawn = lead ++ branch last)
    (hd : lower.drawn = lead ++ indent last ++ branch last') (hp : IsParent upper lower) :
    Meets upper lower := by
  have hl' := corner_not_mem_append_indent hl last
  have hlen : (lead ++ indent last).length = (lead ++ branch last).length := by
    rw [List.length_append, List.length_append]
    cases last <;> rfl
  constructor
  · intro column h
    rw [hu, down_append_branch] at h
    rw [hd, up_append_branch hl']
    exact Or.inl h
  · intro column h
    rw [hd, up_append_branch hl', hlen] at h
    rw [hu, down_append_branch]
    exact h.imp_right fun h => ⟨hp, h⟩

/-- Any line with a bar for the next child meets the line of that child. -/
theorem meets_next {upper lower : Line} {lead : Text} {last : Bool} (hl : '└' ∉ lead)
    (hu : ∀ column, Down upper.drawn column ↔ Down (lead ++ indent false) column)
    (hd : lower.drawn = lead ++ branch last) : Meets upper lower := by
  have hiff : ∀ column, Down upper.drawn column ↔ Up lower.drawn column := by
    intro column
    rw [hu, hd, up_append_branch hl, down_append_indent]
    simp
  exact ⟨fun column h => (hiff column).mp h, fun column h => Or.inl ((hiff column).mpr h)⟩

theorem connected_of_isChain {lines : List Line} (h : lines.IsChain Meets)
    (hend : ∀ line ∈ lines.getLast?, ∀ column, ¬Down line.drawn column) : Connected lines := by
  have hmeets : ∀ {i upper lower}, lines[i]? = some upper → lines[i + 1]? = some lower →
      Meets upper lower := by
    intro i upper lower hu hl
    obtain ⟨_, rfl⟩ := List.getElem?_eq_some_iff.mp hu
    obtain ⟨hi, rfl⟩ := List.getElem?_eq_some_iff.mp hl
    exact List.isChain_iff_getElem.mp h i hi
  constructor
  · intro i line hline column hdown
    cases hnext : lines[i + 1]? with
    | some next => exact ⟨next, rfl, (hmeets hline hnext).below column hdown⟩
    | none =>
      have hi := (List.getElem?_eq_some_iff.mp hline).1
      have hlen := List.getElem?_eq_none_iff.mp hnext
      have hlast : lines.length - 1 = i := by omega
      rw [← hlast, ← List.getLast?_eq_getElem?] at hline
      exact absurd hdown (hend line hline column)
  · intro i line hline column hup
    have hi := (List.getElem?_eq_some_iff.mp hline).1
    have hupper : lines[i]? = some lines[i] := List.getElem?_eq_getElem (by omega)
    exact ⟨lines[i], hupper, (hmeets hupper hline).above column hup⟩

end Diagram

namespace Expr

open Diagram

mutual

/-- The nodes of a tree in pre-order, each with its place. -/
def nodes (place : Place) : Expr → List (Place × Expr)
  | constant value => [(place, constant value)]
  | var cell => [(place, var cell)]
  | operation operator operands =>
    (place, operation operator operands) :: nodesOfAll place 0 operands

/-- The nodes of the operands of the node at a place, the first of which has this index. -/
def nodesOfAll (place : Place) (index : Nat) : List Expr → List (Place × Expr)
  | [] => []
  | e :: rest => e.nodes (place ++ [index]) ++ nodesOfAll place (index + 1) rest

end

mutual

/-- The lines of a tree with the places of their nodes. -/
def rows (place : Place) (lead : Text) (last : Bool) : Expr → List Line
  | constant value => [⟨place, lead ++ branch last, (constant value).label⟩]
  | var cell => [⟨place, lead ++ branch last, (var cell).label⟩]
  | operation operator operands =>
    ⟨place, lead ++ branch last, operator.symbol⟩ ::
      rowsOfAll place 0 (lead ++ indent last) operands

def rowsOfAll (place : Place) (index : Nat) (lead : Text) : List Expr → List Line
  | [] => []
  | e :: rest =>
    e.rows (place ++ [index]) lead rest.isEmpty ++ rowsOfAll place (index + 1) lead rest

end

mutual

theorem map_text_rows (place : Place) (lead : Text) (last : Bool) (e : Expr) :
    (e.rows place lead last).map Line.text = e.lines lead last := by
  cases e with
  | constant value => rfl
  | var cell => rfl
  | operation operator operands =>
    rw [rows, lines, List.map_cons, map_text_rowsOfAll place 0 _ operands]
    rfl

theorem map_text_rowsOfAll (place : Place) (index : Nat) (lead : Text) (es : List Expr) :
    (rowsOfAll place index lead es).map Line.text = linesOfAll lead es := by
  cases es with
  | nil => rfl
  | cons e rest =>
    rw [rowsOfAll, linesOfAll, List.map_append, map_text_rows _ lead _ e,
      map_text_rowsOfAll place (index + 1) lead rest]

end

mutual

theorem map_label_rows (place : Place) (lead : Text) (last : Bool) (e : Expr) :
    (e.rows place lead last).map (fun line => (line.place, line.label)) =
      (e.nodes place).map fun node => (node.1, node.2.label) := by
  cases e with
  | constant value => rfl
  | var cell => rfl
  | operation operator operands =>
    rw [rows, nodes, List.map_cons, List.map_cons, map_label_rowsOfAll place 0 _ operands]
    rfl

theorem map_label_rowsOfAll (place : Place) (index : Nat) (lead : Text) (es : List Expr) :
    (rowsOfAll place index lead es).map (fun line => (line.place, line.label)) =
      (nodesOfAll place index es).map fun node => (node.1, node.2.label) := by
  cases es with
  | nil => rfl
  | cons e rest =>
    rw [rowsOfAll, nodesOfAll, List.map_append, List.map_append, map_label_rows _ lead _ e,
      map_label_rowsOfAll place (index + 1) lead rest]

end

/-! ## Columns -/

mutual

theorem placed_rows {place : Place} {lead : Text} (hl : lead.length = 4 * place.length)
    (last : Bool) (e : Expr) : ∀ line ∈ e.rows place lead last, line.Placed := by
  intro line hm
  cases e with
  | constant value =>
    rw [List.mem_singleton.mp hm]
    exact ⟨lead, last, rfl, hl⟩
  | var cell =>
    rw [List.mem_singleton.mp hm]
    exact ⟨lead, last, rfl, hl⟩
  | operation operator operands =>
    rw [rows] at hm
    rcases List.mem_cons.mp hm with rfl | hm
    · exact ⟨lead, last, rfl, hl⟩
    · refine placed_rowsOfAll ?_ 0 operands line hm
      rw [List.length_append, length_indent, hl]

theorem placed_rowsOfAll {place : Place} {lead : Text} (hl : lead.length = 4 * place.length + 4)
    (index : Nat) (es : List Expr) : ∀ line ∈ rowsOfAll place index lead es, line.Placed := by
  intro line hm
  cases es with
  | nil => exact nomatch hm
  | cons e rest =>
    rw [rowsOfAll] at hm
    rcases List.mem_append.mp hm with hm | hm
    · refine placed_rows ?_ rest.isEmpty e line hm
      rw [hl, List.length_append, List.length_singleton]
      omega
    · exact placed_rowsOfAll hl (index + 1) rest line hm

end

/-! ## The strokes of a tree -/

theorem head?_rows (place : Place) (lead : Text) (last : Bool) (e : Expr) :
    (e.rows place lead last).head? = some ⟨place, lead ++ branch last, e.label⟩ := by
  cases e <;> rfl

theorem head?_rowsOfAll (place : Place) (index : Nat) (lead : Text) (e : Expr)
    (rest : List Expr) :
    (rowsOfAll place index lead (e :: rest)).head? =
      some ⟨place ++ [index], lead ++ branch rest.isEmpty, e.label⟩ := by
  rw [rowsOfAll, List.head?_append, head?_rows, Option.some_or]

theorem getLast?_append_rowsOfAll (before : List Line) (place : Place) (index : Nat)
    (lead : Text) (e : Expr) (rest : List Expr) :
    (before ++ rowsOfAll place index lead (e :: rest)).getLast? =
      (rowsOfAll place index lead (e :: rest)).getLast? := by
  have hn : rowsOfAll place index lead (e :: rest) ≠ [] := by
    intro h
    have hhead := head?_rowsOfAll place index lead e rest
    rw [h] at hhead
    cases hhead
  rw [List.getLast?_append, List.getLast?_eq_some_getLast hn, Option.some_or]

mutual

/-- The lines of a tree meet one another, and the last one has strokes down where the root has
bars for its next sibling and for those of its ancestors. -/
theorem isChain_rows {lead : Text} (hl : '└' ∉ lead) (place : Place) (last : Bool) (e : Expr) :
    (e.rows place lead last).IsChain Meets ∧
      ∀ line ∈ (e.rows place lead last).getLast?, ∀ column,
        Down line.drawn column ↔ Down (lead ++ indent last) column := by
  have hleaf : ∀ label, ∀ line ∈ [(⟨place, lead ++ branch last, label⟩ : Line)].getLast?,
      ∀ column, Down line.drawn column ↔ Down (lead ++ indent last) column := by
    intro label line hm column
    cases hm
    exact down_append_branch
  match e with
  | constant value => exact ⟨List.isChain_singleton _, hleaf _⟩
  | var cell => exact ⟨List.isChain_singleton _, hleaf _⟩
  | operation operator [] => exact ⟨List.isChain_singleton _, hleaf _⟩
  | operation operator (first :: rest) =>
    have hl' := corner_not_mem_append_indent hl last
    obtain ⟨hchain, hend⟩ := isChain_rowsOfAll hl' place 0 (first :: rest)
    have hsymbol : operator.symbol ≠ [] := (Forest.word_symbol operator).1
    rw [rows]
    constructor
    · refine List.isChain_cons.mpr ⟨?_, hchain⟩
      intro lower hm
      rw [head?_rowsOfAll] at hm
      cases hm
      exact meets_child hl rfl rfl ⟨hsymbol, 0, rfl⟩
    · intro line hm
      rw [← List.singleton_append, getLast?_append_rowsOfAll] at hm
      exact hend line hm

theorem isChain_rowsOfAll {lead : Text} (hl : '└' ∉ lead) (place : Place) (index : Nat)
    (es : List Expr) :
    (rowsOfAll place index lead es).IsChain Meets ∧
      ∀ line ∈ (rowsOfAll place index lead es).getLast?, ∀ column,
        Down line.drawn column ↔ Down lead column := by
  match es with
  | [] => exact ⟨List.isChain_nil, fun _ hm => nomatch hm⟩
  | [e] =>
    obtain ⟨hchain, hend⟩ := isChain_rows hl (place ++ [index]) true e
    rw [rowsOfAll, rowsOfAll, List.append_nil]
    refine ⟨hchain, fun line hm column => ?_⟩
    rw [hend line hm column, down_append_indent]
    simp
  | e :: next :: rest =>
    obtain ⟨hchain, hend⟩ := isChain_rows hl (place ++ [index]) false e
    obtain ⟨hchains, hends⟩ := isChain_rowsOfAll hl place (index + 1) (next :: rest)
    rw [rowsOfAll]
    constructor
    · refine List.isChain_append.mpr ⟨hchain, hchains, ?_⟩
      intro upper hu lower hm
      rw [head?_rowsOfAll] at hm
      cases hm
      exact meets_next hl (hend upper hu) rfl
    · intro line hm
      rw [getLast?_append_rowsOfAll] at hm
      exact hends line hm

end

/-- A diagram that is no single leaf has one line for each node in pre-order, if the names have
no newline.  The mark of a node at depth `k` stands in column `4 * k` and its label four columns
further, and the strokes in front of the labels join up. -/
theorem exists_lines_diagram {e : Expr} (ha : e.isAtom = false) (h : OneLine e.cells) :
    ∃ lines : List Line,
      e.diagram = lines.flatMap (fun line => line.text ++ ['\n']) ∧
        (∀ line ∈ lines, '\n' ∉ line.text) ∧
        (lines.map fun line => (line.place, line.label)) =
          ((e.nodes []).map fun node => (node.1, node.2.label)) ∧
        (∀ line ∈ lines, ∃ lead last, line.drawn = lead ++ branch last ∧
          lead.length = 4 * line.place.length ∧
            line.drawn.length = 4 * line.place.length + 4) ∧
        Connected lines := by
  have htext : (e.rows [] [] true).map Line.text = e.lines [] true := map_text_rows [] [] true e
  have hzero : ([] : Text).length = 4 * ([] : Place).length := rfl
  have hcorner : '└' ∉ ([] : Text) := fun hm => nomatch hm
  refine ⟨e.rows [] [] true, ?_, ?_, map_label_rows [] [] true e, ?_, ?_⟩
  · rw [diagram, ha, if_neg Bool.false_ne_true, ← htext, List.flatMap_map]
  · intro line hm
    have hline : line.text ∈ e.lines [] true := htext ▸ List.mem_map_of_mem hm
    exact (line_of_mem_lines e [] true (fun hn => nomatch hn) h _ hline).2
  · intro line hm
    obtain ⟨lead, last, hd, hlen⟩ := placed_rows hzero true e line hm
    refine ⟨lead, last, hd, hlen, ?_⟩
    rw [hd, List.length_append, hlen]
    cases last <;> rfl
  · obtain ⟨hchain, hend⟩ := isChain_rows hcorner [] true e
    refine connected_of_isChain hchain fun line hm column hdown => ?_
    rw [hend line hm column, down_append_indent] at hdown
    simp [Down] at hdown

/-- Lines of every depth that follow one another up and down. -/
theorem exists_lines_diagram_nested :
    ∃ (e : Expr) (lines : List Line),
      e = operation .choose [operation .rand [], operation .abs [var ⟨"y".toList, 0⟩],
        var ⟨"x".toList, 1⟩] ∧
      e.isAtom = false ∧ OneLine e.cells ∧
      e.diagram = lines.flatMap (fun line => line.text ++ ['\n']) ∧
      lines.map Line.place = [[], [0], [1], [1, 0], [2]] ∧ Connected lines := by
  have hone : OneLine (operation .choose [operation .rand [],
      operation .abs [var ⟨"y".toList, 0⟩], var ⟨"x".toList, 1⟩]).cells := by
    have hall : ∀ cell ∈ [(⟨"y".toList, 0⟩ : Cell), ⟨"x".toList, 1⟩], '\n' ∉ cell.name := by decide
    exact hall
  obtain ⟨lines, hd, -, hlabels, -, hc⟩ := exists_lines_diagram rfl hone
  refine ⟨_, lines, rfl, rfl, hone, hd, ?_, hc⟩
  have hplaces := congrArg (List.map Prod.fst) hlabels
  rw [List.map_map] at hplaces
  exact hplaces

end Expr
end ScoreFormula
