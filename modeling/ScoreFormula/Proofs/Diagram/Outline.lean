import ScoreFormula.Proofs.Diagram
import ScoreFormula.Proofs.Names

/-!
# A diagram determines its tree

All that a diagram shows of a tree is `labelled`: the labels of the nodes and how the nodes
stand below one another.  `labelled_of_diagram` says that it shows all of this, if the names
have no space and no newline.

A line's label begins behind its last space, so each line gives a label and the column where
that label begins.  The columns and labels of a tree, its `outline`, determine the tree: the
nodes below a node are the lines that follow it in columns further to the right.  The bars in
front of the labels are not needed for this.
-/

namespace ScoreFormula

/-- A tree of labels, with any number of children at each node. -/
inductive Labelled
  | node (label : Text) (children : List Labelled)

namespace Labelled

mutual

/-- The nodes from top to bottom, each with its column and label. -/
def outline (column : Nat) : Labelled → List (Nat × Text)
  | node label children => (column, label) :: outlineOfAll (column + 4) children

def outlineOfAll (column : Nat) : List Labelled → List (Nat × Text)
  | [] => []
  | t :: rest => t.outline column ++ outlineOfAll column rest

end

/-- What follows in an outline does not begin to the right of these columns. -/
def EndsBefore (column : Nat) (rows : List (Nat × Text)) : Prop :=
  ∀ row ∈ rows.head?, row.1 < column

theorem endsBefore_nil (column : Nat) : EndsBefore column [] := fun _ h => nomatch h

/-- Behind the children of one node comes the next node of its column, or what ends that
column. -/
theorem endsBefore_outlineOfAll {column : Nat} {rows : List (Nat × Text)}
    (h : EndsBefore column rows) (ts : List Labelled) :
    EndsBefore (column + 4) (outlineOfAll column ts ++ rows) := by
  intro row hrow
  match ts with
  | [] =>
    have := h row hrow
    omega
  | node label children :: rest =>
    cases hrow
    show column < column + 4
    omega

mutual

theorem outline_append_injective (column : Nat) (t u : Labelled) {rows rows' : List (Nat × Text)}
    (hr : EndsBefore (column + 4) rows) (hr' : EndsBefore (column + 4) rows')
    (h : t.outline column ++ rows = u.outline column ++ rows') : t = u ∧ rows = rows' := by
  match t, u with
  | node label children, node label' children' =>
    rw [outline, outline, List.cons_append, List.cons_append] at h
    obtain ⟨hrow, hrest⟩ := List.cons.inj h
    obtain rfl : label = label' := congrArg Prod.snd hrow
    obtain ⟨rfl, rfl⟩ :=
      outlineOfAll_append_injective (column + 4) children children' hr hr' hrest
    exact ⟨rfl, rfl⟩

theorem outlineOfAll_append_injective (column : Nat) (ts us : List Labelled)
    {rows rows' : List (Nat × Text)} (hr : EndsBefore column rows) (hr' : EndsBefore column rows')
    (h : outlineOfAll column ts ++ rows = outlineOfAll column us ++ rows') :
    ts = us ∧ rows = rows' := by
  match ts, us with
  | [], [] => exact ⟨rfl, h⟩
  -- What ends these columns cannot go on in one of them.
  | [], node label children :: rest =>
    have hrows : rows = outlineOfAll column (node label children :: rest) ++ rows' := h
    rw [hrows] at hr
    exact absurd (hr (column, label) rfl) (Nat.lt_irrefl column)
  | node label children :: rest, [] =>
    have hrows : rows' = outlineOfAll column (node label children :: rest) ++ rows := h.symm
    rw [hrows] at hr'
    exact absurd (hr' (column, label) rfl) (Nat.lt_irrefl column)
  | t :: rest, u :: rest' =>
    rw [outlineOfAll, outlineOfAll, List.append_assoc, List.append_assoc] at h
    obtain ⟨rfl, hrest⟩ := outline_append_injective column t u (endsBefore_outlineOfAll hr rest)
      (endsBefore_outlineOfAll hr' rest') h
    obtain ⟨rfl, rfl⟩ := outlineOfAll_append_injective column rest rest' hr hr' hrest
    exact ⟨rfl, rfl⟩

end

theorem outline_injective {column : Nat} {t u : Labelled}
    (h : t.outline column = u.outline column) : t = u := by
  refine (outline_append_injective column t u (endsBefore_nil _) (endsBefore_nil _) ?_).1
  rw [h]

end Labelled

namespace Diagram

/-- The part of a line behind its last space. -/
def lastWord (line : Text) : Text := (line.reverse.takeWhile (· != ' ')).reverse

/-- The column where the last word of a line begins, and that word. -/
def row (line : Text) : Nat × Text := (line.length - (lastWord line).length, lastWord line)

theorem lastWord_append_space {label : Text} (h : ' ' ∉ label) (t : Text) :
    lastWord (t ++ ' ' :: label) = label := by
  have hl : ∀ c ∈ label.reverse, (c != ' ') = true := by
    intro c hc
    rw [bne_iff_ne]
    rintro rfl
    exact h (List.mem_reverse.mp hc)
  rw [lastWord, List.reverse_append, List.reverse_cons, List.append_assoc,
    List.takeWhile_append_of_pos hl, List.singleton_append, List.takeWhile_cons_of_neg (by simp),
    List.append_nil, List.reverse_reverse]

theorem row_line {label : Text} (h : ' ' ∉ label) (lead : Text) (last : Bool) :
    row (lead ++ branch last ++ label) = (lead.length + 4, label) := by
  obtain ⟨mark, hmark, hlen⟩ : ∃ mark, branch last = mark ++ [' '] ∧ mark.length = 3 := by
    cases last with
    | false => exact ⟨"├──".toList, rfl, rfl⟩
    | true => exact ⟨"└──".toList, rfl, rfl⟩
  have hline : lead ++ branch last ++ label = (lead ++ mark) ++ ' ' :: label := by
    rw [hmark]
    simp
  rw [row, hline, lastWord_append_space h, List.length_append, List.length_append,
    List.length_cons, hlen]
  congr 1
  omega

/-- Lines that are each ended by a newline can be told from their text. -/
theorem eq_of_flatMap_newline {lines lines' : List Text} (h : ∀ line ∈ lines, '\n' ∉ line)
    (h' : ∀ line ∈ lines', '\n' ∉ line)
    (he : lines.flatMap (· ++ ['\n']) = lines'.flatMap (· ++ ['\n'])) : lines = lines' := by
  induction lines generalizing lines' with
  | nil =>
    cases lines' with
    | nil => rfl
    | cons line rest => simp at he
  | cons line rest ih =>
    cases lines' with
    | nil => simp at he
    | cons line' rest' =>
      have hn : ∀ w : Text, '\n' ∉ w → ∀ c ∈ w, (c != '\n') = true := by
        intro w hw c hc
        rw [bne_iff_ne]
        rintro rfl
        exact hw hc
      have hstop : ∀ t : Text, ∀ c ∈ ('\n' :: t).head?, (c != '\n') = false := by
        intro t c hc
        cases hc
        rfl
      rw [List.flatMap_cons, List.flatMap_cons, List.append_assoc, List.append_assoc] at he
      obtain ⟨rfl, hrest⟩ := Text.eq_of_run (hn line (h line List.mem_cons_self))
        (hn line' (h' line' List.mem_cons_self)) (hstop _) (hstop _) he
      rw [ih (fun other hm => h other (List.mem_cons_of_mem _ hm))
        (fun other hm => h' other (List.mem_cons_of_mem _ hm)) (List.cons.inj hrest).2]

end Diagram

namespace Expr

mutual

/-- The labels of a tree. -/
def labelled : Expr → Labelled
  | operation operator operands => .node operator.symbol (labelledOfAll operands)
  | leaf => .node leaf.label []

def labelledOfAll : List Expr → List Labelled
  | [] => []
  | e :: rest => e.labelled :: labelledOfAll rest

end

/-- The names of the variables have no space and no newline. -/
def Unbroken (cells : List Cell) : Prop := ∀ cell ∈ cells, ' ' ∉ cell.name ∧ '\n' ∉ cell.name

theorem Unbroken.oneLine {cells : List Cell} (h : Unbroken cells) : OneLine cells :=
  fun cell hc => (h cell hc).2

mutual

theorem map_row_lines :
    ∀ (e : Expr) (lead : Text) (last : Bool), Unbroken e.cells →
      (e.lines lead last).map Diagram.row = e.labelled.outline (lead.length + 4)
  | constant value, lead, last, _ => by
    have hs : ' ' ∉ (constant value).label := fun hm =>
      absurd ((Layout.ink_write Layout.ink_wholeEnd_constant value).2 ' ' hm) (by decide)
    rw [lines, List.map_singleton, Diagram.row_line hs]
    rfl
  | var cell, lead, last, h => by
    have hs : ' ' ∉ (var cell).label := (h cell List.mem_cons_self).1
    rw [lines, List.map_singleton, Diagram.row_line hs]
    rfl
  | operation operator operands, lead, last, h => by
    have hs : ' ' ∉ operator.symbol := fun hm =>
      absurd ((Forest.word_symbol operator).2 ' ' hm) (by decide)
    rw [lines, List.map_cons, Diagram.row_line hs, map_row_linesOfAll operands _ h,
      List.length_append, Diagram.length_indent]
    rfl

theorem map_row_linesOfAll :
    ∀ (es : List Expr) (lead : Text), Unbroken (cellsOfAll es) →
      (linesOfAll lead es).map Diagram.row =
        Labelled.outlineOfAll (lead.length + 4) (labelledOfAll es)
  | [], _, _ => rfl
  | e :: rest, lead, h => by
    have he : Unbroken e.cells := fun cell hc => h cell (List.mem_append_left _ hc)
    have hrest : Unbroken (cellsOfAll rest) := fun cell hc => h cell (List.mem_append_right _ hc)
    rw [linesOfAll, List.map_append, map_row_lines e lead _ he, map_row_linesOfAll rest lead hrest]
    rfl

end

theorem unbroken_of_read {limit : Nat} {t : Text} {scope : Scope} {e : Expr}
    (h : (read limit t scope).1 = .ok (some e)) : Unbroken e.cells := by
  intro cell hc
  have hw := (isName_of_read h hc).word
  exact ⟨fun hm => absurd (hw.2 ' ' hm) (by decide), newline_not_mem_of_word hw⟩

/-- A leaf is drawn without a newline. -/
theorem newline_not_mem_diagram {e : Expr} (ha : e.isAtom = true) (h : Unbroken e.cells) :
    '\n' ∉ e.diagram := by
  cases e with
  | constant value => exact Layout.newline_not_mem_constant value
  | var cell => exact (h cell List.mem_cons_self).2
  | operation operator operands => cases ha

theorem newline_mem_diagram {e : Expr} (ha : e.isAtom = false) : '\n' ∈ e.diagram := by
  obtain ⟨line, rest, hl⟩ := List.exists_cons_of_ne_nil (lines_ne_nil [] true e)
  rw [diagram, ha, hl, if_neg Bool.false_ne_true, List.flatMap_cons]
  exact List.mem_append_left _ (List.mem_append_right _ List.mem_cons_self)

/-- Trees with the same diagram have the same labels in the same places, and are both leaves
or both operations.  The names of variables must have no space and no newline for this, and
the names in trees that are read have none. -/
theorem labelled_of_diagram :
    (∀ limit t scope e, (read limit t scope).1 = .ok (some e) → Unbroken e.cells) ∧
      ∀ e e' : Expr, Unbroken e.cells → Unbroken e'.cells → e.diagram = e'.diagram →
        e.isAtom = e'.isAtom ∧ e.labelled = e'.labelled := by
  refine ⟨fun _ _ _ _ => unbroken_of_read, ?_⟩
  intro e e' h h' hd
  cases ha : e.isAtom with
  | true =>
    cases ha' : e'.isAtom with
    | true =>
      refine ⟨rfl, ?_⟩
      have hlabel : ∀ leaf : Expr, leaf.isAtom = true → leaf.labelled = .node leaf.diagram [] := by
        intro leaf hleaf
        cases leaf with
        | constant value => rfl
        | var cell => rfl
        | operation operator operands => cases hleaf
      rw [hlabel e ha, hlabel e' ha', hd]
    | false => exact absurd (hd ▸ newline_mem_diagram ha') (newline_not_mem_diagram ha h)
  | false =>
    cases ha' : e'.isAtom with
    | true => exact absurd (hd ▸ newline_mem_diagram ha) (newline_not_mem_diagram ha' h')
    | false =>
      rw [diagram, diagram, ha, ha', if_neg Bool.false_ne_true, if_neg Bool.false_ne_true] at hd
      have hline : ∀ f : Expr, Unbroken f.cells → ∀ line ∈ f.lines [] true, '\n' ∉ line :=
        fun f hf line hm =>
          (line_of_mem_lines f [] true (fun hn => nomatch hn) hf.oneLine line hm).2
      have hlines := Diagram.eq_of_flatMap_newline (hline e h) (hline e' h') hd
      have hrows := map_row_lines e [] true h
      rw [hlines, map_row_lines e' [] true h'] at hrows
      exact ⟨rfl, Labelled.outline_injective hrows.symm⟩

/-- An operator without operands and a variable that is called like it have the same label. -/
theorem labelled_of_diagram_rand :
    Unbroken [⟨"rand".toList, 0⟩] ∧
      (operation .abs [operation .rand []]).diagram =
        (operation .abs [var ⟨"rand".toList, 0⟩]).diagram ∧
      (operation .abs [operation .rand []]).labelled =
        (operation .abs [var ⟨"rand".toList, 0⟩]).labelled := by
  have hname : Unbroken (operation .abs [var ⟨"rand".toList, 0⟩]).cells := by
    intro cell hc
    rw [List.mem_singleton.mp hc]
    decide
  have hnone : Unbroken (operation .abs [operation .rand []]).cells := fun _ hc => nomatch hc
  have hd : (operation .abs [operation .rand []]).diagram =
      (operation .abs [var ⟨"rand".toList, 0⟩]).diagram := rfl
  exact ⟨hname, hd, (labelled_of_diagram.2 _ _ hnone hname hd).2⟩

end Expr
end ScoreFormula
