import ScoreFormula.Expr.Diagram
import ScoreFormula.Proofs.Decimal
import ScoreFormula.Proofs.Forest.Read

/-!
# The lines of a diagram

Every line of a diagram has a mark in it and no newline, if the names of the variables have
none.  So the text of a diagram falls into its lines, and ends with the last of them.
-/

namespace ScoreFormula

open Token

theorem newline_not_mem_of_word {w : Text} (h : Word w) : '\n' ∉ w := fun hm =>
  absurd (h.2 '\n' hm) (by decide)

theorem newline_not_mem_of_ink {t : Text} (h : Ink t) : '\n' ∉ t := fun hm =>
  absurd (h '\n' hm) (by decide)

theorem Layout.newline_not_mem_constant (value : Double) : '\n' ∉ Layout.constant.write value :=
  newline_not_mem_of_ink (Layout.ink_write Layout.ink_wholeEnd_constant value).2

namespace Diagram

theorem branch_ne_nil (last : Bool) : branch last ≠ [] := by
  cases last <;> decide

theorem newline_not_mem_branch (last : Bool) : '\n' ∉ branch last := by
  cases last <;> decide

theorem length_indent (last : Bool) : (indent last).length = 4 := by
  cases last <;> rfl

theorem newline_not_mem_indent (last : Bool) : '\n' ∉ indent last := by
  cases last <;> decide

end Diagram

namespace Expr

/-- The names of the variables have no newline. -/
def OneLine (cells : List Cell) : Prop := ∀ cell ∈ cells, '\n' ∉ cell.name

theorem lines_ne_nil (lead : Text) (last : Bool) (e : Expr) : e.lines lead last ≠ [] := by
  cases e <;> exact List.cons_ne_nil _ _

theorem newline_not_mem_line {lead label : Text} (hlead : '\n' ∉ lead) (hlabel : '\n' ∉ label)
    (last : Bool) : '\n' ∉ lead ++ Diagram.branch last ++ label := by
  rw [List.mem_append, List.mem_append]
  exact fun h => h.elim (fun h => h.elim hlead (Diagram.newline_not_mem_branch last)) hlabel

theorem line_ne_nil (lead label : Text) (last : Bool) :
    lead ++ Diagram.branch last ++ label ≠ [] :=
  List.append_ne_nil_of_left_ne_nil
    (List.append_ne_nil_of_right_ne_nil _ (Diagram.branch_ne_nil last)) _

mutual

theorem line_of_mem_lines :
    ∀ (e : Expr) (lead : Text) (last : Bool), '\n' ∉ lead → OneLine e.cells →
      ∀ line ∈ e.lines lead last, line ≠ [] ∧ '\n' ∉ line
  | constant value, lead, last, hlead, _, line, hm => by
    rw [List.mem_singleton.mp hm]
    exact ⟨line_ne_nil _ _ _,
      newline_not_mem_line hlead (Layout.newline_not_mem_constant value) last⟩
  | var cell, lead, last, hlead, hcells, line, hm => by
    rw [List.mem_singleton.mp hm]
    exact ⟨line_ne_nil _ _ _, newline_not_mem_line hlead (hcells cell List.mem_cons_self) last⟩
  | operation operator operands, lead, last, hlead, hcells, line, hm => by
    rw [lines] at hm
    rcases List.mem_cons.mp hm with rfl | hm
    · have hsymbol := newline_not_mem_of_word (Forest.word_symbol operator)
      exact ⟨line_ne_nil _ _ _, newline_not_mem_line hlead hsymbol last⟩
    · refine line_of_mem_linesOfAll operands _ ?_ hcells line hm
      rw [List.mem_append]
      exact fun h => h.elim hlead (Diagram.newline_not_mem_indent last)

theorem line_of_mem_linesOfAll :
    ∀ (es : List Expr) (lead : Text), '\n' ∉ lead → OneLine (cellsOfAll es) →
      ∀ line ∈ linesOfAll lead es, line ≠ [] ∧ '\n' ∉ line
  | [], _, _, _, _, hm => nomatch hm
  | e :: rest, lead, hlead, hcells, line, hm => by
    rcases List.mem_append.mp hm with hm | hm
    · exact line_of_mem_lines e lead rest.isEmpty hlead
        (fun cell hc => hcells cell (List.mem_append_left _ hc)) line hm
    · exact line_of_mem_linesOfAll rest lead hlead
        (fun cell hc => hcells cell (List.mem_append_right _ hc)) line hm

end

/-- A diagram that is ended by a newline has a line in front of it. -/
theorem exists_last_line {e : Expr} (hcells : ∀ cell ∈ e.cells, Word cell.name) :
    ∃ before line, line ≠ [] ∧ '\n' ∉ line ∧
      (e.diagram ++ if e.isAtom then ['\n'] else []) = before ++ (line ++ ['\n']) := by
  cases e with
  | constant value =>
    obtain ⟨hn, hink⟩ := Layout.ink_write Layout.ink_wholeEnd_constant value
    exact ⟨[], Layout.constant.write value, hn, newline_not_mem_of_ink hink, rfl⟩
  | var cell =>
    have hw := hcells cell List.mem_cons_self
    exact ⟨[], cell.name, hw.1, newline_not_mem_of_word hw, rfl⟩
  | operation operator operands =>
    have hone : OneLine (operation operator operands).cells := fun cell hc =>
      newline_not_mem_of_word (hcells cell hc)
    obtain ⟨front, line, hlines⟩ := (List.eq_nil_or_concat _).resolve_left
      (lines_ne_nil [] true (operation operator operands))
    rw [List.concat_eq_append] at hlines
    have hline := line_of_mem_lines _ [] true (fun h => nomatch h) hone line
    rw [hlines] at hline
    obtain ⟨hn, hnew⟩ := hline (List.mem_append_right _ List.mem_cons_self)
    refine ⟨front.flatMap (· ++ ['\n']), line, hn, hnew, ?_⟩
    have hdiagram : (operation operator operands).diagram =
        ((operation operator operands).lines [] true).flatMap (· ++ ['\n']) := rfl
    rw [hdiagram, hlines, List.flatMap_append, List.flatMap_singleton]
    exact List.append_nil _

end Expr
end ScoreFormula
