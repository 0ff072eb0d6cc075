import ScoreFormula.Expr.Infix
import ScoreFormula.Proofs.Decimal
import ScoreFormula.Proofs.Names
import ScoreFormula.Proofs.WellFormed

/-!
# The tokens of infix text

Infix text is written without regard to tokens.  It has spaces only behind operators with three
operands, and most symbols stand right beside their operands.  But every operation has its operands
inside parentheses that it opens and closes itself, so what is in front of them, if anything, is
the symbol of a unary operator.  Hence infix text is one token, or that symbol and a group behind
it (`tokenize_infixText_of_read`).

That a group is one token takes no more than that its content balances.  By induction the operands
balance as they have tokens, whatever they are.  What is needed of names and numbers is that they
are words, and have no blank at their ends.
-/

namespace ScoreFormula

open Token Text Forest

theorem balanced_spaced {operands : List Text} (h : ∀ t ∈ operands, Balanced t) :
    Balanced (operands.flatMap (' ' :: ·)) := by
  induction operands with
  | nil => exact .other fun c hc => nomatch hc
  | cons t rest ih =>
    have hspace : Balanced [' '] := .other fun c hc => by
      rw [List.mem_singleton.mp hc]
      decide
    have hrest := ih fun u hu => h u (List.mem_cons_of_mem t hu)
    rw [List.flatMap_cons]
    exact (hspace.append (h t List.mem_cons_self)).append hrest

namespace Operator

/-- The tokens of an operator that is written around texts. -/
def tokensAround (operator : Operator) : List Text → List Text
  | [a] => [operator.symbol, parens a]
  | operands => [operator.around operands]

theorem around_singleton (operator : Operator) (a : Text) :
    operator.around [a] = operator.symbol ++ parens a :=
  List.append_assoc operator.symbol ('(' :: a) [')']

/-- Operands that are not a single one are inside the parentheses together with the symbol. -/
theorem exists_around_eq_parens (operator : Operator) {operands : List Text}
    (hn : operands.length ≠ 1) (h : ∀ t ∈ operands, Balanced t) :
    ∃ s, Balanced s ∧ operator.around operands = parens s := by
  have hsymbol : Balanced operator.symbol := .word (word_symbol operator)
  match operands, hn, h with
  | [], _, h => exact ⟨_, hsymbol.append (balanced_spaced h), rfl⟩
  | [_], hn, _ => exact absurd rfl hn
  | [a, b], _, h =>
    have ha : Balanced a := h a List.mem_cons_self
    have hb : Balanced b := h b (List.mem_cons_of_mem a List.mem_cons_self)
    exact ⟨_, (ha.append hsymbol).append hb, rfl⟩
  | a :: b :: c :: rest, _, h => exact ⟨_, hsymbol.append (balanced_spaced h), rfl⟩

theorem tokensAround_of_length {operator : Operator} {operands : List Text}
    (hn : operands.length ≠ 1) : operator.tokensAround operands = [operator.around operands] := by
  match operands, hn with
  | [], _ => rfl
  | [_], hn => exact absurd rfl hn
  | _ :: _ :: _, _ => rfl

/-- No gap is needed between a symbol and the group behind it. -/
theorem tokenize_symbol_parens (operator : Operator) {s : Text} (h : Balanced s) :
    tokenize (operator.symbol ++ parens s) = .ok [operator.symbol, parens s] := by
  have hsymbol := tokenize_of_trim_eq (word_symbol operator) operator.trim_symbol
  have hs : Segmented (operator.symbol ++ ([] ++ parens s)) [operator.symbol, parens s] :=
    .cons (.word (word_symbol operator)) isGap_nil (fun _ hw => absurd hw (not_word_parens s))
      (.single (.group h))
  refine tokenize_of_flush hs ⟨?_, ?_⟩
  · exact (flush_of_token hsymbol).2.first
  · exact (flush_of_token (tokenize_parens_of_balanced h)).2.last

theorem tokenize_around (operator : Operator) {operands : List Text}
    (h : ∀ t ∈ operands, Balanced t) :
    tokenize (operator.around operands) = .ok (operator.tokensAround operands) := by
  by_cases hn : operands.length = 1
  · obtain ⟨a, rfl⟩ := List.length_eq_one_iff.mp hn
    rw [around_singleton]
    exact tokenize_symbol_parens operator (h a List.mem_cons_self)
  · obtain ⟨s, hs, ht⟩ := operator.exists_around_eq_parens hn h
    rw [tokensAround_of_length hn, ht]
    exact tokenize_parens_of_balanced hs

end Operator

namespace Expr

theorem length_infixTexts (es : List Expr) : (infixTexts es).length = es.length := by
  induction es with
  | nil => rfl
  | cons e rest ih => rw [infixTexts, List.length_cons, List.length_cons, ih]

theorem tokenize_write (value : Double) :
    tokenize (Layout.constant.write value) = .ok [Layout.constant.write value] := by
  obtain ⟨hn, hink⟩ := Layout.ink_write Layout.ink_wholeEnd_constant value
  exact tokenize_of_trim_eq (hink.word hn) hink.trim

/-- The tokens that the text of a tree has. -/
def infixTokens : Expr → List Text
  | operation operator operands => operator.tokensAround (infixTexts operands)
  | e => [e.infixText]

mutual

theorem tokenize_infixText : ∀ e : Expr, (∀ cell ∈ e.cells, IsName cell.name) →
    tokenize e.infixText = .ok e.infixTokens
  | constant value, _ => tokenize_write value
  | var cell, h => by
    have hname : IsName cell.name := h cell List.mem_cons_self
    exact tokenize_of_trim_eq hname.word hname.trim
  | operation operator operands, h => operator.tokenize_around (balanced_infixTexts operands h)

theorem balanced_infixTexts : ∀ es : List Expr, (∀ cell ∈ cellsOfAll es, IsName cell.name) →
    ∀ t ∈ infixTexts es, Balanced t
  | [], _ => fun _ hm => nomatch hm
  | e :: rest, h => by
    have he := tokenize_infixText e fun cell hc => h cell (List.mem_append_left _ hc)
    have hrest := balanced_infixTexts rest fun cell hc => h cell (List.mem_append_right _ hc)
    exact List.forall_mem_cons.mpr ⟨exists_tokens_iff_balanced.mp ⟨_, he⟩, hrest⟩

end

/-- The infix text of a tree that is read balances.  It is two tokens, the symbol and the operand
in parentheses, if the tree is that of a unary operator, and otherwise it is one token. -/
theorem tokenize_infixText_of_read {limit : Nat} {t : Text} {scope : Scope} {e : Expr}
    (h : (read limit t scope).1 = .ok (some e)) :
    Balanced e.infixText ∧
      (∀ operator operands, e = .operation operator operands → operator.arity = 1 →
        ∃ operand, operands = [operand] ∧
          tokenize e.infixText = .ok [operator.symbol, parens operand.infixText]) ∧
      ((∀ operator operands, e = .operation operator operands → operator.arity ≠ 1) →
        tokenize e.infixText = .ok [e.infixText]) := by
  have ht := tokenize_infixText e fun cell hc => isName_of_read h hc
  have hw := wellFormed_of_read h
  refine ⟨exists_tokens_iff_balanced.mp ⟨_, ht⟩, ?_, fun hn => ?_⟩
  · rintro operator operands rfl ha
    obtain ⟨operand, rfl⟩ := List.length_eq_one_iff.mp (hw.1.trans ha)
    exact ⟨operand, rfl, ht⟩
  · cases e with
    | constant value => exact ht
    | var cell => exact ht
    | operation operator operands =>
      have hlength : (infixTexts operands).length ≠ 1 := by
        rw [length_infixTexts, hw.1]
        exact hn operator operands rfl
      rw [infixTokens, Operator.tokensAround_of_length hlength] at ht
      exact ht

/-- A symbol and a group behind it, and the group by itself, in which a blank belongs to a name. -/
theorem tokenize_infixText_of_read_not :
    ∃ e operand, (read 1 "! (+ a\u00a0b c)".toList Scope.new).1 = .ok (some e) ∧
      (read 0 "+ a\u00a0b c".toList Scope.new).1 = .ok (some operand) ∧
      e = .operation .not [operand] ∧ operand.infixText = "(a\u00a0b+c)".toList ∧
      tokenize e.infixText = .ok ["!".toList, parens operand.infixText] ∧
      tokenize operand.infixText = .ok [operand.infixText] := by
  have hf : ofText? "! (+ a\u00a0b c)".toList = .ok [.atom "!".toList,
      .group "(+ a\u00a0b c)".toList
        [.atom "+".toList, .atom "a\u00a0b".toList, .atom "c".toList]] := rfl
  have hf' : ofText? "+ a\u00a0b c".toList =
      .ok [.atom "+".toList, .atom "a\u00a0b".toList, .atom "c".toList] := rfl
  have hr : (read 1 "! (+ a\u00a0b c)".toList Scope.new).1 =
      .ok (some (.operation .not
        [.operation .add [.var ⟨"a\u00a0b".toList, 0⟩, .var ⟨"c".toList, 1⟩]])) := by
    rw [read_of_ok hf]
    rfl
  have hr' : (read 0 "+ a\u00a0b c".toList Scope.new).1 =
      .ok (some (.operation .add [.var ⟨"a\u00a0b".toList, 0⟩, .var ⟨"c".toList, 1⟩])) := by
    rw [read_of_ok hf']
    rfl
  obtain ⟨-, hunary, -⟩ := tokenize_infixText_of_read hr
  obtain ⟨operand, ho, ht⟩ := hunary _ _ rfl rfl
  obtain ⟨-, -, hother⟩ := tokenize_infixText_of_read hr'
  cases ho
  refine ⟨_, _, hr, hr', rfl, rfl, ht, hother ?_⟩
  rintro operator operands he
  cases he
  decide

end Expr
end ScoreFormula
