import ScoreFormula.Decimal.Layout
import ScoreFormula.Proofs.Literal

/-!
# How numbers are written

Whatever the layout is, the text of a number is not empty and has no blank, no separator and
no parenthesis, provided that whole numbers end in nothing of that kind.
-/

namespace ScoreFormula

open Token

theorem Text.isDigit_of_mem_ofNat {n : Nat} {c : Char} (h : c ∈ Text.ofNat n) :
    c.isDigit = true := Nat.isDigit_of_mem_toDigits (by decide) (by decide) h

theorem Text.ink_ofNat (n : Nat) : Ink (Text.ofNat n) := fun _ hc =>
  isInk_of_isDigit (isDigit_of_mem_ofNat hc)

theorem Text.ofNat_ne_nil (n : Nat) : Text.ofNat n ≠ [] := Nat.toDigits_ne_nil

theorem ink_of_all {t : Text} (h : t.all isInk = true) : Ink t := List.all_eq_true.mp h

theorem Ink.of_sublist {t u : Text} (h : Ink t) (hs : u.Sublist t) : Ink u := fun c hc =>
  h c (hs.subset hc)

theorem ink_replicate {c : Char} (hc : isInk c = true) (n : Nat) : Ink (List.replicate n c) := by
  intro d hd
  rw [List.eq_of_mem_replicate hd]
  exact hc

namespace Layout

theorem ink_ofInt (n : Int) : Ink (ofInt n) := by
  rw [ofInt]
  by_cases h : n < 0
  · rw [if_pos h]
    exact ink_cons (by decide) (Text.ink_ofNat _)
  · rw [if_neg h]
    exact Text.ink_ofNat _

theorem ink_exponentForm {digits : Text} (h : Ink digits) (order : Int) :
    Ink (exponentForm digits order) := by
  have hexp : Ink ('e' :: ofInt order) := ink_cons (by decide) (ink_ofInt order)
  match digits, h with
  | [], _ => exact hexp
  | [_], h => exact ink_append h hexp
  | first :: second :: rest, h =>
    have hrest : Ink ('.' :: second :: rest) :=
      ink_cons (by decide) (h.of_sublist (List.sublist_cons_self first _))
    exact ink_append (ink_cons (h first List.mem_cons_self) hrest) hexp

theorem exponentForm_ne_nil (digits : Text) (order : Int) : exponentForm digits order ≠ [] := by
  match digits with
  | [] => exact List.cons_ne_nil _ _
  | [_] => exact List.cons_ne_nil _ _
  | _ :: _ :: _ => exact List.cons_ne_nil _ _

variable {layout : Layout}

theorem ink_positional (hw : Ink layout.wholeEnd) {digits : Text} (h : Ink digits)
    (exponent : Int) : Ink (layout.positional digits exponent) := by
  rw [positional]
  by_cases he : 0 ≤ exponent
  · rw [if_pos he]
    exact ink_append (ink_append h (ink_replicate (by decide) _)) hw
  · rw [if_neg he]
    dsimp only
    by_cases hp : (-exponent).toNat < digits.length
    · rw [if_pos hp]
      exact ink_append (h.of_sublist (List.take_sublist _ _))
        (ink_cons (by decide) (h.of_sublist (List.drop_sublist _ _)))
    · rw [if_neg hp]
      exact ink_cons (by decide) (ink_append
        (ink_cons (by decide) (ink_replicate (by decide) _)) h)

theorem positional_ne_nil {digits : Text} (hn : digits ≠ []) (exponent : Int) :
    layout.positional digits exponent ≠ [] := by
  rw [positional]
  by_cases he : 0 ≤ exponent
  · rw [if_pos he, List.append_assoc]
    exact List.append_ne_nil_of_left_ne_nil hn _
  · rw [if_neg he]
    dsimp only
    by_cases hp : (-exponent).toNat < digits.length
    · rw [if_pos hp]
      exact List.append_ne_nil_of_right_ne_nil _ (List.cons_ne_nil _ _)
    · rw [if_neg hp]
      exact List.cons_ne_nil _ _

theorem ink_decimal (hw : Ink layout.wholeEnd) (d : Decimal) :
    layout.decimal d ≠ [] ∧ Ink (layout.decimal d) := by
  have hd := Text.ink_ofNat d.coefficient
  rw [decimal]
  split
  · exact ⟨exponentForm_ne_nil _ _, ink_exponentForm hd _⟩
  · exact ⟨positional_ne_nil (Text.ofNat_ne_nil _) _, ink_positional hw hd _⟩

/-- Numbers are written in ink. -/
theorem ink_write (hw : Ink layout.wholeEnd) (x : Double) :
    layout.write x ≠ [] ∧ Ink (layout.write x) := by
  rw [write]
  cases Binary.ofDouble? x with
  | none =>
    dsimp only
    split
    · exact ⟨by decide, ink_of_all (by decide)⟩
    · split
      · exact ⟨by decide, ink_of_all (by decide)⟩
      · exact ⟨by decide, ink_of_all (by decide)⟩
  | some b =>
    have hm : ∀ magnitude : Text, magnitude ≠ [] ∧ Ink magnitude →
        (if b.negative then '-' :: magnitude else magnitude) ≠ [] ∧
          Ink (if b.negative then '-' :: magnitude else magnitude) := by
      intro magnitude h
      by_cases hb : b.negative = true
      · rw [if_pos hb]
        exact ⟨List.cons_ne_nil _ _, ink_cons (by decide) h.2⟩
      · rw [if_neg hb]
        exact h
    refine hm _ ?_
    by_cases hz : b.coefficient = 0
    · rw [if_pos hz]
      exact ⟨List.cons_ne_nil _ _, ink_cons (by decide) hw⟩
    · rw [if_neg hz]
      exact ink_decimal hw _

theorem ink_wholeEnd_constant : Ink constant.wholeEnd := ink_of_all (by decide)

end Layout
end ScoreFormula
