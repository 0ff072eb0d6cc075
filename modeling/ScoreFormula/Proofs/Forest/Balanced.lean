import ScoreFormula.Proofs.Forest.Scan

/-!
# Balanced texts

A text is balanced if no beginning of it closes more groups than it opens, and the whole
closes as many.  This counts parentheses and says nothing of how they pair up, or of what
stands between them.  It is what a text needs to have a layout (`laidOut_iff_balanced`).
-/

namespace ScoreFormula

open Token Text Forest

/-- How many more groups a text opens than it closes. -/
def surplus (t : Text) : Int := t.count '(' - t.count ')'

structure Balanced (t : Text) : Prop where
  nonneg : ∀ n, 0 ≤ surplus (t.take n)
  eq_zero : surplus t = 0

/-! ## Counting -/

theorem surplus_nil : surplus [] = 0 := rfl

theorem surplus_append (t u : Text) : surplus (t ++ u) = surplus t + surplus u := by
  simp only [surplus, List.count_append]
  omega

theorem surplus_open (t : Text) : surplus ('(' :: t) = 1 + surplus t := by
  simp only [surplus, List.count_cons_self, List.count_cons_of_ne (show '(' ≠ ')' by decide)]
  omega

theorem surplus_close (t : Text) : surplus (')' :: t) = surplus t - 1 := by
  simp only [surplus, List.count_cons_self, List.count_cons_of_ne (show ')' ≠ '(' by decide)]
  omega

theorem surplus_other {t : Text} (h : ∀ c ∈ t, c ≠ '(' ∧ c ≠ ')') : surplus t = 0 := by
  rw [surplus, List.count_eq_zero.mpr fun hm => (h _ hm).1 rfl,
    List.count_eq_zero.mpr fun hm => (h _ hm).2 rfl]
  rfl

/-- The surplus of a beginning of two texts, one after the other. -/
theorem surplus_take_append (t u : Text) (n : Nat) :
    surplus ((t ++ u).take n) = surplus (t.take n) + surplus (u.take (n - t.length)) := by
  rw [List.take_append, surplus_append]

namespace Balanced

theorem other {t : Text} (h : ∀ c ∈ t, c ≠ '(' ∧ c ≠ ')') : Balanced t where
  nonneg _ := Int.le_of_eq (surplus_other fun c hc => h c (List.mem_of_mem_take hc)).symm
  eq_zero := surplus_other h

theorem word {w : Text} (h : Word w) : Balanced w :=
  other fun c hc => (isPlain_cases (h.2 c hc)).2

theorem append {t u : Text} (ht : Balanced t) (hu : Balanced u) : Balanced (t ++ u) where
  nonneg n := by
    have := ht.nonneg n
    have := hu.nonneg (n - t.length)
    rw [surplus_take_append]
    omega
  eq_zero := by rw [surplus_append, ht.eq_zero, hu.eq_zero, Int.add_zero]

theorem parens {s : Text} (h : Balanced s) : Balanced (parens s) where
  nonneg n := by
    cases n with
    | zero => exact Int.le_refl 0
    | succ n =>
      have hs := h.nonneg n
      rw [Token.parens, List.take_succ_cons, surplus_open, surplus_take_append]
      rcases n - s.length with _ | k
      · rw [List.take_zero, surplus_nil]
        omega
      · rw [List.take_succ_cons, surplus_close, List.take_nil, surplus_nil]
        omega
  eq_zero := by
    rw [Token.parens, surplus_open, surplus_append, h.eq_zero, surplus_close, surplus_nil]
    rfl

/-- Characters before and after a text that are no parentheses do not count. -/
theorem of_around {t u v : Text} (hu : ∀ c ∈ u, c ≠ '(' ∧ c ≠ ')')
    (hv : ∀ c ∈ v, c ≠ '(' ∧ c ≠ ')') (h : Balanced (u ++ (t ++ v))) : Balanced t where
  nonneg n := by
    have hn := h.nonneg (u.length + n)
    have hv' : surplus (v.take (n - t.length)) = 0 :=
      surplus_other fun c hc => hv c (List.mem_of_mem_take hc)
    rw [List.take_length_add_append, surplus_append, surplus_other hu, surplus_take_append,
      hv'] at hn
    omega
  eq_zero := by
    have ht := h.eq_zero
    rw [surplus_append, surplus_append, surplus_other hu, surplus_other hv] at ht
    omega

end Balanced

/-! ## Balanced texts are laid out -/

theorem LaidOut.balanced {t : Text} {items : List Item} (h : LaidOut t items) : Balanced t := by
  induction h with
  | nil => exact .other fun c hc => nomatch hc
  | @gap c t _ hs _ ih =>
    have hc : Balanced [c] := by
      refine .other fun d hd => ?_
      rw [List.mem_singleton.mp hd]
      exact ne_parens_of_isSeparator hs
    exact hc.append ih
  | atom hw _ _ ih => exact (Balanced.word hw).append ih
  | group _ _ ihs ih => exact ihs.parens.append ih

/-- In a text where groups are left open, none is closed that is not open. -/
theorem Forest.Hanging.surplus_take_nonneg {t : Text} (h : Hanging t) (n : Nat) :
    0 ≤ surplus (t.take n) := by
  induction h generalizing n with
  | last ht => exact ht.balanced.nonneg n
  | @opening t u _ ht _ ih =>
    have hn := ht.balanced.nonneg n
    rw [surplus_take_append]
    rcases n - t.length with _ | k
    · rw [List.take_zero, surplus_nil]
      omega
    · have := ih k
      rw [List.take_succ_cons, surplus_open]
      omega

theorem Forest.Hanging.surplus_nonneg {t : Text} (h : Hanging t) : 0 ≤ surplus t := by
  rw [← List.take_length (l := t)]
  exact h.surplus_take_nonneg t.length

theorem Forest.Broken.not_balanced {t : Text} {cause : Imbalance} (h : Broken t cause) :
    ¬Balanced t := by
  intro hb
  cases h with
  | @close t u _ ht =>
    -- The text up to the parenthesis closes one group more than it opens.
    have hn := hb.nonneg (t.length + 1)
    rw [List.take_length_add_append, List.take_succ_cons, List.take_zero, surplus_append,
      ht.balanced.eq_zero, surplus_close, surplus_nil] at hn
    omega
  | opening ht hu =>
    have hz := hb.eq_zero
    have hn := hu.surplus_nonneg
    rw [surplus_append, surplus_open, ht.balanced.eq_zero] at hz
    omega

/-- A text is its trimmed form with blanks before and after it. -/
theorem Text.exists_around_trim (t : Text) :
    ∃ u v, (∀ c ∈ u, isBlank c = true) ∧ (∀ c ∈ v, isBlank c = true) ∧
      t = u ++ (t.trim ++ v) := by
  refine ⟨t.takeWhile isBlank, ((trimStart t).reverse.takeWhile isBlank).reverse, ?_, ?_, ?_⟩
  · exact List.all_eq_true.mp List.all_takeWhile
  · exact fun c hc => List.all_eq_true.mp List.all_takeWhile c (List.mem_reverse.mp hc)
  · rw [Text.trim, trimEnd, ← List.reverse_append, List.takeWhile_append_dropWhile,
      List.reverse_reverse, trimStart, List.takeWhile_append_dropWhile]

theorem Balanced.trim {t : Text} (h : Balanced t) : Balanced t.trim := by
  obtain ⟨u, v, hu, hv, ht⟩ := t.exists_around_trim
  rw [ht] at h
  exact h.of_around (fun c hc => ne_parens_of_isBlank (hu c hc))
    fun c hc => ne_parens_of_isBlank (hv c hc)

/-- The texts that can be laid out are those whose parentheses balance. -/
theorem laidOut_iff_balanced {t : Text} : (∃ items, LaidOut t items) ↔ Balanced t := by
  constructor
  · rintro ⟨items, h⟩
    exact h.balanced
  · intro hb
    cases h : ofText? t with
    | ok items => exact ⟨items, laidOut_of_ofText? h⟩
    | error cause => exact absurd hb.trim (broken_of_ofText? h).not_balanced

end ScoreFormula
