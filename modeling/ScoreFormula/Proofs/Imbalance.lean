import ScoreFormula.Proofs.Forest.Balanced

/-!
# Which parenthesis is at fault

A text fails to have tokens for one of two reasons, and both can be told from how many groups
are open behind each character.  Either some `)` closes a group that is not open, and the first
such one is at fault.  Or groups are left open at the end, and the `(` behind which at least one
stays open all the way is at fault.  `tokenize_imbalance` says that these are the errors, and
the positions, that tokenizing reports.
-/

namespace ScoreFormula

open Token Text Forest

/-- The `)` at this position closes a group that is not open, and none before it does. -/
structure ClosesUnopened (t : Text) (position : Nat) : Prop where
  negative : surplus (t.take (position + 1)) < 0
  first : ∀ p < position, 0 ≤ surplus (t.take (p + 1))

/-- No `)` closes a group that is not open, and behind the `(` at this position, where no group
is open, one stays open to the end. -/
structure LeavesOpen (t : Text) (position : Nat) : Prop where
  nonneg : ∀ n, 0 ≤ surplus (t.take n)
  pos : 0 < surplus t
  outermost : surplus (t.take position) = 0
  inside : ∀ n, position < n → n ≤ t.length → 0 < surplus (t.take n)

/-- What an imbalance says of a text. -/
def Imbalance.Describes (t : Text) : Imbalance → Prop
  | .unmatchedClose position input => input = t ∧ ClosesUnopened t position
  | .unmatchedOpen position input => input = t ∧ LeavesOpen t position

/-- The parenthesis that an imbalance points at. -/
def Imbalance.character? : Imbalance → Option Char
  | .unmatchedClose position input => input[position]?
  | .unmatchedOpen position input => input[position]?

/-- The parenthesis that an imbalance is named for. -/
def Imbalance.parenthesis : Imbalance → Char
  | .unmatchedClose _ _ => ')'
  | .unmatchedOpen _ _ => '('

/-! ## One imbalance for each text -/

namespace ClosesUnopened

variable {t : Text} {p q : Nat}

theorem le (hp : ClosesUnopened t p) (hq : ClosesUnopened t q) : p ≤ q := by
  refine Nat.le_of_not_lt fun hlt => ?_
  have hn := hp.first q hlt
  have := hq.negative
  omega

theorem unique (hp : ClosesUnopened t p) (hq : ClosesUnopened t q) : p = q :=
  Nat.le_antisymm (hp.le hq) (hq.le hp)

theorem not_leavesOpen (hp : ClosesUnopened t p) : ¬LeavesOpen t q := by
  intro hq
  have hn := hq.nonneg (p + 1)
  have := hp.negative
  omega

end ClosesUnopened

namespace LeavesOpen

variable {t : Text} {p q : Nat}

theorem lt_length (h : LeavesOpen t p) : p < t.length := by
  refine Nat.lt_of_not_le fun hle => ?_
  have hz := h.outermost
  have := h.pos
  rw [List.take_of_length_le hle] at hz
  omega

theorem le (hp : LeavesOpen t p) (hq : LeavesOpen t q) : p ≤ q := by
  refine Nat.le_of_not_lt fun hlt => ?_
  have hpos := hq.inside p hlt (Nat.le_of_lt hp.lt_length)
  have := hp.outermost
  omega

theorem unique (hp : LeavesOpen t p) (hq : LeavesOpen t q) : p = q :=
  Nat.le_antisymm (hp.le hq) (hq.le hp)

end LeavesOpen

namespace Imbalance

theorem Describes.unique {t : Text} {cause cause' : Imbalance} (h : cause.Describes t)
    (h' : cause'.Describes t) : cause = cause' := by
  match cause, cause', h, h' with
  | .unmatchedClose _ _, .unmatchedClose _ _, ⟨rfl, h⟩, ⟨rfl, h'⟩ => rw [h.unique h']
  | .unmatchedOpen _ _, .unmatchedOpen _ _, ⟨rfl, h⟩, ⟨rfl, h'⟩ => rw [h.unique h']
  | .unmatchedClose _ _, .unmatchedOpen _ _, ⟨_, h⟩, ⟨_, h'⟩ => exact absurd h' h.not_leavesOpen
  | .unmatchedOpen _ _, .unmatchedClose _ _, ⟨_, h⟩, ⟨_, h'⟩ => exact absurd h h'.not_leavesOpen

theorem Describes.not_balanced {t : Text} {cause : Imbalance} (h : cause.Describes t) :
    ¬Balanced t := by
  intro hb
  match cause, h with
  | .unmatchedClose position _, ⟨_, h⟩ =>
    have hn := hb.nonneg (position + 1)
    have := h.negative
    omega
  | .unmatchedOpen _ _, ⟨_, h⟩ =>
    have hz := hb.eq_zero
    have := h.pos
    omega

end Imbalance

/-! ## The imbalance that is found -/

namespace Forest

theorem closesUnopened_of_laidOut {t u : Text} {items : List Item} (h : LaidOut t items) :
    ClosesUnopened (t ++ ')' :: u) t.length where
  negative := by
    rw [List.take_length_add_append, List.take_succ_cons, List.take_zero, surplus_append,
      h.balanced.eq_zero, surplus_close, surplus_nil]
    omega
  first p hp := by
    rw [List.take_append_of_le_length hp]
    exact h.balanced.nonneg (p + 1)

theorem leavesOpen_of_laidOut {t u : Text} {items : List Item} (h : LaidOut t items)
    (hu : Hanging u) : LeavesOpen (t ++ '(' :: u) t.length where
  nonneg := (Hanging.opening h hu).surplus_take_nonneg
  pos := by
    have := hu.surplus_nonneg
    rw [surplus_append, h.balanced.eq_zero, surplus_open]
    omega
  outermost := by rw [List.take_left, h.balanced.eq_zero]
  inside n hn _ := by
    obtain ⟨k, rfl⟩ := Nat.exists_eq_add_of_lt hn
    have := hu.surplus_take_nonneg k
    rw [Nat.add_assoc, List.take_length_add_append, List.take_succ_cons, surplus_append,
      h.balanced.eq_zero, surplus_open]
    omega

theorem Broken.describes {t : Text} {cause : Imbalance} (h : Broken t cause) :
    cause.Describes t := by
  cases h with
  | close ht => exact ⟨rfl, closesUnopened_of_laidOut ht⟩
  | opening ht hu => exact ⟨rfl, leavesOpen_of_laidOut ht hu⟩

theorem Broken.character? {t : Text} {cause : Imbalance} (h : Broken t cause) :
    cause.character? = some cause.parenthesis := by
  cases h with
  | close => simp [Imbalance.character?, Imbalance.parenthesis]
  | opening => simp [Imbalance.character?, Imbalance.parenthesis]

end Forest

theorem broken_of_tokenize {input : Text} {cause : Imbalance} (h : tokenize input = .error cause) :
    Broken input.trim cause := by
  rw [tokenize_eq] at h
  cases hf : ofText? input with
  | ok items =>
    rw [hf] at h
    cases h
  | error cause' =>
    rw [hf] at h
    cases h
    exact broken_of_ofText? hf

theorem balanced_of_tokenize {input : Text} {tokens : List Text}
    (h : tokenize input = .ok tokens) : Balanced input.trim := by
  rw [tokenize_eq] at h
  obtain ⟨items, hitems, -⟩ := map_eq_ok h
  exact (laidOut_of_ofText? hitems).trim.balanced

theorem tokenize_eq_error_iff {input : Text} {cause : Imbalance} :
    tokenize input = .error cause ↔ cause.Describes input.trim := by
  constructor
  · intro h
    exact (broken_of_tokenize h).describes
  · intro h
    cases ht : tokenize input with
    | ok tokens => exact absurd (balanced_of_tokenize ht) h.not_balanced
    | error cause' => rw [h.unique (broken_of_tokenize ht).describes]

/-- Tokenizing fails at the first `)` that closes a group which is not open.  If there is none,
it fails at the `(` behind which a group stays open to the end.  If there is none either, it
succeeds.  An error reports the trimmed text, and a position in it where the parenthesis
stands that the error is named for. -/
theorem tokenize_imbalance (input : Text) :
    (∀ position text, tokenize input = .error (.unmatchedClose position text) ↔
        text = input.trim ∧ ClosesUnopened input.trim position) ∧
      (∀ position text, tokenize input = .error (.unmatchedOpen position text) ↔
        text = input.trim ∧ LeavesOpen input.trim position) ∧
      ((∃ position text, tokenize input = .error (.unmatchedClose position text)) ↔
        ∃ n, surplus (input.trim.take n) < 0) ∧
      ((∃ position text, tokenize input = .error (.unmatchedOpen position text)) ↔
        (∀ n, 0 ≤ surplus (input.trim.take n)) ∧ 0 < surplus input.trim) ∧
      ((∃ tokens, tokenize input = .ok tokens) ↔
        (∀ n, 0 ≤ surplus (input.trim.take n)) ∧ surplus input.trim = 0) ∧
      ∀ cause, tokenize input = .error cause → cause.character? = some cause.parenthesis := by
  refine ⟨fun _ _ => tokenize_eq_error_iff, fun _ _ => tokenize_eq_error_iff, ?_, ?_, ?_,
    fun cause h => (broken_of_tokenize h).character?⟩
  · constructor
    · rintro ⟨position, text, h⟩
      exact ⟨position + 1, (tokenize_eq_error_iff.mp h).2.negative⟩
    · rintro ⟨n, hn⟩
      match h : tokenize input with
      | .ok tokens =>
        have := (balanced_of_tokenize h).nonneg n
        omega
      | .error (.unmatchedOpen _ _) =>
        have := (tokenize_eq_error_iff.mp h).2.nonneg n
        omega
      | .error (.unmatchedClose position text) => exact ⟨position, text, rfl⟩
  · constructor
    · rintro ⟨position, text, h⟩
      have hopen := (tokenize_eq_error_iff.mp h).2
      exact ⟨hopen.nonneg, hopen.pos⟩
    · rintro ⟨hn, hpos⟩
      match h : tokenize input with
      | .ok tokens =>
        have := (balanced_of_tokenize h).eq_zero
        omega
      | .error (.unmatchedClose position _) =>
        have := (tokenize_eq_error_iff.mp h).2.negative
        have := hn (position + 1)
        omega
      | .error (.unmatchedOpen position text) => exact ⟨position, text, rfl⟩
  · constructor
    · rintro ⟨tokens, h⟩
      have hb := balanced_of_tokenize h
      exact ⟨hb.nonneg, hb.eq_zero⟩
    · rintro ⟨hn, hz⟩
      cases h : tokenize input with
      | ok tokens => exact ⟨tokens, rfl⟩
      | error cause => exact absurd ⟨hn, hz⟩ (tokenize_eq_error_iff.mp h).not_balanced

/-- The position counts characters of the trimmed text, and passes over groups that are
closed. -/
theorem tokenize_imbalance_behind_group :
    tokenize "\u00a0é(b) (c (d)".toList = .error (.unmatchedOpen 5 "é(b) (c (d)".toList) ∧
      (Imbalance.unmatchedOpen 5 "é(b) (c (d)".toList).character? = some '(' := by
  have h : tokenize "\u00a0é(b) (c (d)".toList =
      .error (.unmatchedOpen 5 "é(b) (c (d)".toList) := rfl
  obtain ⟨-, -, -, -, -, hchar⟩ := tokenize_imbalance "\u00a0é(b) (c (d)".toList
  exact ⟨h, hchar _ h⟩

end ScoreFormula
