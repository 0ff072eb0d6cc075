import ScoreFormula.Expr.Read
import ScoreFormula.Proofs.Literal

/-!
# The grammar of literals

A numeral has at least one digit before its exponent, and its exponent at least one digit.  A
number given from outside a formula is a numeral or one of three words in any mixture of
cases, with or without a sign; of these words a literal may be two only, each in one spelling.
`readAtom_iff_form` says that the atoms of this form are constants, and that all others are
variables.

Each reader splits off the longest run of a kind and goes on with the rest.  What the grammar
puts behind such a run never goes on with it, so the split is the one that the grammar makes.
-/

namespace ScoreFormula

namespace Numeral

def Digits (t : Text) : Prop := t ≠ [] ∧ ∀ c ∈ t, c.isDigit = true

/-- A text of some kind, with or without a sign in front of it. -/
inductive Signed (kind : Text → Prop) : Text → Prop
  | bare {t : Text} : kind t → Signed kind t
  | plus {t : Text} : kind t → Signed kind ('+' :: t)
  | minus {t : Text} : kind t → Signed kind ('-' :: t)

/-- What may stand behind the digits of a numeral. -/
inductive Exponent : Text → Prop
  | none : Exponent []
  | some {c : Char} {t : Text} : c = 'e' ∨ c = 'E' → Signed Digits t → Exponent (c :: t)

/-- The numerals without a sign. -/
inductive Form : Text → Prop
  | whole {digits exponent : Text} :
    Digits digits → Exponent exponent → Form (digits ++ exponent)
  | pointed {digits fraction exponent : Text} :
    Digits digits → (∀ c ∈ fraction, c.isDigit = true) → Exponent exponent →
      Form (digits ++ '.' :: (fraction ++ exponent))
  | fraction {digits exponent : Text} :
    Digits digits → Exponent exponent → Form ('.' :: (digits ++ exponent))

end Numeral

namespace Number

/-- The words for numbers, in any mixture of cases. -/
def IsSpecial (word : Text) : Prop :=
  word.map Char.toLower ∈ ["inf".toList, "infinity".toList, "nan".toList]

instance (word : Text) : Decidable (IsSpecial word) :=
  inferInstanceAs (Decidable (word.map Char.toLower ∈ _))

/-- The texts of numbers given from outside a formula. -/
def Form : Text → Prop := Numeral.Signed fun body => IsSpecial body ∨ Numeral.Form body

end Number

namespace Literal

/-- The atoms that are constants. -/
def Form : Text → Prop :=
  Numeral.Signed fun body =>
    body = "Infinity".toList ∨ body = "NaN".toList ∨ Numeral.Form body

end Literal

/-! ## Signs and digits -/

namespace Numeral

/-- A sign is taken off if there is one, so text of a kind that never begins with one is what
is left. -/
theorem signed_iff {kind : Text → Prop} {t : Text}
    (hk : ∀ body, kind body → ∀ c ∈ body.head?, c ≠ '+' ∧ c ≠ '-') :
    Signed kind t ↔ kind (splitSign t).2 := by
  match t with
  | [] =>
    refine ⟨fun h => ?_, .bare⟩
    cases h with
    | bare h => exact h
  | c :: t =>
    by_cases hp : c = '+'
    · subst hp
      refine ⟨fun h => ?_, .plus⟩
      cases h with
      | bare h => exact absurd rfl (hk _ h '+' rfl).1
      | plus h => exact h
    · by_cases hm : c = '-'
      · subst hm
        refine ⟨fun h => ?_, .minus⟩
        cases h with
        | bare h => exact absurd rfl (hk _ h '-' rfl).2
        | minus h => exact h
      · have hs : (splitSign (c :: t)).2 = c :: t := by
          rw [splitSign]
          · exact fun rest he => hp (List.cons.inj he).1
          · exact fun rest he => hm (List.cons.inj he).1
        rw [hs]
        refine ⟨fun h => ?_, .bare⟩
        cases h with
        | bare h => exact h
        | plus => exact absurd rfl hp
        | minus => exact absurd rfl hm

theorem splitDigits_append {digits rest : Text} (hd : ∀ c ∈ digits, c.isDigit = true)
    (hr : ∀ c ∈ rest.head?, c.isDigit = false) : splitDigits (digits ++ rest) = (digits, rest) := by
  rw [splitDigits, List.takeWhile_append_of_pos hd, List.dropWhile_append_of_pos hd]
  cases rest with
  | nil => simp
  | cons c rest => simp [hr c rfl]

theorem exists_splitDigits_eq (t : Text) :
    ∃ digits rest, splitDigits t = (digits, rest) ∧ t = digits ++ rest ∧
      ∀ c ∈ digits, c.isDigit = true :=
  ⟨_, _, rfl, List.takeWhile_append_dropWhile.symm, List.all_eq_true.mp List.all_takeWhile⟩

theorem splitFraction_of_ne {t : Text} (h : ∀ c ∈ t.head?, c ≠ '.') :
    splitFraction t = ([], t) := by
  cases t with
  | nil => rfl
  | cons c t =>
    rw [splitFraction]
    exact fun rest he => h c rfl (List.cons.inj he).1

theorem Digits.head_append {digits : Text} (h : Digits digits) (t : Text) :
    ∀ c ∈ (digits ++ t).head?, c.isDigit = true := by
  intro c hc
  obtain ⟨d, w, rfl⟩ := List.exists_cons_of_ne_nil h.1
  cases hc
  exact h.2 c List.mem_cons_self

theorem ne_sign_of_isAlphanum {c : Char} (h : c.isAlphanum = true) : c ≠ '+' ∧ c ≠ '-' := by
  constructor
  · rintro rfl
    exact absurd h (by decide)
  · rintro rfl
    exact absurd h (by decide)

theorem ne_sign_of_isDigit {c : Char} (h : c.isDigit = true) : c ≠ '+' ∧ c ≠ '-' := by
  refine ne_sign_of_isAlphanum ?_
  rw [Char.isAlphanum, h, Bool.or_true]

/-! ## Numerals -/

theorem Exponent.head {t : Text} (h : Exponent t) :
    ∀ c ∈ t.head?, c.isDigit = false ∧ c ≠ '.' := by
  intro c hc
  cases h with
  | none => exact nomatch hc
  | some he =>
    cases hc
    rcases he with rfl | rfl <;> decide

theorem isSome_readExponent?_iff {t : Text} : (readExponent? t).isSome = true ↔ Exponent t := by
  cases t with
  | nil => exact ⟨fun _ => .none, fun _ => rfl⟩
  | cons c t =>
    have hsigned : Signed Digits t ↔ Digits (splitSign t).2 := by
      refine signed_iff fun digits hd d hm => ne_sign_of_isDigit (hd.head_append [] d ?_)
      rwa [List.append_nil]
    have hexponent : Exponent (c :: t) ↔ (c = 'e' ∨ c = 'E') ∧ Signed Digits t := by
      refine ⟨fun h => ?_, fun h => .some h.1 h.2⟩
      cases h with
      | some hc hd => exact ⟨hc, hd⟩
    rw [hexponent, hsigned, readExponent?]
    by_cases hc : c = 'e' ∨ c = 'E'
    · rw [if_pos hc]
      by_cases hd : (splitSign t).2 ≠ [] ∧ (splitSign t).2.all Char.isDigit = true
      · simp only [if_pos hd]
        exact ⟨fun _ => ⟨hc, hd.1, List.all_eq_true.mp hd.2⟩, fun _ => rfl⟩
      · simp only [if_neg hd]
        refine ⟨fun h => absurd h Bool.false_ne_true, fun h => ?_⟩
        exact absurd ⟨h.2.1, List.all_eq_true.mpr h.2.2⟩ hd
    · rw [if_neg hc]
      exact ⟨fun h => absurd h Bool.false_ne_true, fun h => absurd h.1 hc⟩

/-- Once the digits before and behind a point are known, the exponent decides. -/
theorem isSome_read?_of_split {t whole rest fraction exponent : Text}
    (hw : splitDigits t = (whole, rest)) (hf : splitFraction rest = (fraction, exponent)) :
    (read? t).isSome = true ↔ ¬(whole = [] ∧ fraction = []) ∧ Exponent exponent := by
  rw [read?, hw]
  simp only [hf]
  by_cases hn : whole = [] ∧ fraction = []
  · simp [hn]
  · rw [if_neg hn, Option.isSome_map, isSome_readExponent?_iff]
    exact ⟨fun h => ⟨hn, h⟩, And.right⟩

theorem form_of_isSome_read? {t : Text} (h : (read? t).isSome = true) : Form t := by
  obtain ⟨whole, rest, hw, rfl, hdigits⟩ := exists_splitDigits_eq t
  by_cases hp : ∃ after, rest = '.' :: after
  · obtain ⟨after, rfl⟩ := hp
    obtain ⟨fraction, exponent, hf, rfl, hfraction⟩ := exists_splitDigits_eq after
    obtain ⟨hn, he⟩ := (isSome_read?_of_split hw hf).mp h
    by_cases hempty : whole = []
    · subst hempty
      exact .fraction ⟨fun hf => hn ⟨rfl, hf⟩, hfraction⟩ he
    · exact .pointed ⟨hempty, hdigits⟩ hfraction he
  · have hf : splitFraction rest = ([], rest) := by
      refine splitFraction_of_ne ?_
      intro c hc
      rintro rfl
      obtain ⟨after, hafter⟩ := List.head?_eq_some_iff.mp hc
      exact hp ⟨after, hafter⟩
    obtain ⟨hn, he⟩ := (isSome_read?_of_split hw hf).mp h
    exact .whole ⟨fun hempty => hn ⟨hempty, rfl⟩, hdigits⟩ he

theorem isSome_read?_of_form {t : Text} (h : Form t) : (read? t).isSome = true := by
  have hpoint : ∀ rest : Text, ∀ c ∈ ('.' :: rest).head?, c.isDigit = false := by
    intro rest c hc
    cases hc
    decide
  cases h with
  | whole hd he =>
    have hw := splitDigits_append hd.2 fun c hc => (he.head c hc).1
    have hf := splitFraction_of_ne fun c hc => (he.head c hc).2
    exact (isSome_read?_of_split hw hf).mpr ⟨fun hn => hd.1 hn.1, he⟩
  | @pointed digits fraction exponent hd hfraction he =>
    have hw := splitDigits_append hd.2 (hpoint (fraction ++ exponent))
    have hf := splitDigits_append hfraction fun c hc => (he.head c hc).1
    exact (isSome_read?_of_split hw hf).mpr ⟨fun hn => hd.1 hn.1, he⟩
  | @fraction digits exponent hd he =>
    have hnone : ∀ c ∈ ([] : Text), c.isDigit = true := fun _ hc => nomatch hc
    have hw := splitDigits_append hnone (hpoint (digits ++ exponent))
    have hf := splitDigits_append hd.2 fun c hc => (he.head c hc).1
    exact (isSome_read?_of_split hw hf).mpr ⟨fun hn => hd.1 hn.2, he⟩

theorem isSome_read?_iff {t : Text} : (read? t).isSome = true ↔ Form t :=
  ⟨form_of_isSome_read?, isSome_read?_of_form⟩

theorem Form.head {t : Text} (h : Form t) : ∀ c ∈ t.head?, c.isDigit = true ∨ c = '.' := by
  intro c hc
  cases h with
  | whole hd => exact Or.inl (hd.head_append _ c hc)
  | pointed hd => exact Or.inl (hd.head_append _ c hc)
  | fraction =>
    cases hc
    exact Or.inr rfl

theorem Form.ne_sign {t : Text} (h : Form t) : ∀ c ∈ t.head?, c ≠ '+' ∧ c ≠ '-' := by
  intro c hc
  rcases h.head c hc with hd | rfl
  · exact ne_sign_of_isDigit hd
  · decide

theorem Form.not_isAlpha {t : Text} (h : Form t) : ∀ c ∈ t.head?, c.isAlpha = false := by
  intro c hc
  rcases h.head c hc with hd | rfl
  · cases ha : c.isAlpha with
    | false => rfl
    | true =>
      rw [isDigit_eq_false_of_isAlpha ha] at hd
      cases hd
  · decide

end Numeral

/-! ## Words -/

namespace Number

theorem isSome_special?_iff {word : Text} : (special? word).isSome = true ↔ IsSpecial word := by
  rw [special?, IsSpecial, List.mem_cons, List.mem_cons, List.mem_singleton, ← or_assoc]
  by_cases hi : word.map Char.toLower = "inf".toList ∨ word.map Char.toLower = "infinity".toList
  · simp only [if_pos hi]
    exact ⟨fun _ => Or.inl hi, fun _ => rfl⟩
  · simp only [if_neg hi]
    by_cases hn : word.map Char.toLower = "nan".toList
    · simp only [if_pos hn]
      exact ⟨fun _ => Or.inr hn, fun _ => rfl⟩
    · simp only [if_neg hn]
      exact ⟨fun h => absurd h Bool.false_ne_true, fun h => absurd h (not_or.mpr ⟨hi, hn⟩)⟩

theorem isAlpha_of_isAlpha_toLower {c : Char} (h : c.toLower.isAlpha = true) :
    c.isAlpha = true := by
  by_cases hc : c.val ≥ 'A'.val ∧ c.val ≤ 'Z'.val
  · have hu : c.isUpper = true := decide_eq_true hc
    show (c.isUpper || c.isLower) = true
    rw [hu, Bool.true_or]
  · have he : c.toLower = c := dif_neg hc
    rwa [he] at h

theorem IsSpecial.isAlpha {word : Text} (h : IsSpecial word) :
    word.head?.any Char.isAlpha = true := by
  have hspellings : ∀ spelling ∈ ["inf".toList, "infinity".toList, "nan".toList],
      spelling.head?.any Char.isAlpha = true := by decide
  have hhead := hspellings _ h
  cases word with
  | nil => cases hhead
  | cons c word => exact isAlpha_of_isAlpha_toLower hhead

theorem form_iff {t : Text} :
    Form t ↔ IsSpecial (Numeral.splitSign t).2 ∨ Numeral.Form (Numeral.splitSign t).2 := by
  refine Numeral.signed_iff fun body hb c hc => ?_
  rcases hb with hs | hf
  · have halpha := hs.isAlpha
    rw [Option.mem_def.mp hc, Option.any_some] at halpha
    refine Numeral.ne_sign_of_isAlphanum ?_
    rw [Char.isAlphanum, halpha, Bool.true_or]
  · exact hf.ne_sign c hc

/-- A value given from outside a formula is a number if and only if it has this form. -/
theorem isSome_read?_iff {t : Text} : (read? t).isSome = true ↔ Form t := by
  rw [form_iff, ← isSome_special?_iff, ← Numeral.isSome_read?_iff, read?]
  simp

end Number

namespace Literal

theorem isName_eq_false_of_head {word : Text} (h : ∀ c ∈ word.head?, c.isAlpha = false) :
    isName word = false := by
  cases word with
  | nil => rfl
  | cons c word =>
    have hc := h c rfl
    simp [isName, hc]

/-- Of the words for numbers only two are no names. -/
theorem isName_of_isSpecial {word : Text} (h : Number.IsSpecial word) :
    isName word = false ↔ word = "Infinity".toList ∨ word = "NaN".toList := by
  rw [isName, h.isAlpha, Bool.true_and, Bool.and_eq_false_iff, bne_eq_false_iff_eq,
    bne_eq_false_iff_eq]

theorem isSome_read?_iff {atom : Text} : (read? atom).isSome = true ↔ Form atom := by
  have hsigned : Form atom ↔ (Numeral.splitSign atom).2 = "Infinity".toList ∨
      (Numeral.splitSign atom).2 = "NaN".toList ∨ Numeral.Form (Numeral.splitSign atom).2 := by
    refine Numeral.signed_iff fun body hb c hc => ?_
    rcases hb with rfl | rfl | hf
    · cases hc
      decide
    · cases hc
      decide
    · exact hf.ne_sign c hc
  rw [hsigned, read?]
  by_cases hname : isName (Numeral.splitSign atom).2 = true
  · rw [if_pos hname]
    refine ⟨fun h => absurd h Bool.false_ne_true, fun h => ?_⟩
    rcases h with hw | hw | hf
    · rw [hw] at hname
      exact absurd hname (by decide)
    · rw [hw] at hname
      exact absurd hname (by decide)
    · rw [isName_eq_false_of_head hf.not_isAlpha] at hname
      cases hname
  · rw [if_neg hname, Number.isSome_read?_iff, Number.form_iff]
    constructor
    · intro h
      rcases h with hs | hf
      · rcases (isName_of_isSpecial hs).mp (Bool.not_eq_true _ ▸ hname) with hw | hw
        · exact Or.inl hw
        · exact Or.inr (Or.inl hw)
      · exact Or.inr (Or.inr hf)
    · intro h
      rcases h with hw | hw | hf
      · rw [hw]
        exact Or.inl (by decide)
      · rw [hw]
        exact Or.inl (by decide)
      · exact Or.inr hf

end Literal

namespace Expr

/-- The atoms that have the form of a literal are the ones that are literals.  They are read
as constants, and every other atom as the variable that has its text as the name. -/
theorem readAtom_iff_form (atom : Text) :
    ((Literal.read? atom).isSome = true ↔ Literal.Form atom) ∧
      ∀ scope,
        ((∃ value, readAtom atom scope = (.constant value, scope)) ↔ Literal.Form atom) ∧
          (readAtom atom scope = (.var (scope.intern atom).1, (scope.intern atom).2) ↔
            ¬Literal.Form atom) := by
  refine ⟨Literal.isSome_read?_iff, ?_⟩
  intro scope
  rw [← Literal.isSome_read?_iff, readAtom]
  cases h : Literal.read? atom with
  | some value => simp
  | none => simp

/-- Misspelled numbers and words are variables. -/
example : ["inf", "Inf", "-inf", "nan", "NAN", "infinity", "INFINITY", ".", "1e", "--1", "1_000",
    "e5", "+", "١"].all (fun spelling => (Literal.read? spelling.toList).isNone) = true := by
  decide

end Expr
end ScoreFormula
