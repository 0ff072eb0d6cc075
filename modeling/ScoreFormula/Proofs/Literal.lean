import ScoreFormula.Decimal.Numeral
import ScoreFormula.Proofs.Forest.Trim

/-!
# The characters of a literal

A literal is made of digits, letters, signs and points.  None of them is blank or a
parenthesis, so a literal is an atom and trimming leaves it as it is.
-/

namespace ScoreFormula

open Token

/-- A run of characters of one kind ends where the first other character stands. -/
theorem Text.eq_of_run {p : Char → Bool} {w w' r r' : Text} (hw : ∀ c ∈ w, p c = true)
    (hw' : ∀ c ∈ w', p c = true) (hr : ∀ c ∈ r.head?, p c = false)
    (hr' : ∀ c ∈ r'.head?, p c = false) (h : w ++ r = w' ++ r') : w = w' ∧ r = r' := by
  have hrun : ∀ {w r : Text}, (∀ c ∈ w, p c = true) → (∀ c ∈ r.head?, p c = false) →
      (w ++ r).takeWhile p = w := by
    intro w r hw hr
    rw [List.takeWhile_append_of_pos hw]
    cases r with
    | nil => rw [List.takeWhile_nil, List.append_nil]
    | cons c r => rw [List.takeWhile_cons_of_neg (by simp [hr c rfl]), List.append_nil]
  have he : w = w' := by rw [← hrun hw hr, h, hrun hw' hr']
  rw [he] at h
  exact ⟨he, List.append_cancel_left h⟩

/-- Characters that neither separate atoms nor are trimmed off their ends. -/
def isInk (c : Char) : Bool := !Text.isBlank c && isPlain c

/-- The text has no blank and no parenthesis. -/
def Ink (t : Text) : Prop := ∀ c ∈ t, isInk c = true

theorem isInk_of_between {c : Char} (hl : 0x2A ≤ c.toNat) (hu : c.toNat ≤ 0x7E) :
    isInk c = true := by
  have hb : Text.isBlank c = false := by
    simp [Text.isBlank]
    omega
  have hs : isSeparator c = false := by
    cases hs : isSeparator c with
    | false => rfl
    | true => exact absurd (isBlank_of_isSeparator hs) (by simp [hb])
  have ho : c ≠ '(' := by rintro rfl; exact absurd hl (by decide)
  have hc : c ≠ ')' := by rintro rfl; exact absurd hl (by decide)
  simp [isInk, isPlain, hb, hs, ho, hc]

theorem isInk_of_isDigit {c : Char} (h : c.isDigit = true) : isInk c = true := by
  simp only [Char.isDigit, Bool.and_eq_true, decide_eq_true_eq, ge_iff_le,
    UInt32.le_iff_toNat_le] at h
  have hl : 48 ≤ c.toNat := h.1
  have hu : c.toNat ≤ 57 := h.2
  exact isInk_of_between (by omega) (by omega)

theorem isInk_of_toLower {c : Char} (hl : 'a'.toNat ≤ c.toLower.toNat)
    (hu : c.toLower.toNat ≤ 'z'.toNat) : isInk c = true := by
  have ha : 'a'.toNat = 97 := rfl
  have hz : 'z'.toNat = 122 := rfl
  by_cases h : c.val ≥ 'A'.val ∧ c.val ≤ 'Z'.val
  · have h1 : 65 ≤ c.toNat := UInt32.le_iff_toNat_le.mp h.1
    have h2 : c.toNat ≤ 90 := UInt32.le_iff_toNat_le.mp h.2
    exact isInk_of_between (by omega) (by omega)
  · have hc : c.toLower = c := dif_neg h
    rw [hc] at hl hu
    exact isInk_of_between (by omega) (by omega)

theorem isDigit_eq_false_of_isAlpha {c : Char} (h : c.isAlpha = true) : c.isDigit = false := by
  have hl : 65 ≤ c.toNat := by
    rcases (Bool.or_eq_true _ _).mp h with hu | hl
    · exact UInt32.le_iff_toNat_le.mp (of_decide_eq_true hu).1
    · have ha : 97 ≤ c.toNat :=
        UInt32.le_iff_toNat_le.mp (of_decide_eq_true ((Bool.and_eq_true _ _).mp hl).1)
      omega
  cases hd : c.isDigit with
  | false => rfl
  | true =>
    have h9 : c.toNat ≤ 57 :=
      UInt32.le_iff_toNat_le.mp (of_decide_eq_true ((Bool.and_eq_true _ _).mp hd).2)
    omega

theorem ink_nil : Ink [] := fun _ h => nomatch h

theorem ink_cons {c : Char} {t : Text} (hc : isInk c = true) (ht : Ink t) : Ink (c :: t) := by
  intro d hd
  rcases List.mem_cons.mp hd with rfl | hd
  · exact hc
  · exact ht d hd

theorem ink_append {t u : Text} (ht : Ink t) (hu : Ink u) : Ink (t ++ u) := by
  intro c hc
  rcases List.mem_append.mp hc with hc | hc
  · exact ht c hc
  · exact hu c hc

theorem ink_of_all_isDigit {t : Text} (h : t.all Char.isDigit = true) : Ink t := fun c hc =>
  isInk_of_isDigit (List.all_eq_true.mp h c hc)

theorem Ink.trimStart {t : Text} (h : Ink t) : t.trimStart = t := by
  cases t with
  | nil => rfl
  | cons c t =>
    have hc : isInk c = true := h c List.mem_cons_self
    have hb : Text.isBlank c = false := by
      rw [isInk, Bool.and_eq_true, Bool.not_eq_true'] at hc
      exact hc.1
    exact Text.trimStart_cons_of_not_blank hb t

theorem Ink.trim {t : Text} (h : Ink t) : t.trim = t := by
  have hr : Ink t.reverse := fun c hc => h c (List.mem_reverse.mp hc)
  rw [Text.trim, h.trimStart]
  show (Text.trimStart t.reverse).reverse = t
  rw [hr.trimStart, List.reverse_reverse]

theorem Ink.word {t : Text} (h : Ink t) (hn : t ≠ []) : Word t := by
  refine ⟨hn, ?_⟩
  intro c hc
  have hi := h c hc
  rw [isInk, Bool.and_eq_true] at hi
  exact hi.2

namespace Numeral

theorem ink_of_splitSign {t : Text} (h : Ink (splitSign t).2) : Ink t := by
  match t, h with
  | [], _ => exact ink_nil
  | c :: t, h =>
    by_cases hp : c = '+'
    · subst hp
      exact ink_cons (by decide) h
    · by_cases hm : c = '-'
      · subst hm
        exact ink_cons (by decide) h
      · rw [splitSign] at h
        · exact h
        · rintro rest he
          exact hp (List.cons.inj he).1
        · rintro rest he
          exact hm (List.cons.inj he).1

theorem ink_of_splitDigits {t : Text} (h : Ink (splitDigits t).2) : Ink t := by
  have hd : Ink (t.takeWhile Char.isDigit) := ink_of_all_isDigit List.all_takeWhile
  rw [← List.takeWhile_append_dropWhile (p := Char.isDigit) (l := t)]
  exact ink_append hd h

theorem ink_of_splitFraction {t : Text} (h : Ink (splitFraction t).2) : Ink t := by
  match t, h with
  | [], _ => exact ink_nil
  | c :: t, h =>
    by_cases hp : c = '.'
    · subst hp
      exact ink_cons (by decide) (ink_of_splitDigits h)
    · rw [splitFraction] at h
      · exact h
      · rintro rest he
        exact hp (List.cons.inj he).1

theorem ink_of_readExponent? {t : Text} {e : Int} (h : readExponent? t = some e) : Ink t := by
  cases t with
  | nil => exact ink_nil
  | cons c t =>
    rw [readExponent?] at h
    by_cases hc : c = 'e' ∨ c = 'E'
    · rw [if_pos hc] at h
      have hi : isInk c = true := by
        rcases hc with rfl | rfl <;> decide
      by_cases hd : (splitSign t).2 ≠ [] ∧ (splitSign t).2.all Char.isDigit = true
      · exact ink_cons hi (ink_of_splitSign (ink_of_all_isDigit hd.2))
      · simp only [if_neg hd] at h
        exact nomatch h
    · rw [if_neg hc] at h
      exact nomatch h

theorem ink_of_read? {t : Text} {d : Decimal} (h : read? t = some d) : t ≠ [] ∧ Ink t := by
  constructor
  · rintro rfl
    exact nomatch h
  · rw [read?] at h
    by_cases he : (splitDigits t).1 = [] ∧ (splitFraction (splitDigits t).2).1 = []
    · simp only [if_pos he] at h
      exact nomatch h
    · simp only [if_neg he] at h
      obtain ⟨e, hx, -⟩ := Option.map_eq_some_iff.mp h
      exact ink_of_splitDigits (ink_of_splitFraction (ink_of_readExponent? hx))

end Numeral

namespace Number

theorem ink_of_map_toLower {word spelling : Text} (h : word.map Char.toLower = spelling)
    (hn : spelling ≠ [])
    (hs : spelling.all (fun c => 'a'.toNat ≤ c.toNat && c.toNat ≤ 'z'.toNat) = true) :
    word ≠ [] ∧ Ink word := by
  constructor
  · intro he
    rw [he] at h
    exact hn h.symm
  · intro c hc
    have hm : c.toLower ∈ spelling := by
      rw [← h]
      exact List.mem_map_of_mem hc
    have hrange := List.all_eq_true.mp hs c.toLower hm
    rw [Bool.and_eq_true, decide_eq_true_eq, decide_eq_true_eq] at hrange
    exact isInk_of_toLower hrange.1 hrange.2

theorem ink_of_special? {word : Text} {x : Double} (h : special? word = some x) :
    word ≠ [] ∧ Ink word := by
  rw [special?] at h
  by_cases hi : word.map Char.toLower = "inf".toList ∨ word.map Char.toLower = "infinity".toList
  · rcases hi with hi | hi
    · exact ink_of_map_toLower hi (by decide) (by decide)
    · exact ink_of_map_toLower hi (by decide) (by decide)
  · simp only [if_neg hi] at h
    by_cases hn : word.map Char.toLower = "nan".toList
    · exact ink_of_map_toLower hn (by decide) (by decide)
    · simp only [if_neg hn] at h
      exact nomatch h

theorem ink_of_read? {t : Text} {x : Double} (h : read? t = some x) : t ≠ [] ∧ Ink t := by
  rw [read?] at h
  obtain ⟨y, hy, -⟩ := Option.map_eq_some_iff.mp h
  have hrest : (Numeral.splitSign t).2 ≠ [] ∧ Ink (Numeral.splitSign t).2 := by
    rcases Option.or_eq_some_iff.mp hy with hs | ⟨-, hd⟩
    · exact ink_of_special? hs
    · obtain ⟨d, hd, -⟩ := Option.map_eq_some_iff.mp hd
      exact Numeral.ink_of_read? hd
  refine ⟨?_, Numeral.ink_of_splitSign hrest.2⟩
  rintro rfl
  exact hrest.1 rfl

end Number

namespace Literal

theorem ink_of_read? {t : Text} {x : Double} (h : read? t = some x) : t ≠ [] ∧ Ink t := by
  rw [read?] at h
  by_cases hn : isName (Numeral.splitSign t).2 = true
  · rw [if_pos hn] at h
    exact nomatch h
  · rw [if_neg hn] at h
    exact Number.ink_of_read? h

/-- A literal is an atom, and trimming takes nothing off it. -/
theorem word_of_read? {t : Text} {x : Double} (h : read? t = some x) : Word t ∧ t.trim = t := by
  obtain ⟨hn, hi⟩ := ink_of_read? h
  exact ⟨hi.word hn, hi.trim⟩

end Literal
end ScoreFormula
