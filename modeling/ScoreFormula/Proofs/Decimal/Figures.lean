import Mathlib.Tactic.Ring
import ScoreFormula.Proofs.Decimal
import ScoreFormula.Proofs.Decimal.Shortest

/-!
# Constants can be told from their texts

A constant is written as digits with a fraction, an exponent or both.  Such figures end where
neither a digit nor a point nor an `e` follows, so they can be told from a text in which they
stand in front of something else, and they give the number that is written.  Together with the
shortest decimals this says that different finite doubles are written differently, also in
front of other text (`write_append_injective`).
-/

namespace ScoreFormula

/-- The parts of a written number, without its sign. -/
@[ext]
structure Figures where
  whole : Text
  fraction : Text
  exponent : Option Int

namespace Figures

/-- A point stands before a fraction only. -/
def pointed (fraction : Text) : Text :=
  match fraction with
  | [] => []
  | _ :: _ => '.' :: fraction

theorem pointed_of_ne_nil {fraction : Text} (h : fraction ≠ []) :
    pointed fraction = '.' :: fraction := by
  cases fraction with
  | nil => exact absurd rfl h
  | cons c w => rfl

def ordered (exponent : Option Int) : Text :=
  match exponent with
  | none => []
  | some n => 'e' :: Layout.ofInt n

def text (f : Figures) : Text := f.whole ++ (pointed f.fraction ++ ordered f.exponent)

/-- The number that is written. -/
def value (f : Figures) : ℚ :=
  Nat.ofDigitChars 10 (f.whole ++ f.fraction) 0 *
    (10 : ℚ) ^ (f.exponent.getD 0 - f.fraction.length)

structure Valid (f : Figures) : Prop where
  ne_nil : f.whole ≠ []
  whole : ∀ c ∈ f.whole, c.isDigit = true
  fraction : ∀ c ∈ f.fraction, c.isDigit = true

/-- A number that stands before the text ends where the text begins. -/
def Ends (t : Text) : Prop := ∀ c ∈ t.head?, c.isDigit = false ∧ c ≠ '.' ∧ c ≠ 'e'

/-- Digits that stand before the text end where the text begins. -/
def EndsDigits (t : Text) : Prop := ∀ c ∈ t.head?, c.isDigit = false

theorem Ends.endsDigits {t : Text} (h : Ends t) : EndsDigits t := fun c hc => (h c hc).1

/-! ## Figures before other text -/

theorem ofNat_append_injective {m n : Nat} {r r' : Text} (hr : EndsDigits r) (hr' : EndsDigits r')
    (h : Text.ofNat m ++ r = Text.ofNat n ++ r') : m = n ∧ r = r' := by
  obtain ⟨hw, hrest⟩ := Text.eq_of_run (fun _ => Text.isDigit_of_mem_ofNat)
    (fun _ => Text.isDigit_of_mem_ofNat) hr hr' h
  refine ⟨?_, hrest⟩
  have hv := congrArg (fun w => Nat.ofDigitChars 10 w 0) hw
  simpa only [Text.ofNat, Nat.ofDigitChars_ten_toDigits] using hv

/-- A text that begins with a digit has no sign in front. -/
theorem ne_minus_append {w r t : Text} (hn : w ≠ []) (hw : ∀ c ∈ w, c.isDigit = true) :
    w ++ r ≠ '-' :: t := by
  obtain ⟨c, v, rfl⟩ := List.exists_cons_of_ne_nil hn
  intro he
  have hc := hw c List.mem_cons_self
  rw [(List.cons.inj he).1] at hc
  exact absurd hc (by decide)

theorem ofInt_append_injective {m n : Int} {r r' : Text} (hr : EndsDigits r)
    (hr' : EndsDigits r') (h : Layout.ofInt m ++ r = Layout.ofInt n ++ r') : m = n ∧ r = r' := by
  have hne : ∀ (k : Nat) (s t : Text), Text.ofNat k ++ s ≠ '-' :: t := fun k s t =>
    ne_minus_append (Text.ofNat_ne_nil k) fun _ => Text.isDigit_of_mem_ofNat
  rw [Layout.ofInt, Layout.ofInt] at h
  by_cases hm : m < 0
  · by_cases hn : n < 0
    · rw [if_pos hm, if_pos hn] at h
      obtain ⟨hk, rfl⟩ := ofNat_append_injective hr hr' (List.cons.inj h).2
      exact ⟨by omega, rfl⟩
    · rw [if_pos hm, if_neg hn] at h
      exact absurd h.symm (hne _ _ _)
  · by_cases hn : n < 0
    · rw [if_neg hm, if_pos hn] at h
      exact absurd h (hne _ _ _)
    · rw [if_neg hm, if_neg hn] at h
      obtain ⟨hk, rfl⟩ := ofNat_append_injective hr hr' h
      exact ⟨by omega, rfl⟩

theorem ordered_append_injective {exponent exponent' : Option Int} {r r' : Text} (hr : Ends r)
    (hr' : Ends r') (h : ordered exponent ++ r = ordered exponent' ++ r') :
    exponent = exponent' ∧ r = r' := by
  have hno : ∀ {t u : Text}, Ends t → t ≠ 'e' :: u := by
    rintro t u ht rfl
    exact (ht 'e' rfl).2.2 rfl
  match exponent, exponent' with
  | none, none => exact ⟨rfl, h⟩
  | none, some n => exact absurd h (hno hr)
  | some n, none => exact absurd h.symm (hno hr')
  | some m, some n =>
    obtain ⟨rfl, rfl⟩ := ofInt_append_injective hr.endsDigits hr'.endsDigits (List.cons.inj h).2
    exact ⟨rfl, rfl⟩

/-- What may follow the digits of a fraction. -/
theorem ordered_append_head {exponent : Option Int} {r : Text} (hr : Ends r) :
    ∀ c ∈ (ordered exponent ++ r).head?, c.isDigit = false ∧ c ≠ '.' := by
  intro c hc
  cases exponent with
  | none => exact ⟨(hr c hc).1, (hr c hc).2.1⟩
  | some n =>
    cases hc
    decide

theorem pointed_append_injective {fraction fraction' : Text}
    (hf : ∀ c ∈ fraction, c.isDigit = true) (hf' : ∀ c ∈ fraction', c.isDigit = true) {t t' : Text}
    (ht : ∀ c ∈ t.head?, c.isDigit = false ∧ c ≠ '.')
    (ht' : ∀ c ∈ t'.head?, c.isDigit = false ∧ c ≠ '.')
    (h : pointed fraction ++ t = pointed fraction' ++ t') : fraction = fraction' ∧ t = t' := by
  have hno : ∀ {t u : Text}, (∀ c ∈ t.head?, c.isDigit = false ∧ c ≠ '.') → t ≠ '.' :: u := by
    rintro t u ht rfl
    exact (ht '.' rfl).2 rfl
  match fraction, fraction' with
  | [], [] => exact ⟨rfl, h⟩
  | [], _ :: _ => exact absurd h (hno ht)
  | _ :: _, [] => exact absurd h.symm (hno ht')
  | c :: w, c' :: w' =>
    exact Text.eq_of_run hf hf' (fun d hd => (ht d hd).1) (fun d hd => (ht' d hd).1)
      (List.cons.inj h).2

theorem pointed_append_head {fraction t : Text} (ht : ∀ c ∈ t.head?, c.isDigit = false ∧ c ≠ '.') :
    EndsDigits (pointed fraction ++ t) := by
  intro c hc
  cases fraction with
  | nil => exact (ht c hc).1
  | cons d w =>
    cases hc
    decide

/-- Figures can be told from a text that they stand in front of. -/
theorem text_append_injective {f f' : Figures} (hf : f.Valid) (hf' : f'.Valid) {r r' : Text}
    (hr : Ends r) (hr' : Ends r') (h : f.text ++ r = f'.text ++ r') : f = f' ∧ r = r' := by
  simp only [text, List.append_assoc] at h
  obtain ⟨hwhole, h⟩ := Text.eq_of_run hf.whole hf'.whole
    (pointed_append_head (ordered_append_head hr))
    (pointed_append_head (ordered_append_head hr')) h
  obtain ⟨hfraction, h⟩ := pointed_append_injective hf.fraction hf'.fraction
    (ordered_append_head hr) (ordered_append_head hr') h
  obtain ⟨hexponent, h⟩ := ordered_append_injective hr hr' h
  exact ⟨Figures.ext hwhole hfraction hexponent, h⟩

/-- The same with a sign in front of figures. -/
theorem signed_append_injective {f f' : Figures} (hf : f.Valid) (hf' : f'.Valid)
    {negative negative' : Bool} {r r' : Text} (hr : Ends r) (hr' : Ends r')
    (h : (if negative = true then '-' :: f.text else f.text) ++ r =
      (if negative' = true then '-' :: f'.text else f'.text) ++ r') :
    negative = negative' ∧ f = f' ∧ r = r' := by
  have hne : ∀ {f : Figures}, f.Valid → ∀ t u : Text, f.text ++ t ≠ '-' :: u := by
    intro f hf t u
    rw [text, List.append_assoc]
    exact ne_minus_append hf.ne_nil hf.whole
  cases negative with
  | true =>
    cases negative' with
    | true => exact ⟨rfl, text_append_injective hf hf' hr hr' (List.cons.inj h).2⟩
    | false => exact absurd h.symm (hne hf' _ _)
  | false =>
    cases negative' with
    | true => exact absurd h (hne hf _ _)
    | false => exact ⟨rfl, text_append_injective hf hf' hr hr' h⟩

end Figures

/-! ## The figures of a constant -/

namespace Layout

theorem valid_of_digits {f : Figures} (hn : f.whole ≠ [])
    (h : ∀ c ∈ f.whole ++ f.fraction, c.isDigit = true) : f.Valid :=
  ⟨hn, fun c hc => h c (List.mem_append_left _ hc), fun c hc => h c (List.mem_append_right _ hc)⟩

theorem value_of_digits {f : Figures} {d : Decimal}
    (hv : Nat.ofDigitChars 10 (f.whole ++ f.fraction) 0 = d.coefficient)
    (he : f.exponent.getD 0 - f.fraction.length = d.exponent) : f.value = d.value := by
  rw [Figures.value, Decimal.value, hv, he]

/-- A decimal is written in figures of its own value. -/
theorem exists_figures_decimal (d : Decimal) :
    ∃ f : Figures, f.Valid ∧ f.text = constant.decimal d ∧ f.value = d.value := by
  have hdigits : ∀ c ∈ Text.ofNat d.coefficient, c.isDigit = true := fun _ =>
    Text.isDigit_of_mem_ofNat
  have hvalue : Nat.ofDigitChars 10 (Text.ofNat d.coefficient) 0 = d.coefficient :=
    Nat.ofDigitChars_ten_toDigits
  have hn := Text.ofNat_ne_nil d.coefficient
  have hzeros : ∀ n, ∀ c ∈ List.replicate n '0', c.isDigit = true := fun n c hc =>
    List.eq_of_mem_replicate hc ▸ rfl
  rw [decimal]
  generalize Text.ofNat d.coefficient = digits at hdigits hvalue hn
  split
  · -- With an exponent, behind the first digit.
    obtain ⟨first, rest, rfl⟩ := List.exists_cons_of_ne_nil hn
    refine ⟨⟨[first], rest, some (d.exponent + (first :: rest).length - 1)⟩,
      valid_of_digits (List.cons_ne_nil _ _) hdigits, ?_, value_of_digits hvalue ?_⟩
    · cases rest with
      | nil => rfl
      | cons second rest => rfl
    · simp only [Option.getD_some, List.length_cons]
      omega
  · rw [positional]
    split
    · -- A whole number, with the zeros that its exponent stands for.
      next he =>
      refine ⟨⟨digits ++ List.replicate d.exponent.toNat '0', ['0'], none⟩,
        valid_of_digits (List.append_ne_nil_of_left_ne_nil hn _) ?_, ?_, ?_⟩
      · intro c hc
        simp only [List.mem_append] at hc
        rcases hc with (hc | hc) | hc
        · exact hdigits c hc
        · exact hzeros _ c hc
        · exact hzeros 1 c hc
      · rfl
      · obtain ⟨n, hexp⟩ := Int.eq_ofNat_of_zero_le he
        have hten : Nat.ofDigitChars 10 ['0'] (10 ^ n * d.coefficient) =
            10 * (10 ^ n * d.coefficient) := rfl
        have horder : (none : Option Int).getD 0 - (['0'] : Text).length = -1 := rfl
        rw [Figures.value, Decimal.value, Nat.ofDigitChars_append, Nat.ofDigitChars_append, hvalue,
          Nat.ofDigitChars_replicate_zero, hexp, Int.toNat_natCast, hten, zpow_natCast, horder,
          zpow_neg_one]
        push_cast
        ring
    · dsimp only
      split
      · -- Some of the digits are behind the point.
        next he hp =>
        refine ⟨⟨digits.take (digits.length - (-d.exponent).toNat),
          digits.drop (digits.length - (-d.exponent).toNat), none⟩,
          valid_of_digits ?_ ?_, ?_, value_of_digits ?_ ?_⟩
        · refine List.ne_nil_of_length_pos ?_
          rw [List.length_take]
          omega
        · rw [List.take_append_drop]
          exact hdigits
        · rw [Figures.text, Figures.pointed_of_ne_nil, Figures.ordered, List.append_nil]
          refine List.ne_nil_of_length_pos ?_
          rw [List.length_drop]
          omega
        · rw [List.take_append_drop]
          exact hvalue
        · simp only [Option.getD_none, List.length_drop]
          omega
      · -- All of them are, behind zeros.
        next he hp =>
        refine ⟨⟨['0'], List.replicate ((-d.exponent).toNat - digits.length) '0' ++ digits, none⟩,
          valid_of_digits (List.cons_ne_nil _ _) ?_, ?_, value_of_digits ?_ ?_⟩
        · intro c hc
          simp only [List.mem_append] at hc
          rcases hc with hc | hc | hc
          · exact hzeros 1 c hc
          · exact hzeros _ c hc
          · exact hdigits c hc
        · rw [Figures.text, Figures.pointed_of_ne_nil, Figures.ordered, List.append_nil]
          · rfl
          · exact List.append_ne_nil_of_right_ne_nil _ hn
        · rw [List.singleton_append, Nat.ofDigitChars_cons, Nat.ofDigitChars_append,
            Nat.ofDigitChars_replicate_zero]
          exact hvalue
        · simp only [Option.getD_none, List.length_append, List.length_replicate]
          omega

/-- A finite double is written as its sign and figures of its shortest decimal. -/
theorem exists_figures_write {x : Double} {b : Binary} (h : Binary.ofDouble? x = some b) :
    ∃ f : Figures, f.Valid ∧
      constant.write x = (if b.negative = true then '-' :: f.text else f.text) ∧
      f.value = if b.coefficient = 0 then 0 else (Decimal.shortest b).value := by
  rw [write, h]
  by_cases hz : b.coefficient = 0
  · refine ⟨⟨['0'], ['0'], none⟩, valid_of_digits (List.cons_ne_nil _ _) ?_, ?_, ?_⟩
    · intro c hc
      rw [List.eq_of_mem_replicate (n := 2) hc]
      rfl
    · simp only [if_pos hz]
      rfl
    · rw [if_pos hz, Figures.value]
      exact zero_mul _
  · obtain ⟨f, hf, ht, hv⟩ := exists_figures_decimal (Decimal.shortest b)
    refine ⟨f, hf, ?_, ?_⟩
    · simp only [if_neg hz, ht]
    · rw [if_neg hz, hv]

/-- A finite constant begins with a digit or with a sign. -/
theorem exists_write_eq_cons {x : Double} (hx : x.isFinite = true) :
    ∃ c t, constant.write x = c :: t ∧ (c.isDigit = true ∨ c = '-') := by
  rw [← Binary.isSome_ofDouble?, Option.isSome_iff_exists] at hx
  obtain ⟨b, hb⟩ := hx
  obtain ⟨f, hf, ht, -⟩ := exists_figures_write hb
  rw [ht]
  cases b.negative with
  | true => exact ⟨'-', f.text, rfl, Or.inr rfl⟩
  | false =>
    obtain ⟨c, w, hw⟩ := List.exists_cons_of_ne_nil hf.ne_nil
    have hc := hf.whole c (by rw [hw]; exact List.mem_cons_self)
    refine ⟨c, w ++ (Figures.pointed f.fraction ++ Figures.ordered f.exponent), ?_, Or.inl hc⟩
    rw [if_neg Bool.false_ne_true, Figures.text, hw]
    rfl

/-- Different finite doubles are written differently as constants, also in front of other text
if it does not go on like a number. -/
theorem write_append_injective {x y : Double} (hx : x.isFinite = true) (hy : y.isFinite = true)
    {r r' : Text} (hr : Figures.Ends r) (hr' : Figures.Ends r')
    (h : constant.write x ++ r = constant.write y ++ r') : x = y ∧ r = r' := by
  rw [← Binary.isSome_ofDouble?, Option.isSome_iff_exists] at hx hy
  obtain ⟨b, hb⟩ := hx
  obtain ⟨b', hb'⟩ := hy
  obtain ⟨f, hf, ht, hv⟩ := exists_figures_write hb
  obtain ⟨f', hf', ht', hv'⟩ := exists_figures_write hb'
  rw [ht, ht'] at h
  obtain ⟨hsign, rfl, hrest⟩ := Figures.signed_append_injective hf hf' hr hr' h
  have hsize : b.coefficient = b'.coefficient ∧ b.exponent = b'.exponent := by
    have hc := Binary.canonical_of_ofDouble? hb
    have hc' := Binary.canonical_of_ofDouble? hb'
    rw [hv] at hv'
    rcases Nat.eq_zero_or_pos b.coefficient with hz | hz
    · rcases Nat.eq_zero_or_pos b'.coefficient with hz' | hz'
      · have he := hc.leading (by omega)
        have he' := hc'.leading (by omega)
        exact ⟨hz.trans hz'.symm, he.trans he'.symm⟩
      · rw [if_pos hz, if_neg hz'.ne'] at hv'
        exact absurd hv' (Decimal.value_shortest_pos hc' hz').ne
    · rcases Nat.eq_zero_or_pos b'.coefficient with hz' | hz'
      · rw [if_neg hz.ne', if_pos hz'] at hv'
        exact absurd hv' (Decimal.value_shortest_pos hc hz).ne'
      · rw [if_neg hz.ne', if_neg hz'.ne'] at hv'
        exact Decimal.eq_of_value_shortest hc hc' hz hz' hv'
  obtain rfl : b = b' := by
    cases b
    cases b'
    exact congr (congr (congrArg Binary.mk hsign) hsize.1) hsize.2
  exact ⟨Binary.eq_of_ofDouble? hb hb', hrest⟩

end Layout
end ScoreFormula
