import Mathlib.Algebra.Order.Field.Power
import Mathlib.Algebra.Order.Field.Rat
import Mathlib.Tactic.NormNum
import Mathlib.Tactic.Positivity
import Mathlib.Tactic.Ring
import Mathlib.Tactic.SplitIfs
import ScoreFormula.Decimal.Shortest

/-!
# The shortest decimal determines its double

The search for the shortest decimal compares natural numbers.  `contains_iff` says that these
are comparisons of the numbers themselves, with the bounds of the interval.  The search ends
in the interval, because from a power of ten on that is within a quarter of the last place the
multiple below the double is in it (`holds_shortest`).

The intervals of different doubles have no number in common: they touch at most at a midpoint,
which belongs to the one with the even coefficient.  So doubles with the same shortest decimal
are the same (`eq_of_value_shortest`).
-/

namespace ScoreFormula

/-- The number that a decimal stands for. -/
def Decimal.value (d : Decimal) : ℚ := d.coefficient * (10 : ℚ) ^ d.exponent

namespace Decimal.Interval

/-- The bounds are in quarters of the last place. -/
def bound (i : Interval) (n : Nat) : ℚ := n * (2 : ℚ) ^ i.exponent

/-- The number lies in the interval, of which the bounds are part if it is closed. -/
def Holds (i : Interval) (x : ℚ) : Prop :=
  if i.closed then i.bound i.low ≤ x ∧ x ≤ i.bound i.high
  else i.bound i.low < x ∧ x < i.bound i.high

theorem pow_toNat {b : ℚ} (hb : b ≠ 0) (e : Int) : b ^ e.toNat = b ^ e * b ^ (-e).toNat := by
  rcases le_total 0 e with h | h
  · have hn : (-e).toNat = 0 := by omega
    have he : (e.toNat : Int) = e := Int.toNat_of_nonneg h
    rw [hn, pow_zero, mul_one, ← zpow_natCast, he]
  · have hn : e.toNat = 0 := by omega
    have he : ((-e).toNat : Int) = -e := Int.toNat_of_nonneg (by omega)
    rw [hn, pow_zero, ← zpow_natCast, he, ← zpow_add₀ hb, add_neg_cancel, zpow_zero]

/-- A factor that makes both sides of a comparison natural numbers. -/
def scale (i : Interval) (k : Int) : ℚ := (2 : ℚ) ^ (-i.exponent).toNat * (10 : ℚ) ^ (-k).toNat

theorem scale_pos (i : Interval) (k : Int) : 0 < i.scale k := by
  unfold scale
  positivity

theorem cast_mul_quarter (i : Interval) (k : Int) (n : Nat) :
    ((n * i.quarter k : Nat) : ℚ) = i.bound n * i.scale k := by
  have h2 := pow_toNat (b := 2) (by norm_num) i.exponent
  unfold quarter bound scale
  push_cast [Nat.pow_eq]
  rw [h2]
  ring

theorem cast_mul_grid (i : Interval) (k : Int) (c : Nat) :
    ((c * i.grid k : Nat) : ℚ) = Decimal.value ⟨c, k⟩ * i.scale k := by
  have h10 := pow_toNat (b := 10) (by norm_num) k
  unfold grid Decimal.value scale
  push_cast [Nat.pow_eq]
  rw [h10]
  ring

theorem quarter_le_grid_iff {i : Interval} {k : Int} {n c : Nat} :
    n * i.quarter k ≤ c * i.grid k ↔ i.bound n ≤ Decimal.value ⟨c, k⟩ := by
  rw [← Nat.cast_le (α := ℚ), cast_mul_quarter, cast_mul_grid,
    mul_le_mul_iff_left₀ (scale_pos i k)]

theorem grid_le_quarter_iff {i : Interval} {k : Int} {n c : Nat} :
    c * i.grid k ≤ n * i.quarter k ↔ Decimal.value ⟨c, k⟩ ≤ i.bound n := by
  rw [← Nat.cast_le (α := ℚ), cast_mul_quarter, cast_mul_grid,
    mul_le_mul_iff_left₀ (scale_pos i k)]

theorem contains_iff {i : Interval} {k : Int} {c : Nat} :
    i.contains k c = true ↔ i.Holds (Decimal.value ⟨c, k⟩) := by
  rw [contains, Holds]
  by_cases hc : i.closed = true
  · simp only [if_pos hc, Bool.and_eq_true, decide_eq_true_eq, quarter_le_grid_iff,
      grid_le_quarter_iff]
  · simp only [if_neg hc, Bool.and_eq_true, decide_eq_true_eq, ← not_le, quarter_le_grid_iff,
      grid_le_quarter_iff]

/-! ## The search -/

theorem holds_of_multiple? {i : Interval} {k : Int} {c : Nat} (h : i.multiple? k = some c) :
    i.Holds (Decimal.value ⟨c, k⟩) := by
  rw [← contains_iff]
  cases hb : i.contains k (i.below k) with
  | true =>
    cases ha : i.contains k (i.below k + 1) with
    | true =>
      simp only [multiple?, hb, ha] at h
      split at h
      · cases h
        exact ha
      · cases h
        exact hb
    | false =>
      simp only [multiple?, hb, ha] at h
      cases h
      exact hb
  | false =>
    cases ha : i.contains k (i.below k + 1) with
    | true =>
      simp only [multiple?, hb, ha] at h
      cases h
      exact ha
    | false =>
      simp only [multiple?, hb, ha] at h
      cases h

/-- A power of ten that is within a quarter has a multiple in the interval, just below the
value. -/
theorem multiple?_ne_none {i : Interval} {k : Int} (hl : i.low < i.value) (hh : i.value < i.high)
    (hg : i.grid k ≤ i.quarter k) : i.multiple? k ≠ none := by
  have hgrid : 0 < i.grid k := by
    unfold grid
    simp only [Nat.pow_eq]
    positivity
  have hb : i.contains k (i.below k) = true := by
    have hdiv : i.below k * i.grid k + i.value * i.quarter k % i.grid k =
        i.value * i.quarter k := Nat.div_add_mod' _ _
    have hmod := Nat.mod_lt (i.value * i.quarter k) hgrid
    have hlow : (i.low + 1) * i.quarter k ≤ i.value * i.quarter k := Nat.mul_le_mul_right _ hl
    have hhigh : (i.value + 1) * i.quarter k ≤ i.high * i.quarter k := Nat.mul_le_mul_right _ hh
    rw [Nat.succ_mul] at hlow hhigh
    have h1 : i.low * i.quarter k < i.below k * i.grid k := by omega
    have h2 : i.below k * i.grid k < i.high * i.quarter k := by omega
    rw [contains]
    split
    · simp [h1.le, h2.le]
    · simp [h1, h2]
  cases ha : i.contains k (i.below k + 1) with
  | true =>
    simp only [multiple?, hb, ha]
    split <;> exact Option.some_ne_none _
  | false =>
    simp only [multiple?, hb, ha]
    exact Option.some_ne_none _

theorem holds_search {i : Interval} {steps : Nat} {k : Int} {j : Nat} (hj : j < steps)
    (h : i.multiple? (k - j) ≠ none) : i.Holds (i.search steps k).value := by
  induction steps generalizing k j with
  | zero => exact absurd hj (Nat.not_lt_zero j)
  | succ steps ih =>
    rw [search]
    cases hm : i.multiple? k with
    | some c => exact holds_of_multiple? hm
    | none =>
      cases j with
      | zero =>
        rw [Nat.cast_zero, sub_zero] at h
        exact absurd hm h
      | succ j =>
        have he : k - 1 - (j : Int) = k - ((j + 1 : Nat) : Int) := by omega
        exact ih (j := j) (by omega) (by rwa [he])

end Decimal.Interval

/-! ## Doubles -/

namespace Binary

/-- What is left of a finite double without its sign. -/
structure Canonical (b : Binary) : Prop where
  coefficient : b.coefficient < 2 ^ 53
  least : -1074 ≤ b.exponent
  greatest : b.exponent ≤ 971
  /-- The leading bit is there except next to zero. -/
  leading : b.coefficient < 2 ^ 52 → b.exponent = -1074

/-- The bits of a finite double are its sign and two fields, which tell its coefficient and its
exponent. -/
theorem fields_of_ofDouble? {x : Double} {b : Binary} (h : ofDouble? x = some b) :
    ∃ field fraction : Nat, field < 2047 ∧ fraction < 2 ^ 52 ∧
      x.bits.toNat = (if b.negative = true then 2 ^ 63 else 0) + (2 ^ 52 * field + fraction) ∧
      b.coefficient = (if field = 0 then 0 else 2 ^ 52) + fraction ∧
      b.exponent = -1074 + (if field = 0 then (0 : Int) else field - 1) := by
  have hbits := x.bits.toNat_lt
  have hlead : Double.leadingBit = 2 ^ 52 := rfl
  have hsign : (1 <<< 63 : Nat) = 2 ^ 63 := rfl
  rw [ofDouble?] at h
  simp only [Double.exponentField, Double.fraction, Double.isNegative, hlead, hsign] at h
  refine ⟨x.bits.toNat / 2 ^ 52 % 2048, x.bits.toNat % 2 ^ 52, ?_⟩
  generalize x.bits.toNat = bits at h hbits
  by_cases hf : bits / 2 ^ 52 % 2048 = 2047
  · rw [if_pos hf] at h
    cases h
  · rw [if_neg hf] at h
    have hsum : bits = (if decide (2 ^ 63 ≤ bits) = true then 2 ^ 63 else 0) +
        (2 ^ 52 * (bits / 2 ^ 52 % 2048) + bits % 2 ^ 52) := by
      simp only [decide_eq_true_eq]
      split <;> omega
    by_cases hz : bits / 2 ^ 52 % 2048 = 0
    · rw [if_pos hz] at h
      cases h
      refine ⟨by omega, by omega, hsum, ?_, ?_⟩
      · rw [if_pos hz, Nat.zero_add]
      · rw [if_pos hz]
        rfl
    · rw [if_neg hz] at h
      cases h
      refine ⟨by omega, by omega, hsum, ?_, ?_⟩
      · rw [if_neg hz]
      · rw [if_neg hz]
        rfl

theorem eq_of_ofDouble? {x y : Double} {b : Binary} (hx : ofDouble? x = some b)
    (hy : ofDouble? y = some b) : x = y := by
  obtain ⟨field, fraction, hf, hr, hbits, hc, he⟩ := fields_of_ofDouble? hx
  obtain ⟨field', fraction', hf', hr', hbits', hc', he'⟩ := fields_of_ofDouble? hy
  have hfield : field = field' ∧ fraction = fraction' := by
    rw [hc] at hc'
    rw [he] at he'
    split_ifs at hc' he' <;> omega
  rw [hfield.1, hfield.2, ← hbits'] at hbits
  exact congrArg Double.mk (UInt64.toNat_inj.mp hbits)

theorem canonical_of_ofDouble? {x : Double} {b : Binary} (h : ofDouble? x = some b) :
    b.Canonical := by
  obtain ⟨field, fraction, hf, hr, -, hc, he⟩ := fields_of_ofDouble? h
  refine ⟨?_, ?_, ?_, ?_⟩
  · rw [hc]
    split <;> omega
  · rw [he]
    split <;> omega
  · rw [he]
    split <;> omega
  · rw [hc, he]
    split <;> omega

/-- The doubles with an exact value are the finite ones. -/
theorem isSome_ofDouble? (x : Double) : (ofDouble? x).isSome = x.isFinite := by
  rw [ofDouble?, Double.isFinite]
  by_cases h : x.exponentField = 2047
  · rw [if_pos h, h]
    rfl
  · rw [if_neg h, bne_iff_ne.mpr h]
    split <;> rfl

end Binary

namespace Decimal

theorem two_pow_le_ten_pow {n m : Nat} (h : 28 * n ≤ 93 * m) : 2 ^ n ≤ 10 ^ m := by
  have hstep : (2 ^ n) ^ 93 ≤ (10 ^ m) ^ 93 := by
    calc (2 ^ n) ^ 93 = (2 ^ 93) ^ n := by rw [← pow_mul, ← pow_mul, mul_comm]
      _ ≤ (10 ^ 28) ^ n := Nat.pow_le_pow_left (by norm_num) n
      _ = 10 ^ (28 * n) := by rw [← pow_mul]
      _ ≤ 10 ^ (93 * m) := Nat.pow_le_pow_right (by norm_num) h
      _ = (10 ^ m) ^ 93 := by rw [← pow_mul, mul_comm]
  exact (Nat.pow_le_pow_iff_left (by norm_num)).mp hstep

theorem ten_pow_le_two_pow {n m : Nat} (h : 10 * m ≤ 3 * n) : 10 ^ m ≤ 2 ^ n := by
  have hstep : (10 ^ m) ^ 3 ≤ (2 ^ n) ^ 3 := by
    calc (10 ^ m) ^ 3 = (10 ^ 3) ^ m := by rw [← pow_mul, ← pow_mul, mul_comm]
      _ ≤ (2 ^ 10) ^ m := Nat.pow_le_pow_left (by norm_num) m
      _ = 2 ^ (10 * m) := by rw [← pow_mul]
      _ ≤ 2 ^ (3 * n) := Nat.pow_le_pow_right (by norm_num) h
      _ = (2 ^ n) ^ 3 := by rw [← pow_mul, mul_comm]
  exact (Nat.pow_le_pow_iff_left (by norm_num)).mp hstep

namespace Interval

/-- The last power of ten that the search comes to is within a quarter of the last place. -/
theorem grid_le_quarter {b : Binary} (h : b.Canonical) (hz : 0 < b.coefficient) :
    (ofBinary b).grid ((ofBinary b).ceiling - 23) ≤
      (ofBinary b).quarter ((ofBinary b).ceiling - 23) := by
  have hlog : Nat.log2 (ofBinary b).high < 55 := by
    rw [Nat.log2_lt (by simp [ofBinary])]
    have := h.coefficient
    simp only [ofBinary]
    omega
  have hl := h.least
  have hg := h.greatest
  have hexp : (ofBinary b).exponent = b.exponent - 2 := rfl
  unfold ceiling
  generalize Nat.log2 (ofBinary b).high = n at hlog
  unfold grid quarter
  rw [hexp]
  generalize hk : ((n : Int) + 1 + (b.exponent - 2)) * 30103 / 100000 + 1 - 23 = k
  simp only [Nat.pow_eq]
  rcases le_total 0 (b.exponent - 2) with he | he
  · have hn : (-(b.exponent - 2)).toNat = 0 := by omega
    have h10 := ten_pow_le_two_pow (n := (b.exponent - 2).toNat) (m := k.toNat) (by omega)
    rw [hn, pow_zero, mul_one]
    exact h10.trans (Nat.le_mul_of_pos_right _ (by positivity))
  · have hp : (b.exponent - 2).toNat = 0 := by omega
    have hkn : k.toNat = 0 := by omega
    rw [hp, hkn, pow_zero, pow_zero, one_mul, one_mul]
    exact two_pow_le_ten_pow (by omega)

end Interval

/-- The shortest decimal of a positive double lies in its interval. -/
theorem holds_shortest {b : Binary} (h : b.Canonical) (hz : 0 < b.coefficient) :
    (Interval.ofBinary b).Holds (shortest b).value := by
  have hlow : (Interval.ofBinary b).low < (Interval.ofBinary b).value := by
    simp only [Interval.ofBinary]
    split <;> omega
  have hhigh : (Interval.ofBinary b).value < (Interval.ofBinary b).high := by
    simp only [Interval.ofBinary]
    omega
  exact Interval.holds_search (j := 23) (by norm_num)
    (Interval.multiple?_ne_none hlow hhigh (Interval.grid_le_quarter h hz))

/-! ## Neighbouring doubles -/

namespace Interval

theorem Holds.bounds {i : Interval} {x : ℚ} (h : i.Holds x) :
    (i.bound i.low ≤ x ∧ x ≤ i.bound i.high) ∧
      (i.closed = false → i.bound i.low < x ∧ x < i.bound i.high) := by
  rw [Holds] at h
  cases hc : i.closed with
  | true =>
    rw [if_pos hc] at h
    exact ⟨h, fun hf => nomatch hf⟩
  | false =>
    rw [if_neg (by simp [hc])] at h
    exact ⟨⟨h.1.le, h.2.le⟩, fun _ => h⟩

theorem bound_le_bound_iff {i : Interval} {m n : Nat} : i.bound m ≤ i.bound n ↔ m ≤ n := by
  rw [bound, bound, mul_le_mul_iff_left₀ (by positivity), Nat.cast_le]

/-- The bounds of a coarser interval in quarters of a finer one. -/
theorem bound_of_exponent_le {i i' : Interval} {shift : Nat} (h : i'.exponent = i.exponent + shift)
    (n : Nat) : i'.bound n = i.bound (n * 2 ^ shift) := by
  rw [bound, bound, h, zpow_add₀ (by norm_num), zpow_natCast]
  push_cast
  ring

/-- Every number in the interval of a double is below those in the interval of a larger one,
but for a midpoint that belongs to one of them only. -/
theorem not_holds_of_lt {b b' : Binary} (h : b.Canonical) (h' : b'.Canonical)
    (hlt : b.exponent < b'.exponent ∨
      b.exponent = b'.exponent ∧ b.coefficient < b'.coefficient)
    {x : ℚ} (hx : (ofBinary b).Holds x) : ¬(ofBinary b').Holds x := by
  intro hx'
  obtain ⟨shift, hshift⟩ : ∃ shift : Nat, b'.exponent = b.exponent + shift :=
    ⟨(b'.exponent - b.exponent).toNat, by omega⟩
  have hexp : (ofBinary b').exponent = (ofBinary b).exponent + shift := by
    simp only [ofBinary, hshift]
    omega
  obtain ⟨⟨-, hhigh⟩, hopen⟩ := hx.bounds
  obtain ⟨⟨hlow, -⟩, hopen'⟩ := hx'.bounds
  rw [bound_of_exponent_le hexp] at hlow hopen'
  have hle : (ofBinary b').low * 2 ^ shift ≤ (ofBinary b).high :=
    bound_le_bound_iff.mp (hlow.trans hhigh)
  have hstrict : (ofBinary b).closed = false ∨ (ofBinary b').closed = false →
      (ofBinary b').low * 2 ^ shift < (ofBinary b).high := by
    intro hc
    rw [← not_le, ← bound_le_bound_iff, not_le]
    rcases hc with hc | hc
    · exact hlow.trans_lt (hopen hc).2
    · exact (hopen' hc).1.trans_le hhigh
  have hc := h.coefficient
  have hlead := h.leading
  have hlead' := h'.leading
  have hleast := h.least
  have hbit : Double.leadingBit = 2 ^ 52 := rfl
  have hleast' : Binary.leastExponent = -1074 := rfl
  simp only [ofBinary, decide_eq_false_iff_not, hbit, hleast'] at hle hstrict
  cases shift with
  | zero =>
    -- The next coefficient under the same exponent: one of the two is odd.
    rw [pow_zero, mul_one] at hle hstrict
    split_ifs at hle hstrict <;> omega
  | succ shift =>
    -- The next exponent: the smaller coefficient ends in ones, and the larger one is even.
    have htwo : 2 ≤ 2 ^ (shift + 1) := Nat.le_self_pow (by omega) 2
    have hmul := Nat.mul_le_mul_left (4 * b'.coefficient -
      if b'.coefficient = 2 ^ 52 ∧ -1074 < b'.exponent then 1 else 2) htwo
    generalize 2 ^ (shift + 1) = factor at hle hstrict hmul
    split_ifs at hle hstrict hmul <;> omega

/-- The intervals of different doubles have no number in common. -/
theorem eq_of_holds {b b' : Binary} (h : b.Canonical) (h' : b'.Canonical) {x : ℚ}
    (hx : (ofBinary b).Holds x) (hx' : (ofBinary b').Holds x) :
    b.coefficient = b'.coefficient ∧ b.exponent = b'.exponent := by
  by_contra hne
  have hlt : (b.exponent < b'.exponent ∨
        b.exponent = b'.exponent ∧ b.coefficient < b'.coefficient) ∨
      b'.exponent < b.exponent ∨ b'.exponent = b.exponent ∧ b'.coefficient < b.coefficient := by
    omega
  rcases hlt with hlt | hlt
  · exact not_holds_of_lt h h' hlt hx hx'
  · exact not_holds_of_lt h' h hlt hx' hx

end Interval

/-- A positive double has a positive shortest decimal. -/
theorem value_shortest_pos {b : Binary} (h : b.Canonical) (hz : 0 < b.coefficient) :
    0 < (shortest b).value := by
  have hb := (holds_shortest h hz).bounds.1.1
  have hl : 0 < (Interval.ofBinary b).low := by
    simp only [Interval.ofBinary]
    split_ifs <;> omega
  have hpos : 0 < (Interval.ofBinary b).bound (Interval.ofBinary b).low := by
    unfold Interval.bound
    positivity
  exact hpos.trans_le hb

/-- Doubles with the same shortest decimal are the same but for their signs. -/
theorem eq_of_value_shortest {b b' : Binary} (h : b.Canonical) (h' : b'.Canonical)
    (hz : 0 < b.coefficient) (hz' : 0 < b'.coefficient)
    (hv : (shortest b).value = (shortest b').value) :
    b.coefficient = b'.coefficient ∧ b.exponent = b'.exponent := by
  have hx := holds_shortest h hz
  rw [hv] at hx
  exact Interval.eq_of_holds h h' hx (holds_shortest h' hz')

end Decimal
end ScoreFormula
