import ScoreFormula.Proofs.Forest.Scan

/-!
# Atoms and parentheses in order

`lexemes` lists the atoms and the parentheses of a text from left to right, each parenthesis
by itself; separators end an atom and leave no other trace.  Where a text breaks, its lexemes
are those of the two parts (`lexemes_append`), which is what makes the list easy to compare.

`stray` pairs up parentheses alone and finds the one that has no partner.  So whether a text
has tokens, and which of its parentheses is at fault if not, is settled by its lexemes.
-/

namespace ScoreFormula

open Token Text Forest

/-- Puts a character in front of the atom that comes first. -/
def lengthen (c : Char) : List Text → List Text
  | [] => [[c]]
  | w :: rest => (c :: w) :: rest

/-- The character goes into the same atom as the one that comes next. -/
def joins (c : Char) (t : Text) : Bool := isPlain c && t.head?.any isPlain

def lexemes : Text → List Text
  | [] => []
  | c :: t =>
    if isSeparator c then lexemes t
    else if joins c t then lengthen c (lexemes t)
    else [c] :: lexemes t

theorem joins_of_breaks (c : Char) {t : Text} (h : Breaks t) : joins c t = false := by
  cases t with
  | nil => simp [joins]
  | cons d t => simp [joins, h d rfl]

theorem joins_of_not_isPlain {c : Char} (h : isPlain c = false) (t : Text) :
    joins c t = false := by
  simp [joins, h]

theorem joins_append (c : Char) (s : Text) {t : Text} (ht : Breaks t) :
    joins c (s ++ t) = joins c s := by
  cases s with
  | nil => rw [List.nil_append, joins_of_breaks c ht, joins_of_breaks c breaks_nil]
  | cons d s => rfl

theorem exists_of_joins {c : Char} {t : Text} (h : joins c t = true) :
    isPlain c = true ∧ ∃ d u, t = d :: u ∧ isPlain d = true := by
  cases t with
  | nil => simp [joins] at h
  | cons d u =>
    have hcd : isPlain c = true ∧ isPlain d = true := by simpa [joins] using h
    exact ⟨hcd.1, d, u, rfl, hcd.2⟩

theorem lexemes_separator {c : Char} (h : isSeparator c = true) (t : Text) :
    lexemes (c :: t) = lexemes t := by
  rw [lexemes, if_pos h]

theorem lexemes_joined {c : Char} {t : Text} (h : joins c t = true) :
    lexemes (c :: t) = lengthen c (lexemes t) := by
  have hs := (isPlain_cases (exists_of_joins h).1).1
  rw [lexemes, if_neg (by simp [hs]), if_pos h]

theorem lexemes_single {c : Char} {t : Text} (hs : isSeparator c = false)
    (h : joins c t = false) : lexemes (c :: t) = [c] :: lexemes t := by
  rw [lexemes, if_neg (by simp [hs]), if_neg (by simp [h])]

theorem lexemes_parenthesis {c : Char} (h : c = '(' ∨ c = ')') (t : Text) :
    lexemes (c :: t) = [c] :: lexemes t := by
  have hs : isSeparator c = false := by rcases h with rfl | rfl <;> decide
  exact lexemes_single hs (joins_of_not_isPlain (not_isPlain_of_parens h) t)

theorem lexemes_gap {gap : Text} (h : ∀ c ∈ gap, isSeparator c = true) (t : Text) :
    lexemes (gap ++ t) = lexemes t := by
  induction gap with
  | nil => rfl
  | cons c gap ih =>
    rw [List.cons_append, lexemes_separator (h c List.mem_cons_self)]
    exact ih fun d hd => h d (List.mem_cons_of_mem _ hd)

/-- The first lexeme begins where the atom that comes first does. -/
theorem lexemes_plain {c : Char} (hc : isPlain c = true) (t : Text) :
    ∃ w rest, lexemes (c :: t) = (c :: w) :: rest := by
  cases hj : joins c t with
  | true =>
    rw [lexemes_joined hj]
    cases lexemes t with
    | nil => exact ⟨[], [], rfl⟩
    | cons w rest => exact ⟨w, rest, rfl⟩
  | false => exact ⟨[], lexemes t, lexemes_single (isPlain_cases hc).1 hj⟩

/-- A break parts the lexemes before it from those behind it. -/
theorem lexemes_append (s : Text) {t : Text} (ht : Breaks t) :
    lexemes (s ++ t) = lexemes s ++ lexemes t := by
  induction s with
  | nil => rfl
  | cons c s ih =>
    have hjoins := joins_append c s ht
    rw [List.cons_append]
    cases hs : isSeparator c with
    | true => rw [lexemes_separator hs, lexemes_separator hs, ih]
    | false =>
      cases hj : joins c s with
      | true =>
        -- The atom goes on in `s`, so it is a lexeme of `s` that is lengthened on both sides.
        obtain ⟨-, d, u, rfl, hd⟩ := exists_of_joins hj
        obtain ⟨w, rest, hw⟩ := lexemes_plain hd u
        rw [lexemes_joined (hjoins.trans hj), lexemes_joined hj, ih, hw]
        rfl
      | false =>
        rw [lexemes_single hs (hjoins.trans hj), lexemes_single hs hj, ih]
        rfl

theorem lexemes_word {w : Text} (hw : Word w) : lexemes w = [w] := by
  obtain ⟨hn, hp⟩ := hw
  induction w with
  | nil => exact absurd rfl hn
  | cons c w ih =>
    have hc := hp c List.mem_cons_self
    cases w with
    | nil => exact lexemes_single (isPlain_cases hc).1 (joins_of_breaks c breaks_nil)
    | cons d w =>
      have hd := hp d (List.mem_cons_of_mem _ List.mem_cons_self)
      have hj : joins c (d :: w) = true := by simp [joins, hc, hd]
      rw [lexemes_joined hj, ih (List.cons_ne_nil d w) fun e he => hp e (List.mem_cons_of_mem _ he)]
      rfl

theorem lexemes_parens_append (s t : Text) :
    lexemes (parens s ++ t) = ['('] :: (lexemes s ++ [')'] :: lexemes t) := by
  have hp : parens s ++ t = '(' :: (s ++ ')' :: t) := by simp [parens]
  have hc : Breaks (')' :: t) := breaks_cons (by decide)
  rw [hp, lexemes_parenthesis (Or.inl rfl), lexemes_append s hc, lexemes_parenthesis (Or.inr rfl)]

/-! ## Single spaces -/

/-- The texts one after another, each with a space behind it. -/
def spread : List Text → Text
  | [] => []
  | w :: rest => w ++ ' ' :: spread rest

/-- The text that has the same lexemes with a single space behind each. -/
def respace (t : Text) : Text := spread (lexemes t)

theorem breaks_space (t : Text) : Breaks (' ' :: t) := breaks_cons (by decide)

theorem spread_append (first second : List Text) :
    spread (first ++ second) = spread first ++ spread second := by
  induction first with
  | nil => rfl
  | cons w rest ih =>
    rw [List.cons_append, spread, spread, ih]
    simp

theorem lexemes_respace (t : Text) : lexemes (respace t) = lexemes t := by
  induction t with
  | nil => rfl
  | cons c t ih =>
    cases hs : isSeparator c with
    | true =>
      rw [respace, lexemes_separator hs]
      exact ih
    | false =>
      cases hj : joins c t with
      | true =>
        -- The next character comes next in the respaced text as well.
        obtain ⟨hc, d, u, rfl, hd⟩ := exists_of_joins hj
        obtain ⟨w, rest, hw⟩ := lexemes_plain hd u
        have hr : respace (d :: u) = d :: (w ++ ' ' :: spread rest) := by
          rw [respace, hw]
          rfl
        have hrc : respace (c :: d :: u) = c :: respace (d :: u) := by
          rw [respace, respace, lexemes_joined hj, hw]
          rfl
        have hj' : joins c (respace (d :: u)) = true := by
          rw [hr]
          exact hj
        rw [hrc, lexemes_joined hj', lexemes_joined hj, ih]
      | false =>
        have hr : respace (c :: t) = c :: ' ' :: respace t := by
          rw [respace, lexemes_single hs hj]
          rfl
        rw [hr, lexemes_single hs (joins_of_breaks c (breaks_space _)),
          lexemes_separator (by decide), lexemes_single hs hj, ih]

theorem respace_append (s : Text) {t : Text} (ht : Breaks t) :
    respace (s ++ t) = respace s ++ respace t := by
  rw [respace, lexemes_append s ht, spread_append]
  rfl

theorem respace_word {w : Text} (hw : Word w) : respace w = w ++ [' '] := by
  rw [respace, lexemes_word hw]
  rfl

theorem respace_parens_append (s t : Text) :
    respace (parens s ++ t) = parens (' ' :: respace s) ++ ' ' :: respace t := by
  rw [respace, lexemes_parens_append, spread, spread_append]
  simp [parens, respace, spread]

/-! ## Parentheses without a partner -/

def parentheses (t : Text) : Text := t.filter fun c => c == '(' || c == ')'

theorem parentheses_append (s t : Text) :
    parentheses (s ++ t) = parentheses s ++ parentheses t :=
  List.filter_append ..

theorem parentheses_cons (c : Char) (t : Text) :
    parentheses (c :: t) = parentheses [c] ++ parentheses t :=
  parentheses_append [c] t

theorem parentheses_cons_of_ne {c : Char} (h : c ≠ '(' ∧ c ≠ ')') (t : Text) :
    parentheses (c :: t) = parentheses t := by
  simp [parentheses, h.1, h.2]

theorem parentheses_parens (s : Text) : parentheses (parens s) = parens (parentheses s) := by
  simp [parentheses, parens]

theorem parentheses_word {w : Text} (hw : ∀ c ∈ w, isPlain c = true) : parentheses w = [] := by
  rw [parentheses, List.filter_eq_nil_iff]
  intro c hc
  simp [isPlain_cases (hw c hc)]

theorem parentheses_trimStart (t : Text) : parentheses (trimStart t) = parentheses t := by
  induction t with
  | nil => rfl
  | cons c t ih =>
    cases h : isBlank c with
    | true =>
      rw [trimStart_cons_of_blank h, parentheses_cons_of_ne (ne_parens_of_isBlank h), ih]
    | false => rw [trimStart_cons_of_not_blank h]

theorem parentheses_reverse (t : Text) : parentheses t.reverse = (parentheses t).reverse :=
  List.filter_reverse ..

theorem parentheses_trim (t : Text) : parentheses t.trim = parentheses t := by
  show parentheses (trimStart (trimStart t).reverse).reverse = _
  rw [parentheses_reverse, parentheses_trimStart, parentheses_reverse, List.reverse_reverse,
    parentheses_trimStart]

theorem parentheses_flatten_lexemes (t : Text) :
    parentheses (lexemes t).flatten = parentheses t := by
  induction t with
  | nil => rfl
  | cons c t ih =>
    cases hs : isSeparator c with
    | true => rw [lexemes_separator hs, parentheses_cons_of_ne (ne_parens_of_isSeparator hs), ih]
    | false =>
      cases hj : joins c t with
      | true =>
        have hf : (lengthen c (lexemes t)).flatten = c :: (lexemes t).flatten := by
          cases lexemes t <;> rfl
        rw [lexemes_joined hj, hf, parentheses_cons, ih, ← parentheses_cons]
      | false =>
        rw [lexemes_single hs hj, List.flatten_cons, parentheses_append, ih, ← parentheses_cons]

/-- Pairs up parentheses from left to right and finds the `)` that closes nothing or else the
outermost `(` that is left open, with its place among them.  `index` is the place of the first
and `opened` has the places of those that are open, the innermost first. -/
def stray (index : Nat) (opened : List Nat) : Text → Option (Char × Nat)
  | [] => opened.getLast?.map fun first => ('(', first)
  | c :: t =>
    if c = '(' then stray (index + 1) (index :: opened) t
    else
      match opened with
      | [] => some (')', index)
      | _ :: outer => stray (index + 1) outer t

theorem stray_open (index : Nat) (opened : List Nat) (t : Text) :
    stray index opened ('(' :: t) = stray (index + 1) (index :: opened) t := by
  rw [stray.eq_def]
  exact if_pos rfl

theorem stray_close (index inner : Nat) (outer : List Nat) (t : Text) :
    stray index (inner :: outer) (')' :: t) = stray (index + 1) outer t := by
  rw [stray.eq_def]
  exact if_neg (by decide)

theorem stray_laidOut {t : Text} {items : List Item} (h : LaidOut t items) (index : Nat)
    (opened : List Nat) (rest : Text) :
    stray index opened (parentheses t ++ rest) =
      stray (index + (parentheses t).length) opened rest := by
  induction h generalizing index opened rest with
  | nil => rfl
  | gap hs _ ih => rw [parentheses_cons_of_ne (ne_parens_of_isSeparator hs), ih]
  | atom hw _ _ ih => rw [parentheses_append, parentheses_word hw.2, List.nil_append, ih]
  | @group s t content items _ _ ihs iht =>
    -- The place of the group is open while `s` is passed, and `)` takes it away again.
    have hl : index + 1 + (parentheses s).length + 1 + (parentheses t).length =
        index + (parens (parentheses s) ++ parentheses t).length := by
      rw [length_parens_append]
      omega
    rw [parentheses_append, parentheses_parens, parens_append_append, stray_open, ihs, stray_close,
      iht, hl]

/-- If some groups stay open to the end, the outermost of them has no partner. -/
theorem stray_hanging {t : Text} (h : Hanging t) (index : Nat) {opened : List Nat} {first : Nat}
    (ho : opened.getLast? = some first) :
    stray index opened (parentheses t) = some ('(', first) := by
  induction h generalizing index opened with
  | @last t items ht =>
    have hs := stray_laidOut ht index opened []
    rw [List.append_nil] at hs
    rw [hs, stray, ho]
    rfl
  | @opening t u items ht _ ih =>
    have hp : parentheses (t ++ '(' :: u) = parentheses t ++ '(' :: parentheses u := by
      simp [parentheses]
    rw [hp, stray_laidOut ht, stray_open]
    refine ih _ ?_
    cases opened with
    | nil => exact nomatch ho
    | cons _ _ => rwa [List.getLast?_cons_cons]

/-- The imbalance is that of a text in which the parenthesis that counts `k` others before it
has no partner. -/
inductive Reports : Char → Nat → Text → Imbalance → Prop
  | close {k position : Nat} {t : Text} :
    t[position]? = some ')' → (parentheses (t.take position)).length = k →
      Reports ')' k t (.unmatchedClose position t)
  | opening {k position : Nat} {t : Text} :
    t[position]? = some '(' → (parentheses (t.take position)).length = k →
      Reports '(' k t (.unmatchedOpen position t)

theorem Reports.unique {c c' : Char} {k k' : Nat} {t : Text} {cause : Imbalance}
    (h : Reports c k t cause) (h' : Reports c' k' t cause) : c = c' ∧ k = k' := by
  cases h with
  | close _ hk =>
    cases h' with
    | close _ hk' => exact ⟨rfl, hk.symm.trans hk'⟩
  | opening _ hk =>
    cases h' with
    | opening _ hk' => exact ⟨rfl, hk.symm.trans hk'⟩

theorem reports_of_broken {t : Text} {cause : Imbalance} (h : Broken t cause) :
    ∃ c k, stray 0 [] (parentheses t) = some (c, k) ∧ Reports c k t cause := by
  cases h with
  | @close t u items ht =>
    have hp : parentheses (t ++ ')' :: u) = parentheses t ++ ')' :: parentheses u := by
      simp [parentheses]
    refine ⟨')', (parentheses t).length, ?_, .close (by simp) (by simp)⟩
    rw [hp, stray_laidOut ht, stray, if_neg (by decide), Nat.zero_add]
  | @opening t u items ht hu =>
    have hp : parentheses (t ++ '(' :: u) = parentheses t ++ '(' :: parentheses u := by
      simp [parentheses]
    refine ⟨'(', (parentheses t).length, ?_, .opening (by simp) (by simp)⟩
    rw [hp, stray_laidOut ht, stray_open, Nat.zero_add]
    exact stray_hanging hu _ rfl

theorem stray_of_laidOut {t : Text} {items : List Item} (h : LaidOut t items) :
    stray 0 [] (parentheses t) = none := by
  have hs := stray_laidOut h 0 [] []
  rw [List.append_nil] at hs
  rw [hs]
  rfl

end ScoreFormula
