import ScoreFormula.Token

/-!
# Laid-out texts

A text is laid out as a list of items: atoms, and groups that hold laid-out texts
themselves, with separators around them.  `LaidOut` says so by the shape of the text
alone, without a scan.  A text has a layout exactly if its parentheses pair up.

`scan_laidOut` is what the rest of the theory rests on: scanning a laid-out text yields the
raw texts of its items.  The contents of the groups keep their own layout, so that reading
a content needs no new argument.
-/

namespace ScoreFormula

inductive Item
  | atom (text : Text)
  /-- A group with all of its text, parentheses included, and the items inside. -/
  | group (raw : Text) (content : List Item)

def Item.raw : Item → Text
  | atom text => text
  | group raw _ => raw

namespace Token

/-- The characters that atoms are made of. -/
def isPlain (c : Char) : Bool := !isSeparator c && c != '(' && c != ')'

def Word (w : Text) : Prop := w ≠ [] ∧ ∀ c ∈ w, isPlain c = true

/-- An atom that stands before the text ends where the text begins. -/
def Breaks (t : Text) : Prop := ∀ c ∈ t.head?, isPlain c = false

def parens (t : Text) : Text := '(' :: (t ++ [')'])

theorem word_of_all {w : Text} (hn : w ≠ []) (h : w.all isPlain = true) : Word w :=
  ⟨hn, List.all_eq_true.mp h⟩

theorem not_isPlain_of_isSeparator {c : Char} (h : isSeparator c = true) : isPlain c = false := by
  simp [isPlain, h]

theorem isBlank_of_isSeparator {c : Char} (h : isSeparator c = true) : Text.isBlank c = true := by
  simp only [isSeparator, Bool.or_eq_true, beq_iff_eq] at h
  rcases h with (((rfl | rfl) | rfl) | rfl) | rfl <;> decide

theorem ne_parens_of_isBlank {c : Char} (h : Text.isBlank c = true) : c ≠ '(' ∧ c ≠ ')' := by
  constructor
  · rintro rfl
    exact absurd h (by decide)
  · rintro rfl
    exact absurd h (by decide)

theorem ne_parens_of_isSeparator {c : Char} (h : isSeparator c = true) : c ≠ '(' ∧ c ≠ ')' :=
  ne_parens_of_isBlank (isBlank_of_isSeparator h)

theorem not_isPlain_of_parens {c : Char} (h : c = '(' ∨ c = ')') : isPlain c = false := by
  rcases h with rfl | rfl <;> decide

theorem isPlain_cases {c : Char} (h : isPlain c = true) :
    isSeparator c = false ∧ c ≠ '(' ∧ c ≠ ')' := by
  simpa [isPlain, and_assoc] using h

theorem breaks_nil : Breaks [] := by
  intro c hc
  exact absurd hc (by simp)

theorem breaks_cons {c : Char} {t : Text} (h : isPlain c = false) : Breaks (c :: t) := by
  intro d hd
  have : c = d := by simpa using hd
  rw [← this]
  exact h

theorem breaks_parens_append (t u : Text) : Breaks (parens t ++ u) :=
  breaks_cons (by decide)

theorem breaks_append {t u : Text} (ht : Breaks t) (hu : Breaks u) : Breaks (t ++ u) := by
  cases t with
  | nil => exact hu
  | cons c t => exact breaks_cons (ht c rfl)

theorem parens_append_append (s t u : Text) :
    parens s ++ t ++ u = '(' :: (s ++ (')' :: (t ++ u))) := by
  simp [parens]

theorem length_parens_append (s t : Text) :
    (parens s ++ t).length = 1 + s.length + 1 + t.length := by
  simp only [parens, List.length_append, List.length_cons, List.length_nil]
  omega

theorem isGroup_parens (s : Text) : isGroup (parens s) = true := by
  have hl : (parens s).getLast? = some ')' := by
    rw [parens, ← List.cons_append, List.getLast?_concat]
  rw [isGroup, hl]
  rfl

theorem strip_parens (s : Text) : strip (parens s) = s := by
  rw [strip, if_pos (isGroup_parens s), parens, List.tail_cons, List.dropLast_concat]

theorem parens_strip {raw : Text} (h : isGroup raw = true) : parens (strip raw) = raw := by
  have hends : raw.head? = some '(' ∧ raw.getLast? = some ')' := by simpa [isGroup] using h
  obtain ⟨hhead, hlast⟩ := hends
  obtain ⟨body, rfl⟩ := List.head?_eq_some_iff.mp hhead
  obtain ⟨front, hfront⟩ := List.getLast?_eq_some_iff.mp hlast
  cases front with
  | nil => exact absurd (List.cons.inj hfront).1 (by decide)
  | cons c s =>
    obtain ⟨rfl, rfl⟩ := List.cons.inj hfront
    exact congrArg parens (strip_parens s)

theorem isGroup_plain {w : Text} (h : ∀ c ∈ w, isPlain c = true) : isGroup w = false := by
  cases w with
  | nil => rfl
  | cons c w =>
    have hc := (isPlain_cases (h c List.mem_cons_self)).2.1
    simp [isGroup, hc]

end Token

open Token

inductive LaidOut : Text → List Item → Prop
  | nil : LaidOut [] []
  | gap {c : Char} {t : Text} {items : List Item} :
    isSeparator c = true → LaidOut t items → LaidOut (c :: t) items
  | atom {w t : Text} {items : List Item} :
    Word w → Breaks t → LaidOut t items → LaidOut (w ++ t) (.atom w :: items)
  | group {s t : Text} {content items : List Item} :
    LaidOut s content → LaidOut t items →
      LaidOut (parens s ++ t) (.group (parens s) content :: items)

namespace LaidOut

theorem word_of_mem {t w : Text} {items : List Item} (h : LaidOut t items)
    (hm : Item.atom w ∈ items) : Word w := by
  induction h with
  | nil => exact absurd hm (by simp)
  | gap _ _ ih => exact ih hm
  | atom hw _ _ ih =>
    rcases List.mem_cons.mp hm with he | hm
    · rw [Item.atom.inj he]
      exact hw
    · exact ih hm
  | group _ _ _ ih =>
    rcases List.mem_cons.mp hm with he | hm
    · exact nomatch he
    · exact ih hm

theorem content_of_mem {t raw : Text} {content items : List Item} (h : LaidOut t items)
    (hm : Item.group raw content ∈ items) : ∃ s, raw = parens s ∧ LaidOut s content := by
  induction h with
  | nil => exact absurd hm (by simp)
  | gap _ _ ih => exact ih hm
  | atom _ _ _ ih =>
    rcases List.mem_cons.mp hm with he | hm
    · exact nomatch he
    · exact ih hm
  | @group s _ _ _ hs _ _ ih =>
    rcases List.mem_cons.mp hm with he | hm
    · obtain ⟨hr, hc⟩ := Item.group.inj he
      exact ⟨s, hr, hc ▸ hs⟩
    · exact ih hm

theorem isSeparator_of_nil {t : Text} (h : LaidOut t []) {c : Char} (hc : c ∈ t) :
    isSeparator c = true := by
  generalize hi : ([] : List Item) = items at h
  induction h with
  | nil => exact absurd hc (by simp)
  | gap hs _ ih =>
    rcases List.mem_cons.mp hc with rfl | hc
    · exact hs
    · exact ih hc hi
  | atom => exact nomatch hi
  | group => exact nomatch hi

theorem nil_of_text_nil {items : List Item} (h : LaidOut [] items) : items = [] := by
  generalize ht : ([] : Text) = t at h
  cases h with
  | nil => rfl
  | gap => exact nomatch ht
  | atom hw => exact absurd (List.append_eq_nil_iff.mp ht.symm).1 hw.1
  | group => exact nomatch ht

theorem of_word {w : Text} (h : Word w) : LaidOut w [.atom w] := by
  have := atom h breaks_nil nil
  rwa [List.append_nil] at this

theorem of_parens {s : Text} {content : List Item} (h : LaidOut s content) :
    LaidOut (parens s) [.group (parens s) content] := by
  have := group h nil
  rwa [List.append_nil] at this

end LaidOut

/-! ## Scanning a laid-out text -/

namespace Token

variable {input : Text} (position start depth : Nat) (piece t : Text)

theorem map_finish_nil (x : Except Imbalance (List Text)) : x.map (finish []) = x := by
  cases x <;> rfl

theorem scan_open :
    scan input position (.atom []) ('(' :: t) =
      scan input (position + 1) (.group position 0 ['(']) t := by
  simp [scan, map_finish_nil]

theorem scan_inside_open :
    scan input position (.group start depth piece) ('(' :: t) =
      scan input (position + 1) (.group start (depth + 1) ('(' :: piece)) t := by
  simp [scan]

theorem scan_inside_close :
    scan input position (.group start (depth + 1) piece) (')' :: t) =
      scan input (position + 1) (.group start depth (')' :: piece)) t := by
  simp [scan]

theorem scan_last_close :
    scan input position (.group start 0 piece) (')' :: t) =
      (scan input (position + 1) (.atom []) t).map ((')' :: piece).reverse :: ·) := by
  simp [scan]

theorem scan_inside_other {c : Char} (ho : c ≠ '(') (hc : c ≠ ')') :
    scan input position (.group start depth piece) (c :: t) =
      scan input (position + 1) (.group start depth (c :: piece)) t := by
  simp only [scan, if_neg ho, if_neg hc]

theorem scan_separator {c : Char} (h : isSeparator c = true) :
    scan input position (.atom []) (c :: t) = scan input (position + 1) (.atom []) t := by
  obtain ⟨ho, hc⟩ := ne_parens_of_isSeparator h
  rw [scan, if_neg ho, if_neg hc, if_pos h, map_finish_nil]

theorem scan_plain {w : Text} (hw : ∀ c ∈ w, isPlain c = true) :
    scan input position (.atom piece) (w ++ t) =
      scan input (position + w.length) (.atom (w.reverse ++ piece)) t := by
  induction w generalizing position piece with
  | nil => rfl
  | cons c w ih =>
    obtain ⟨hs, ho, hc⟩ := isPlain_cases (hw c (by simp))
    rw [List.cons_append, scan, if_neg ho, if_neg hc, if_neg (by simp [hs]),
      ih _ _ (fun d hd => hw d (by simp [hd]))]
    simp [Nat.add_assoc, Nat.add_comm 1]

theorem scan_inside_plain {w : Text} (hw : ∀ c ∈ w, isPlain c = true) :
    scan input position (.group start depth piece) (w ++ t) =
      scan input (position + w.length) (.group start depth (w.reverse ++ piece)) t := by
  induction w generalizing position piece with
  | nil => rfl
  | cons c w ih =>
    obtain ⟨-, ho, hc⟩ := isPlain_cases (hw c (by simp))
    rw [List.cons_append, scan_inside_other _ _ _ _ _ ho hc,
      ih _ _ (fun d hd => hw d (by simp [hd]))]
    simp [Nat.add_assoc, Nat.add_comm 1]

/-- A break ends the atom that is being read, whatever follows it. -/
theorem scan_break {t : Text} (ht : Breaks t) :
    scan input position (.atom piece) t =
      (scan input position (.atom []) t).map (finish piece) := by
  cases t with
  | nil => simp [scan, finish, Except.map]
  | cons c t =>
    have hp : isPlain c = false := ht c rfl
    by_cases ho : c = '('
    · simp only [scan, if_pos ho, map_finish_nil]
    · by_cases hc : c = ')'
      · simp only [scan, if_neg ho, if_pos hc, Except.map]
      · have hs : isSeparator c = true := by simpa [isPlain, ho, hc] using hp
        simp only [scan, if_neg ho, if_neg hc, if_pos hs, map_finish_nil]

/-- Inside an open group a laid-out text only adds to what has been read. -/
theorem scan_inside {s : Text} {content : List Item} (h : LaidOut s content) :
    scan input position (.group start depth piece) (s ++ t) =
      scan input (position + s.length) (.group start depth (s.reverse ++ piece)) t := by
  induction h generalizing position depth piece t with
  | nil => rfl
  | @gap c u items hs _ ih =>
    obtain ⟨ho, hc⟩ := ne_parens_of_isSeparator hs
    rw [List.cons_append, scan_inside_other _ _ _ _ _ ho hc, ih]
    simp [Nat.add_assoc, Nat.add_comm 1]
  | @atom w u items hw _ _ ih =>
    rw [List.append_assoc, scan_inside_plain _ _ _ _ _ hw.2, ih]
    simp [Nat.add_assoc]
  | @group s u content items _ _ ihs ihu =>
    -- The inner group opens one level deeper and closes again before `u`.
    have hl : position + 1 + s.length + 1 + u.length = position + (parens s ++ u).length := by
      rw [length_parens_append]
      omega
    rw [parens_append_append, scan_inside_open, ihs, scan_inside_close, ihu, hl]
    simp [parens]

/-- The items of a text are its tokens, and scanning goes on behind the text. -/
theorem scan_laidOut {t u : Text} {items : List Item} (h : LaidOut t items) (hu : Breaks u) :
    scan input position (.atom []) (t ++ u) =
      (scan input (position + t.length) (.atom []) u).map (items.map Item.raw ++ ·) := by
  induction h generalizing position with
  | nil =>
    show scan input position (.atom []) u = (scan input position (.atom []) u).map _
    cases scan input position (.atom []) u <;> rfl
  | @gap c t items hs _ ih =>
    rw [List.cons_append, scan_separator _ _ hs, ih, List.length_cons, Nat.add_assoc,
      Nat.add_comm 1]
  | @atom w t items hw hb _ ih =>
    have hf : finish w.reverse = (w :: ·) := by
      funext tokens
      cases hr : w.reverse with
      | nil => exact absurd (List.reverse_eq_nil_iff.mp hr) hw.1
      | cons c r => rw [finish, ← hr, List.reverse_reverse]
    rw [List.append_assoc, scan_plain _ _ _ hw.2, scan_break _ _ (breaks_append hb hu), ih,
      List.append_nil, List.length_append, ← Nat.add_assoc, hf]
    cases scan input (position + w.length + t.length) (.atom []) u <;> rfl
  | @group s t content items hs _ _ ih =>
    have hl : position + 1 + s.length + 1 + t.length = position + (parens s ++ t).length := by
      rw [length_parens_append]
      omega
    have hr : (')' :: (s.reverse ++ ['('])).reverse = parens s := by simp [parens]
    rw [parens_append_append, scan_open, scan_inside _ _ _ _ _ hs, scan_last_close, ih, hl, hr]
    cases scan input (position + (parens s ++ t).length) (.atom []) u <;> rfl

end Token
end ScoreFormula
