import ScoreFormula.Proofs.Forest

/-!
# Trimming a laid-out text

Trimming takes off every blank, and only five of the blanks are separators.  So it may
take whole atoms off a layout, those that consist of blanks alone, and then part of the
atom that has become the outermost one.  `trimEdges` does the same to the items, and
`LaidOut.trim` says that it fits.
-/

namespace ScoreFormula

namespace Text

theorem trimStart_append (t u : Text) :
    trimStart (t ++ u) = if trimStart t = [] then trimStart u else trimStart t ++ u := by
  unfold trimStart
  rw [List.dropWhile_append]
  by_cases h : t.dropWhile isBlank = []
  · rw [if_pos h, if_pos (by rw [h]; rfl)]
  · rw [if_neg h, if_neg (by rwa [List.isEmpty_iff])]

theorem trimEnd_append (t u : Text) :
    trimEnd (t ++ u) = if trimEnd u = [] then trimEnd t else t ++ trimEnd u := by
  have h := trimStart_append u.reverse t.reverse
  unfold trimStart at h
  unfold trimEnd
  rw [List.reverse_append, h]
  by_cases hu : u.reverse.dropWhile isBlank = []
  · rw [if_pos hu, if_pos (by rw [hu]; rfl)]
  · rw [if_neg hu, if_neg (by rwa [List.reverse_eq_nil_iff]), List.reverse_append,
      List.reverse_reverse]

theorem trimStart_cons_of_not_blank {c : Char} (h : isBlank c = false) (t : Text) :
    trimStart (c :: t) = c :: t := by
  simp [trimStart, h]

theorem trimStart_cons_of_blank {c : Char} (h : isBlank c = true) (t : Text) :
    trimStart (c :: t) = trimStart t := by
  simp [trimStart, h]

theorem trimEnd_singleton {c : Char} (h : isBlank c = false) : trimEnd [c] = [c] := by
  simp [trimEnd, h]

theorem trimEnd_cons_of_not_blank {c : Char} (h : isBlank c = false) (t : Text) :
    trimEnd (c :: t) = c :: trimEnd t := by
  have ha := trimEnd_append [c] t
  rw [trimEnd_singleton h, List.singleton_append, List.singleton_append] at ha
  rw [ha]
  by_cases ht : trimEnd t = []
  · rw [if_pos ht, ht]
  · rw [if_neg ht]

theorem trimStart_append_cons {c : Char} (h : isBlank c = false) (t u : Text) :
    trimStart (t ++ c :: u) = trimStart t ++ c :: u := by
  rw [trimStart_append, trimStart_cons_of_not_blank h]
  by_cases ht : trimStart t = []
  · rw [if_pos ht, ht, List.nil_append]
  · rw [if_neg ht]

theorem trim_append_cons {c : Char} (h : isBlank c = false) (t u : Text) :
    trim (t ++ c :: u) = trimStart t ++ c :: trimEnd u := by
  show trimEnd (trimStart (t ++ c :: u)) = _
  rw [trimStart_append_cons h, trimEnd_append, trimEnd_cons_of_not_blank h, if_neg (by simp)]

theorem mem_of_mem_trimStart {t : Text} {c : Char} (h : c ∈ trimStart t) : c ∈ t :=
  (List.dropWhile_sublist isBlank).subset h

theorem mem_of_mem_trimEnd {t : Text} {c : Char} (h : c ∈ trimEnd t) : c ∈ t := by
  have hr : c ∈ t.reverse := (List.dropWhile_sublist isBlank).subset (List.mem_reverse.mp h)
  exact List.mem_reverse.mp hr

theorem mem_of_mem_trim {t : Text} {c : Char} (h : c ∈ trim t) : c ∈ t :=
  mem_of_mem_trimStart (mem_of_mem_trimEnd h)

theorem trimStart_eq_nil_iff {t : Text} : trimStart t = [] ↔ ∀ c ∈ t, isBlank c = true := by
  induction t with
  | nil => simp [trimStart]
  | cons c t ih =>
    by_cases h : isBlank c = true
    · rw [trimStart_cons_of_blank h, ih]
      simp [h]
    · rw [trimStart_cons_of_not_blank (by simpa using h)]
      simp [h]

theorem trimEnd_eq_nil_iff {t : Text} : trimEnd t = [] ↔ ∀ c ∈ t, isBlank c = true := by
  show (trimStart t.reverse).reverse = [] ↔ _
  rw [List.reverse_eq_nil_iff, trimStart_eq_nil_iff]
  simp

theorem head_trimStart {t u : Text} {c : Char} (h : trimStart t = c :: u) : isBlank c = false := by
  have hh := List.head?_dropWhile_not isBlank t
  rw [show t.dropWhile isBlank = c :: u from h] at hh
  exact hh

theorem isPrefix_trimEnd (t : Text) : trimEnd t <+: t := by
  have hs := List.reverse_prefix.mpr (List.dropWhile_suffix (l := t.reverse) isBlank)
  rwa [List.reverse_reverse] at hs

theorem head?_trimEnd {t : Text} (h : trimEnd t ≠ []) : (trimEnd t).head? = t.head? := by
  rw [List.head?_eq_some_head h, (isPrefix_trimEnd t).head h, List.head?_eq_some_head]

theorem trimStart_trimStart (t : Text) : trimStart (trimStart t) = trimStart t := by
  cases h : trimStart t with
  | nil => rfl
  | cons c u => exact trimStart_cons_of_not_blank (head_trimStart h) u

theorem trimEnd_trimEnd (t : Text) : trimEnd (trimEnd t) = trimEnd t := by
  have h := trimStart_trimStart t.reverse
  unfold trimStart at h
  unfold trimEnd
  rw [List.reverse_reverse, h]

theorem trimStart_trim (t : Text) : trimStart (trim t) = trim t := by
  unfold trim
  cases h : trimStart t with
  | nil => rfl
  | cons c u =>
    have hc := head_trimStart h
    rw [trimEnd_cons_of_not_blank hc]
    exact trimStart_cons_of_not_blank hc _

theorem trim_trim (t : Text) : trim (trim t) = trim t := by
  show trimEnd (trimStart (trim t)) = trim t
  rw [trimStart_trim]
  exact trimEnd_trimEnd (trimStart t)

theorem trimStart_eq_self_iff {t : Text} :
    trimStart t = t ↔ ∀ c ∈ t.head?, isBlank c = false := by
  constructor
  · intro h c hc
    obtain ⟨u, hu⟩ := List.head?_eq_some_iff.mp hc
    exact head_trimStart (h.trans hu)
  · intro h
    cases t with
    | nil => rfl
    | cons c u => exact trimStart_cons_of_not_blank (h c rfl) u

theorem trimEnd_eq_self_iff {t : Text} :
    trimEnd t = t ↔ ∀ c ∈ t.getLast?, isBlank c = false := by
  have h : trimEnd t = (trimStart t.reverse).reverse := rfl
  rw [h, List.reverse_eq_iff, trimStart_eq_self_iff, List.head?_reverse]

/-- A text is trimmed if both its ends are. -/
theorem trim_eq_self_iff {t : Text} : trim t = t ↔ trimStart t = t ∧ trimEnd t = t := by
  constructor
  · intro h
    have hs := trimStart_trim t
    have he : trimEnd (trim t) = trim t := trimEnd_trimEnd (trimStart t)
    rw [h] at hs he
    exact ⟨hs, he⟩
  · rintro ⟨hs, he⟩
    rw [trim, hs, he]

end Text

open Token Text

namespace Forest

/-- Drops the blank atoms that come first, and the blanks that the first atom left
begins with. -/
def trimFirst : List Item → List Item
  | .atom w :: rest => if trimStart w = [] then trimFirst rest else .atom (trimStart w) :: rest
  | items => items

/-- Drops the blank atoms that come last, and the blanks that the last atom left ends
with. -/
def trimLast : List Item → List Item
  | [] => []
  | item :: rest =>
    match trimLast rest, item with
    | [], .atom w => if trimEnd w = [] then [] else [.atom (trimEnd w)]
    | rest, item => item :: rest

def trimEdges (items : List Item) : List Item := trimLast (trimFirst items)

theorem trimFirst_nil : trimFirst [] = [] := rfl

theorem trimFirst_cons_group (raw : Text) (content rest : List Item) :
    trimFirst (.group raw content :: rest) = .group raw content :: rest := rfl

theorem trimLast_nil : trimLast [] = [] := rfl

theorem trimLast_cons_group (raw : Text) (content rest : List Item) :
    trimLast (.group raw content :: rest) = .group raw content :: trimLast rest := by
  cases h : trimLast rest <;> simp [trimLast, h]

theorem trimLast_cons_of_ne_nil {rest : List Item} (h : trimLast rest ≠ []) (item : Item) :
    trimLast (item :: rest) = item :: trimLast rest := by
  cases hr : trimLast rest with
  | nil => exact absurd hr h
  | cons other others => simp [trimLast, hr]

theorem trimLast_cons_atom {rest : List Item} (h : trimLast rest = []) (w : Text) :
    trimLast (.atom w :: rest) = if trimEnd w = [] then [] else [.atom (trimEnd w)] := by
  simp [trimLast, h]

theorem mem_trimFirst {items : List Item} {item : Item} (h : item ∈ trimFirst items) :
    item ∈ items ∨ ∃ w, item = .atom w := by
  induction items with
  | nil => exact Or.inl h
  | cons other rest ih =>
    cases other with
    | atom w =>
      rw [trimFirst] at h
      by_cases hw : trimStart w = []
      · rw [if_pos hw] at h
        exact (ih h).imp_left (List.mem_cons_of_mem _)
      · rw [if_neg hw] at h
        rcases List.mem_cons.mp h with rfl | h
        · exact Or.inr ⟨_, rfl⟩
        · exact Or.inl (List.mem_cons_of_mem _ h)
    | group raw content => exact Or.inl h

theorem mem_trimLast {items : List Item} {item : Item} (h : item ∈ trimLast items) :
    item ∈ items ∨ ∃ w, item = .atom w := by
  induction items with
  | nil => exact Or.inl h
  | cons other rest ih =>
    by_cases hr : trimLast rest = []
    · cases other with
      | atom w =>
        rw [trimLast_cons_atom hr] at h
        by_cases hw : trimEnd w = []
        · rw [if_pos hw] at h
          exact nomatch h
        · rw [if_neg hw] at h
          exact Or.inr ⟨_, List.mem_singleton.mp h⟩
      | group raw content =>
        rw [trimLast_cons_group, hr] at h
        exact Or.inl (List.mem_cons.mpr (Or.inl (List.mem_singleton.mp h)))
    · rw [trimLast_cons_of_ne_nil hr] at h
      rcases List.mem_cons.mp h with rfl | h
      · exact Or.inl List.mem_cons_self
      · exact (ih h).imp_left (List.mem_cons_of_mem _)

theorem mem_trimEdges {items : List Item} {item : Item} (h : item ∈ trimEdges items) :
    item ∈ items ∨ ∃ w, item = .atom w := by
  rcases mem_trimLast h with h | h
  · exact mem_trimFirst h
  · exact Or.inr h

/-! A map that keeps atoms as they are, and groups groups, may as well come after trimming. -/

section

variable {f : Item → Item} (ha : ∀ w, f (.atom w) = .atom w)
  (hg : ∀ raw content, ∃ raw' content', f (.group raw content) = .group raw' content')

include ha hg

theorem trimFirst_map (items : List Item) :
    trimFirst (items.map f) = (trimFirst items).map f := by
  induction items with
  | nil => rfl
  | cons item rest ih =>
    cases item with
    | atom w =>
      rw [List.map_cons, ha, trimFirst, trimFirst]
      by_cases h : trimStart w = []
      · rw [if_pos h, if_pos h, ih]
      · rw [if_neg h, if_neg h, List.map_cons, ha]
    | group raw content =>
      obtain ⟨raw', content', hf⟩ := hg raw content
      rw [List.map_cons, hf, trimFirst_cons_group, trimFirst_cons_group, List.map_cons, hf]

theorem trimLast_map (items : List Item) : trimLast (items.map f) = (trimLast items).map f := by
  induction items with
  | nil => rfl
  | cons item rest ih =>
    rw [List.map_cons]
    by_cases h : trimLast rest = []
    · have hm : trimLast (rest.map f) = [] := by rw [ih, h, List.map_nil]
      cases item with
      | atom w =>
        rw [ha, trimLast_cons_atom hm, trimLast_cons_atom h]
        by_cases hw : trimEnd w = []
        · rw [if_pos hw, List.map_nil]
        · rw [if_neg hw, List.map_singleton, ha]
      | group raw content =>
        obtain ⟨raw', content', hf⟩ := hg raw content
        rw [hf, trimLast_cons_group, trimLast_cons_group, ih, List.map_cons, hf]
    · have hm : trimLast (rest.map f) ≠ [] := by
        rw [ih]
        exact fun he => h (List.map_eq_nil_iff.mp he)
      rw [trimLast_cons_of_ne_nil hm, trimLast_cons_of_ne_nil h, ih, List.map_cons]

theorem trimEdges_map (items : List Item) :
    trimEdges (items.map f) = (trimEdges items).map f := by
  rw [trimEdges, trimEdges, trimFirst_map ha hg, trimLast_map ha hg]

end

theorem trimEdges_atom (w : Text) :
    trimEdges [.atom w] = if w.trim = [] then [] else [.atom w.trim] := by
  by_cases h : trimStart w = []
  · have ht : w.trim = [] := by rw [trim, h]; rfl
    rw [if_pos ht, trimEdges, trimFirst, if_pos h, trimFirst_nil, trimLast_nil]
  · rw [trimEdges, trimFirst, if_neg h, trimLast_cons_atom trimLast_nil]
    rfl

theorem trimEdges_group (raw : Text) (content : List Item) :
    trimEdges [.group raw content] = [.group raw content] := by
  rw [trimEdges, trimFirst_cons_group, trimLast_cons_group, trimLast_nil]

end Forest

open Forest

namespace Token

theorem Word.trimStart {w : Text} (hw : Word w) (h : trimStart w ≠ []) : Word (trimStart w) :=
  ⟨h, fun c hc => hw.2 c (mem_of_mem_trimStart hc)⟩

theorem Word.trimEnd {w : Text} (hw : Word w) (h : trimEnd w ≠ []) : Word (trimEnd w) :=
  ⟨h, fun c hc => hw.2 c (mem_of_mem_trimEnd hc)⟩

/-- What is left at the end of a text begins where the text did. -/
theorem breaks_trimEnd {t : Text} (h : Breaks t) : Breaks (trimEnd t) := by
  by_cases he : trimEnd t = []
  · rw [he]
    exact breaks_nil
  · rw [Breaks, head?_trimEnd he]
    exact h

theorem trimStart_parens_append (s t : Text) : trimStart (parens s ++ t) = parens s ++ t :=
  trimStart_cons_of_not_blank (by decide) _

theorem trimEnd_parens (s : Text) : trimEnd (parens s) = parens s := by
  have h : trimEnd [')'] = [')'] := trimEnd_singleton (by decide)
  show trimEnd ('(' :: s ++ [')']) = '(' :: s ++ [')']
  rw [trimEnd_append, h, if_neg (by simp)]

theorem trimEnd_parens_append (s t : Text) :
    trimEnd (parens s ++ t) = parens s ++ trimEnd t := by
  rw [trimEnd_append]
  by_cases h : trimEnd t = []
  · rw [if_pos h, trimEnd_parens, h, List.append_nil]
  · rw [if_neg h]

end Token

namespace LaidOut

theorem trimStart {t : Text} {items : List Item} (h : LaidOut t items) :
    LaidOut (trimStart t) (trimFirst items) := by
  induction h with
  | nil => exact nil
  | @gap c t items hs _ ih =>
    rw [trimStart_cons_of_blank (isBlank_of_isSeparator hs)]
    exact ih
  | @atom w t items hw hb ht ih =>
    rw [trimStart_append, trimFirst]
    by_cases h : Text.trimStart w = []
    · rw [if_pos h, if_pos h]
      exact ih
    · rw [if_neg h, if_neg h]
      exact atom (hw.trimStart h) hb ht
  | group hs ht _ _ =>
    rw [trimStart_parens_append]
    exact group hs ht

theorem trimLast_eq_nil_iff {t : Text} {items : List Item} (h : LaidOut (trimEnd t) items) :
    items = [] ↔ Text.trimEnd t = [] := by
  constructor
  · rintro rfl
    have hb : ∀ c ∈ Text.trimEnd t, isBlank c = true := fun c hc =>
      isBlank_of_isSeparator (h.isSeparator_of_nil hc)
    rw [← trimEnd_trimEnd]
    exact trimEnd_eq_nil_iff.mpr hb
  · intro ht
    rw [ht] at h
    exact h.nil_of_text_nil

theorem trimEnd {t : Text} {items : List Item} (h : LaidOut t items) :
    LaidOut (trimEnd t) (trimLast items) := by
  induction h with
  | nil => exact nil
  | @gap c t items hs _ ih =>
    have ha := trimEnd_append [c] t
    rw [List.singleton_append] at ha
    rw [ha]
    by_cases h : Text.trimEnd t = []
    · have hc : Text.trimEnd [c] = [] := by
        rw [trimEnd_eq_nil_iff]
        intro d hd
        rw [List.mem_singleton.mp hd]
        exact isBlank_of_isSeparator hs
      rw [if_pos h, hc, ← h]
      exact ih
    · rw [if_neg h]
      exact gap hs ih
  | @atom w t items hw hb _ ih =>
    rw [trimEnd_append]
    by_cases h : Text.trimEnd t = []
    · rw [if_pos h, trimLast_cons_atom (ih.trimLast_eq_nil_iff.mpr h)]
      by_cases hwe : Text.trimEnd w = []
      · rw [if_pos hwe, hwe]
        exact nil
      · rw [if_neg hwe]
        have hl := atom (hw.trimEnd hwe) breaks_nil nil
        rwa [List.append_nil] at hl
    · rw [if_neg h, trimLast_cons_of_ne_nil (fun he => h (ih.trimLast_eq_nil_iff.mp he))]
      exact atom hw (breaks_trimEnd hb) ih
  | group hs _ _ ih =>
    rw [trimEnd_parens_append, trimLast_cons_group]
    exact group hs ih

theorem trim {t : Text} {items : List Item} (h : LaidOut t items) :
    LaidOut t.trim (trimEdges items) :=
  h.trimStart.trimEnd

theorem trim_eq {t w : Text} (h : LaidOut t [.atom w]) : t.trim = w.trim := by
  generalize hi : [Item.atom w] = items at h
  induction h with
  | nil => exact absurd hi (List.cons_ne_nil _ _)
  | @gap c t items hs _ ih =>
    rw [← ih hi, Text.trim, Text.trim, trimStart_cons_of_blank (isBlank_of_isSeparator hs)]
  | @atom v t items _ _ ht _ =>
    obtain ⟨he, hn⟩ := List.cons.inj hi
    rw [Item.atom.inj he]
    subst hn
    have hb : ∀ c ∈ t, isBlank c = true := fun c hc =>
      isBlank_of_isSeparator (ht.isSeparator_of_nil hc)
    rw [Text.trim, Text.trim, trimStart_append]
    by_cases hv : Text.trimStart v = []
    · rw [if_pos hv, hv, trimStart_eq_nil_iff.mpr hb]
    · rw [if_neg hv, trimEnd_append, if_pos (trimEnd_eq_nil_iff.mpr hb)]
  | group => exact absurd (List.cons.inj hi).1 (by simp)

end LaidOut

theorem tokenize_of_laidOut_trim {t : Text} {items : List Item} (h : LaidOut t.trim items) :
    tokenize t = .ok (items.map Item.raw) := by
  have hs : scan t.trim 0 (.atom []) (t.trim ++ []) = _ := scan_laidOut 0 h breaks_nil
  rw [List.append_nil] at hs
  show scan t.trim 0 (.atom []) t.trim = _
  rw [hs]
  simp [scan, finish, Except.map]

/-- The tokens of a laid-out text are its items between the blank edges. -/
theorem tokenize_of_laidOut {t : Text} {items : List Item} (h : LaidOut t items) :
    tokenize t = .ok ((trimEdges items).map Item.raw) :=
  tokenize_of_laidOut_trim h.trim

end ScoreFormula
