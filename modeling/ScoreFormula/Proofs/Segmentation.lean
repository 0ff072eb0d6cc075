import ScoreFormula.Proofs.Forest.Balanced
import ScoreFormula.Proofs.Layout

/-!
# Tokens as a segmentation

A text whose parentheses balance can be cut into pieces with gaps between them, where a piece
is a word or a balanced group, in exactly one way.  `Segmented` says what a cut is, without a
scan.  `tokenize_segments` says that the tokens are this cut of the trimmed text, and that
pieces come back from any text that is put together from them.
-/

namespace ScoreFormula

open Token Text Forest

/-- What a token can be: a word, or a group whose two outer parentheses match each other. -/
inductive Piece : Text → Prop
  | word {w : Text} : Word w → Piece w
  | group {s : Text} : Balanced s → Piece (parens s)

/-- The text is these pieces in order with gaps between them, and none at its ends.  The gap
between two words is not empty. -/
inductive Segmented : Text → List Text → Prop
  | nil : Segmented [] []
  | single {p : Text} : Piece p → Segmented p [p]
  | cons {p q gap t : Text} {pieces : List Text} :
    Piece p → IsGap gap → (Word p → Word q → gap ≠ []) → Segmented t (q :: pieces) →
      Segmented (p ++ (gap ++ t)) (p :: q :: pieces)

/-- The first piece does not begin with a blank, and the last does not end with one. -/
structure Flush (pieces : List Text) : Prop where
  first : ∀ p ∈ pieces.head?, ∀ c ∈ p.head?, isBlank c = false
  last : ∀ p ∈ pieces.getLast?, ∀ c ∈ p.getLast?, isBlank c = false

theorem Piece.ne_nil {p : Text} (h : Piece p) : p ≠ [] := by
  cases h with
  | word hw => exact hw.1
  | group => exact List.cons_ne_nil _ _

theorem not_word_parens (s : Text) : ¬Word (parens s) := fun h =>
  absurd (h.2 '(' List.mem_cons_self) (by decide)

/-- A piece that is no word begins with a parenthesis. -/
theorem Piece.breaks {p : Text} (h : Piece p) (hw : ¬Word p) (t : Text) : Breaks (p ++ t) := by
  cases h with
  | word hp => exact absurd hp hw
  | group => exact breaks_parens_append _ t

namespace Segmented

variable {t : Text} {pieces : List Text}

theorem piece (h : Segmented t pieces) : ∀ p ∈ pieces, Piece p := by
  induction h with
  | nil => exact fun p hm => nomatch hm
  | single hp =>
    intro p hm
    rw [List.mem_singleton.mp hm]
    exact hp
  | cons hp _ _ _ ih =>
    intro p hm
    rcases List.mem_cons.mp hm with rfl | hm
    · exact hp
    · exact ih p hm

theorem nil_iff (h : Segmented t pieces) : t = [] ↔ pieces = [] := by
  cases h with
  | nil => exact ⟨fun _ => rfl, fun _ => rfl⟩
  | single hp => exact ⟨fun ht => absurd ht hp.ne_nil, fun hn => nomatch hn⟩
  | cons hp =>
    exact ⟨fun ht => absurd (List.append_eq_nil_iff.mp ht).1 hp.ne_nil, fun hn => nomatch hn⟩

theorem exists_append {p : Text} (h : Segmented t (p :: pieces)) : ∃ u, t = p ++ u := by
  cases h with
  | single => exact ⟨[], (List.append_nil _).symm⟩
  | cons => exact ⟨_, rfl⟩

theorem head? (h : Segmented t pieces) : t.head? = pieces.head?.bind List.head? := by
  cases pieces with
  | nil => rw [h.nil_iff.mpr rfl]; rfl
  | cons p pieces =>
    obtain ⟨u, rfl⟩ := h.exists_append
    obtain ⟨c, w, rfl⟩ := List.exists_cons_of_ne_nil (h.piece p List.mem_cons_self).ne_nil
    rfl

theorem getLast? (h : Segmented t pieces) : t.getLast? = pieces.getLast?.bind List.getLast? := by
  induction h with
  | nil => rfl
  | single => rfl
  | @cons p q gap t pieces hp hg hs ht ih =>
    have hn : t ≠ [] := fun he => List.cons_ne_nil q pieces (ht.nil_iff.mp he)
    rw [List.getLast?_cons_cons, ← ih, List.getLast?_append, List.getLast?_append,
      List.getLast?_eq_some_getLast hn, Option.some_or, Option.some_or]

/-! ## Cuts and layouts -/

/-- A cut is a layout that begins and ends with a piece. -/
theorem laidOut (h : Segmented t pieces) :
    ∃ items, LaidOut t items ∧ items.map Item.raw = pieces := by
  induction h with
  | nil => exact ⟨[], .nil, rfl⟩
  | single hp =>
    cases hp with
    | word hw => exact ⟨_, .of_word hw, rfl⟩
    | group hs =>
      obtain ⟨content, hc⟩ := laidOut_iff_balanced.mpr hs
      exact ⟨_, .of_parens hc, rfl⟩
  | @cons p q gap t pieces hp hg hn ht ih =>
    obtain ⟨items, hl, hr⟩ := ih
    have hrest : LaidOut (gap ++ t) items := .gaps hg hl
    cases hp with
    | word hw =>
      have hb : Breaks (gap ++ t) := by
        cases gap with
        | nil =>
          obtain ⟨u, rfl⟩ := ht.exists_append
          exact (ht.piece q List.mem_cons_self).breaks (fun hq => hn hw hq rfl) u
        | cons c gap => exact breaks_cons (not_isPlain_of_isSeparator (hg c List.mem_cons_self))
      exact ⟨.atom p :: items, .atom hw hb hrest, congrArg (p :: ·) hr⟩
    | @group s hs =>
      obtain ⟨content, hc⟩ := laidOut_iff_balanced.mpr hs
      exact ⟨.group (parens s) content :: items, .group hc hrest, congrArg (parens s :: ·) hr⟩

end Segmented

/-- The text is cut into these pieces once the gaps at its ends are taken off. -/
def SegmentedInside (t : Text) (pieces : List Text) : Prop :=
  ∃ u body v, IsGap u ∧ IsGap v ∧ t = u ++ (body ++ v) ∧ Segmented body pieces

namespace SegmentedInside

variable {t : Text} {pieces : List Text}

theorem gap {c : Char} (hc : isSeparator c = true) (h : SegmentedInside t pieces) :
    SegmentedInside (c :: t) pieces := by
  obtain ⟨u, body, v, hu, hv, rfl, hs⟩ := h
  refine ⟨c :: u, body, v, ?_, hv, rfl, hs⟩
  intro d hd
  rcases List.mem_cons.mp hd with rfl | hd
  · exact hc
  · exact hu d hd

/-- Behind a new first piece, the gap before the others stands between pieces, or at the end
if there are no others. -/
theorem cons {p : Text} (hp : Piece p) (hw : Word p → Breaks t) (h : SegmentedInside t pieces) :
    SegmentedInside (p ++ t) (p :: pieces) := by
  obtain ⟨u, body, v, hu, hv, rfl, hs⟩ := h
  cases pieces with
  | nil =>
    obtain rfl := hs.nil_iff.mpr rfl
    refine ⟨[], p, u ++ v, isGap_nil, ?_, rfl, .single hp⟩
    intro c hc
    exact (List.mem_append.mp hc).elim (hu c) (hv c)
  | cons q pieces =>
    refine ⟨[], p ++ (u ++ body), v, isGap_nil, hv, by simp, .cons hp hu ?_ hs⟩
    -- Without a gap the first word would go on into the second.
    rintro hp hq rfl
    obtain ⟨rest, rfl⟩ := hs.exists_append
    obtain ⟨c, w, rfl⟩ := List.exists_cons_of_ne_nil hq.1
    have hplain := hq.2 c List.mem_cons_self
    rw [hw hp c rfl] at hplain
    exact nomatch hplain

theorem of_laidOut {items : List Item} (h : LaidOut t items) :
    SegmentedInside t (items.map Item.raw) := by
  induction h with
  | nil => exact ⟨[], [], [], isGap_nil, isGap_nil, rfl, .nil⟩
  | gap hc _ ih => exact ih.gap hc
  | atom hw hb _ ih => exact ih.cons (.word hw) fun _ => hb
  | group hs _ _ ih =>
    refine ih.cons (.group hs.balanced) fun hw => ?_
    have hopen := hw.2 '(' List.mem_cons_self
    exact absurd hopen (by decide)

/-- A trimmed text has no gaps at its ends. -/
theorem segmented_of_trim (ht : t.trim = t) (h : SegmentedInside t pieces) :
    Segmented t pieces := by
  obtain ⟨u, body, v, hu, hv, rfl, hs⟩ := h
  have hbody : body.trim = u ++ (body ++ v) := by
    rw [← ht]
    exact trim_of_padded (.around body (fun c hc => isBlank_of_isSeparator (hu c hc))
      fun c hc => isBlank_of_isSeparator (hv c hc))
  have hle := length_trim_le body
  rw [hbody, List.length_append, List.length_append] at hle
  obtain rfl : u = [] := List.eq_nil_of_length_eq_zero (by omega)
  obtain rfl : v = [] := List.eq_nil_of_length_eq_zero (by omega)
  rwa [List.nil_append, List.append_nil]

end SegmentedInside

/-! ## Tokens -/

theorem segmented_of_tokenize {t : Text} {tokens : List Text} (h : tokenize t = .ok tokens) :
    Segmented t.trim tokens := by
  rw [tokenize_eq] at h
  obtain ⟨items, hitems, rfl⟩ := map_eq_ok h
  have hl := (laidOut_of_ofText? hitems).trim
  exact (SegmentedInside.of_laidOut hl).segmented_of_trim (trim_trim t)

theorem tokenize_of_segmented {t : Text} {pieces : List Text} (h : Segmented t.trim pieces) :
    tokenize t = .ok pieces := by
  obtain ⟨items, hl, rfl⟩ := h.laidOut
  exact tokenize_of_laidOut_trim hl

/-- The texts that have tokens are those whose parentheses balance. -/
theorem exists_tokens_iff_balanced {t : Text} :
    (∃ tokens, tokenize t = .ok tokens) ↔ Balanced t := by
  rw [← laidOut_iff_balanced]
  constructor
  · rintro ⟨tokens, h⟩
    rw [tokenize_eq] at h
    obtain ⟨items, hitems, -⟩ := map_eq_ok h
    exact ⟨items, laidOut_of_ofText? hitems⟩
  · rintro ⟨items, h⟩
    exact ⟨_, tokenize_of_laidOut h⟩

/-- What the ends of a text are is settled by the pieces there. -/
theorem Segmented.trim_eq_self_iff {t : Text} {pieces : List Text} (h : Segmented t pieces) :
    t.trim = t ↔ Flush pieces := by
  rw [Text.trim_eq_self_iff, trimStart_eq_self_iff, trimEnd_eq_self_iff, h.head?, h.getLast?]
  constructor
  · rintro ⟨hf, hl⟩
    exact ⟨fun p hp c hc => hf c (Option.mem_bind_iff.mpr ⟨p, hp, hc⟩),
      fun p hp c hc => hl c (Option.mem_bind_iff.mpr ⟨p, hp, hc⟩)⟩
  · rintro ⟨hf, hl⟩
    constructor
    · intro c hc
      obtain ⟨p, hp, hc⟩ := Option.mem_bind_iff.mp hc
      exact hf p hp c hc
    · intro c hc
      obtain ⟨p, hp, hc⟩ := Option.mem_bind_iff.mp hc
      exact hl p hp c hc

theorem tokenize_parens_of_balanced {s : Text} (h : Balanced s) :
    tokenize (parens s) = .ok [parens s] := by
  obtain ⟨content, hc⟩ := laidOut_iff_balanced.mpr h
  exact tokenize_parens hc

theorem tokenize_of_flush {t : Text} {pieces : List Text} (hs : Segmented t pieces)
    (hf : Flush pieces) : tokenize t = .ok pieces := by
  rw [← hs.trim_eq_self_iff.mpr hf] at hs
  exact tokenize_of_segmented hs

/-- A text that is its own only token. -/
theorem flush_of_token {p : Text} (h : tokenize p = .ok [p]) : Piece p ∧ Flush [p] := by
  have hs := segmented_of_tokenize h
  have ht : p = p.trim := by
    generalize p.trim = u at hs
    cases hs
    rfl
  rw [← ht] at hs
  exact ⟨hs.piece p List.mem_cons_self, hs.trim_eq_self_iff.mp ht.symm⟩

theorem segmented_intercalate {pieces : List Text} (h : ∀ p ∈ pieces, Piece p) :
    Segmented ([' '].intercalate pieces) pieces := by
  match pieces, h with
  | [], _ => exact .nil
  | [p], h =>
    rw [List.intercalate_singleton]
    exact .single (h p List.mem_cons_self)
  | p :: q :: pieces, h =>
    have hrest := segmented_intercalate fun r hr => h r (List.mem_cons_of_mem p hr)
    rw [List.intercalate_cons_cons, List.append_assoc]
    exact .cons (h p List.mem_cons_self) isGap_space (fun _ _ => List.cons_ne_nil _ _) hrest

/-- Tokens stay apart when single spaces are put between them, whatever texts they are from. -/
theorem tokenize_intercalate {pieces : List Text} (h : ∀ p ∈ pieces, tokenize p = .ok [p]) :
    tokenize ([' '].intercalate pieces) = .ok pieces := by
  have hflush : Flush pieces := by
    constructor
    · intro p hp
      exact (flush_of_token (h p (List.mem_of_mem_head? hp))).2.first p rfl
    · intro p hp
      exact (flush_of_token (h p (List.mem_of_mem_getLast? hp))).2.last p rfl
  exact tokenize_of_flush (segmented_intercalate fun p hp => (flush_of_token (h p hp)).1) hflush

/-- The tokens of a balanced text are the one cut of it, once it is trimmed.  Pieces that are
put together with gaps between them, and with blanks around, are the tokens of the text, if
the pieces at its ends have no blank there.  So tokens with single spaces between them are
tokens again. -/
theorem tokenize_segments (input : Text) :
    (Balanced input → ∃ tokens, tokenize input = .ok tokens ∧ Segmented input.trim tokens ∧
        ∀ pieces, Segmented input.trim pieces → pieces = tokens) ∧
      (∀ pieces t, Segmented t pieces → Flush pieces → Padded t input →
        tokenize input = .ok pieces) ∧
      ∀ tokens, tokenize input = .ok tokens →
        tokenize ([' '].intercalate tokens) = .ok tokens := by
  refine ⟨?_, ?_, ?_⟩
  · intro hb
    obtain ⟨tokens, ht⟩ := exists_tokens_iff_balanced.mpr hb
    refine ⟨tokens, ht, segmented_of_tokenize ht, fun pieces hs => ?_⟩
    exact Except.ok.inj ((tokenize_of_segmented hs).symm.trans ht)
  · intro pieces t hs hf hp
    rw [← tokenize_trim, ← trim_of_padded hp, tokenize_trim]
    exact tokenize_of_flush hs hf
  · intro tokens ht
    have hs := segmented_of_tokenize ht
    have hf := hs.trim_eq_self_iff.mp (trim_trim input)
    exact tokenize_of_flush (segmented_intercalate hs.piece) hf

/-- A blank that separates nothing stays inside a word, and goes at the ends of the text. -/
theorem tokenize_segments_blank_in_word :
    ∃ (t input : Text) (pieces : List Text), t = "a\u00a0(b c) d".toList ∧
      input = "\u00a0a\u00a0(b c) d\u00a0".toList ∧
      pieces = ["a\u00a0".toList, "(b c)".toList, "d".toList] ∧
      Segmented t pieces ∧ Flush pieces ∧ Padded t input ∧ tokenize input = .ok pieces ∧
      Balanced input ∧ (∀ others, Segmented input.trim others → others = pieces) ∧
      tokenize "a\u00a0 (b c) d".toList = .ok pieces := by
  have hf : ofText? "b c".toList = .ok [.atom "b".toList, .atom "c".toList] := rfl
  have hword : Piece "a\u00a0".toList := .word (word_of_all (by decide) (by decide))
  have hgroup : Piece (parens "b c".toList) := .group (laidOut_of_ofText? hf).balanced
  have hlast : Piece "d".toList := .word (word_of_all (by decide) (by decide))
  have hrest : Segmented (parens "b c".toList ++ ([' '] ++ "d".toList))
      ["(b c)".toList, "d".toList] :=
    .cons hgroup isGap_space (fun _ _ => List.cons_ne_nil _ _) (.single hlast)
  have hs : Segmented ("a\u00a0".toList ++ ([] ++ (parens "b c".toList ++ ([' '] ++ "d".toList))))
      ["a\u00a0".toList, "(b c)".toList, "d".toList] := by
    refine .cons hword isGap_nil (fun _ hg => ?_) hrest
    exact absurd (hg.2 '(' List.mem_cons_self) (by decide)
  have hflush : Flush ["a\u00a0".toList, "(b c)".toList, "d".toList] := by
    constructor
    · rintro p hp c hc
      cases hp
      cases hc
      decide
    · rintro p hp c hc
      cases hp
      cases hc
      decide
  have hblank : ∀ c ∈ "\u00a0".toList, isBlank c = true := List.all_eq_true.mp (by decide)
  have hpadded := Padded.around
    ("a\u00a0".toList ++ ([] ++ (parens "b c".toList ++ ([' '] ++ "d".toList)))) hblank hblank
  obtain ⟨hcut, hput, hspaces⟩ := tokenize_segments "\u00a0a\u00a0(b c) d\u00a0".toList
  have htokens := hput _ _ hs hflush hpadded
  have hbalanced := exists_tokens_iff_balanced.mp ⟨_, htokens⟩
  obtain ⟨tokens, htokens', -, hunique⟩ := hcut hbalanced
  cases htokens.symm.trans htokens'
  exact ⟨_, _, _, rfl, rfl, rfl, hs, hflush, hpadded, htokens, hbalanced, hunique,
    hspaces _ htokens⟩

end ScoreFormula
