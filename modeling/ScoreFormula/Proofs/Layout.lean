import Mathlib.Logic.Relation
import ScoreFormula.Proofs.Balance
import ScoreFormula.Proofs.Forest.Respace
import ScoreFormula.Proofs.Spelling

/-!
# Layout does not matter

Texts that differ in layout only are read alike (`read_of_relaid`): the scope ends the same,
and so does the reading, except that an unmatched parenthesis is reported where it stands in
its own text, and a group that is reported as a symbol in its own layout.

A change of layout keeps the lexemes, or else what is left after trimming.  The lexemes of a
text settle its outcome: with a layout the text reads as its respaced text does, and without
one the parentheses alone tell which of them is at fault.
-/

namespace ScoreFormula

open Token Text Forest

/-- Blanks put around a text. -/
inductive Padded : Text → Text → Prop
  | around {u v : Text} (t : Text) :
    (∀ c ∈ u, isBlank c = true) → (∀ c ∈ v, isBlank c = true) → Padded t (u ++ (t ++ v))

/-- One change of layout.  A gap can be emptied only next to a parenthesis. -/
inductive Relaid : Text → Text → Prop
  | gap {u v : Text} (s t : Text) :
    IsGap u → IsGap v → u ≠ [] → v ≠ [] → Relaid (s ++ (u ++ t)) (s ++ (v ++ t))
  | before {c : Char} {u v : Text} (s t : Text) :
    IsGap u → IsGap v → c = '(' ∨ c = ')' → Relaid (s ++ (u ++ c :: t)) (s ++ (v ++ c :: t))
  | behind {c : Char} {u v : Text} (s t : Text) :
    IsGap u → IsGap v → c = '(' ∨ c = ')' → Relaid (s ++ c :: (u ++ t)) (s ++ c :: (v ++ t))
  | ends {s t : Text} : Padded s t → Relaid s t

/-- The outcomes of reading two texts are the same, but for what errors report of the texts
themselves. -/
inductive SameOutcome (s s' : Text) : ReadResult × Scope → ReadResult × Scope → Prop
  | same {result : ReadResult × Scope} :
    (∀ cause, result.1 ≠ .error (.imbalance cause)) → SameOutcome s s' result result
  /-- A group stands where a symbol is expected, in the layout that it has in its text. -/
  | symbol {symbol symbol' : Text} {scope : Scope} :
    isGroup symbol = true → isGroup symbol' = true → lexemes symbol = lexemes symbol' →
      SameOutcome s s' (.error (.unsupportedOperator symbol), scope)
        (.error (.unsupportedOperator symbol'), scope)
  /-- The same parenthesis has no partner, each text being reported as it is trimmed. -/
  | imbalance {c : Char} {k : Nat} {cause cause' : Imbalance} {scope : Scope} :
    Reports c k s.trim cause → Reports c k s'.trim cause' →
      SameOutcome s s' (.error (.imbalance cause), scope) (.error (.imbalance cause'), scope)

namespace SameOutcome

variable {s s' s'' : Text} {result result' result'' : ReadResult × Scope}

theorem of_sameReading (hn : ∀ cause, result.1 ≠ .error (.imbalance cause))
    (h : SameReading result result') : SameOutcome s s' result result' := by
  cases h with
  | same => exact .same hn
  | symbol hg hg' hl => exact .symbol hg hg' hl

theorem symm (h : SameOutcome s s' result result') : SameOutcome s' s result' result := by
  cases h with
  | same hn => exact .same hn
  | symbol hg hg' hl => exact .symbol hg' hg hl.symm
  | imbalance hr hr' => exact .imbalance hr' hr

theorem trans (h : SameOutcome s s' result result') (h' : SameOutcome s' s'' result' result'') :
    SameOutcome s s'' result result'' := by
  cases h with
  | same hn =>
    cases h' with
    | same => exact .same hn
    | symbol hg hg' hl => exact .symbol hg hg' hl
    | imbalance => exact absurd rfl (hn _)
  | symbol hg hg' hl =>
    cases h' with
    | same => exact .symbol hg hg' hl
    | symbol _ hg'' hl' => exact .symbol hg hg'' (hl.trans hl')
  | imbalance hr hm =>
    cases h' with
    | same hn => exact absurd rfl (hn _)
    | imbalance hm' hr' =>
      obtain ⟨rfl, rfl⟩ := hm.unique hm'
      exact .imbalance hr hr'

end SameOutcome

/-- A text has a layout, or reading reports its stray parenthesis. -/
theorem laidOut_or_reports (t : Text) (limit : Nat) (scope : Scope) :
    (∃ items, LaidOut t items) ∨
      ∃ c k cause, stray 0 [] (parentheses t) = some (c, k) ∧ Reports c k t.trim cause ∧
        Expr.read limit t scope = (.error (.imbalance cause), scope) := by
  cases h : ofText? t with
  | ok items => exact Or.inl ⟨items, laidOut_of_ofText? h⟩
  | error cause =>
    obtain ⟨c, k, hs, hr⟩ := reports_of_broken (broken_of_ofText? h)
    rw [parentheses_trim] at hs
    exact Or.inr ⟨c, k, cause, hs, hr, read_of_error h limit scope⟩

theorem read_ne_imbalance {t : Text} {items : List Item} (h : LaidOut t items) (limit : Nat)
    (scope : Scope) (cause : Imbalance) :
    (Expr.read limit t scope).1 ≠ .error (.imbalance cause) := by
  intro he
  obtain ⟨u, hu, htokens⟩ := Expr.readAt_imbalance_iff.mp he
  obtain ⟨parts, hparts⟩ := Expr.laidOut_of_tokenizes hu ⟨items, h⟩
  cases htokens.symm.trans (tokenize_of_laidOut hparts)

theorem sameOutcome_respace {t : Text} {items : List Item} (h : LaidOut t items) (limit : Nat)
    (scope : Scope) :
    SameOutcome t (respace t) (Expr.read limit t scope) (Expr.read limit (respace t) scope) :=
  .of_sameReading (read_ne_imbalance h limit scope) (sameReading_respace h limit scope)

variable {s s' : Text}

theorem sameOutcome_of_lexemes (h : lexemes s = lexemes s') (limit : Nat) (scope : Scope) :
    SameOutcome s s' (Expr.read limit s scope) (Expr.read limit s' scope) := by
  have hp : parentheses s = parentheses s' := by
    rw [← parentheses_flatten_lexemes, h, parentheses_flatten_lexemes]
  -- The parentheses tell whether a text has a layout, so both texts have one or neither has.
  rcases laidOut_or_reports s limit scope with ⟨items, hs⟩ | ⟨c, k, cause, hstray, hr, hread⟩
  · rcases laidOut_or_reports s' limit scope with ⟨items', hs'⟩ | ⟨c, k, -, hstray, -⟩
    · have hsame := sameOutcome_respace hs limit scope
      have hsame' := sameOutcome_respace hs' limit scope
      rw [respace, ← h] at hsame'
      exact hsame.trans hsame'.symm
    · rw [← hp, stray_of_laidOut hs] at hstray
      cases hstray
  · rcases laidOut_or_reports s' limit scope with ⟨items', hs'⟩ | ⟨c', k', _, hstray', hr', hread'⟩
    · rw [hp, stray_of_laidOut hs'] at hstray
      cases hstray
    · rw [hp, hstray'] at hstray
      cases hstray
      rw [hread, hread']
      exact .imbalance hr hr'

theorem read_of_trim (h : s.trim = s'.trim) (limit : Nat) (scope : Scope) :
    Expr.read limit s scope = Expr.read limit s' scope := by
  refine readAt_congr ?_ limit 0 scope
  rw [← tokenize_trim s, h, tokenize_trim]

theorem sameOutcome_of_trim (h : s.trim = s'.trim) (limit : Nat) (scope : Scope) :
    SameOutcome s s' (Expr.read limit s scope) (Expr.read limit s' scope) := by
  rw [← read_of_trim h]
  rcases laidOut_or_reports s limit scope with ⟨items, hs⟩ | ⟨c, k, cause, -, hr, hread⟩
  · exact .same (read_ne_imbalance hs limit scope)
  · rw [hread]
    exact .imbalance hr (h ▸ hr)

/-! ## Changes of layout -/

theorem trim_of_padded (h : Padded s s') : s.trim = s'.trim := by
  obtain ⟨t, hu, hv⟩ := h
  rw [trim, trim, trimStart_append, if_pos (trimStart_eq_nil_iff.mpr hu), trimStart_append]
  by_cases hs : trimStart s = []
  · rw [if_pos hs, hs, trimStart_eq_nil_iff.mpr hv]
  · rw [if_neg hs, trimEnd_append, if_pos (trimEnd_eq_nil_iff.mpr hv)]

/-- A gap that is not empty parts the lexemes. -/
theorem lexemes_append_gap (s t : Text) {u : Text} (hu : IsGap u) (hn : u ≠ []) :
    lexemes (s ++ (u ++ t)) = lexemes s ++ lexemes t := by
  cases u with
  | nil => exact absurd rfl hn
  | cons c u =>
    have hb : Breaks (c :: u ++ t) :=
      breaks_cons (not_isPlain_of_isSeparator (hu c List.mem_cons_self))
    rw [lexemes_append s hb, lexemes_gap hu]

/-- A gap before a parenthesis leaves no trace, whether it is empty or not. -/
theorem lexemes_append_gap_parenthesis {c : Char} (hc : c = '(' ∨ c = ')') (s t : Text) {u : Text}
    (hu : IsGap u) : lexemes (s ++ (u ++ c :: t)) = lexemes s ++ lexemes (c :: t) := by
  by_cases hn : u = []
  · rw [hn, List.nil_append, lexemes_append s (breaks_cons (not_isPlain_of_parens hc))]
  · exact lexemes_append_gap s (c :: t) hu hn

theorem sameOutcome_of_relaid (h : Relaid s s') (limit : Nat) (scope : Scope) :
    SameOutcome s s' (Expr.read limit s scope) (Expr.read limit s' scope) := by
  cases h with
  | gap s t hu hv hun hvn =>
    refine sameOutcome_of_lexemes ?_ limit scope
    rw [lexemes_append_gap s t hu hun, lexemes_append_gap s t hv hvn]
  | before s t hu hv hc =>
    refine sameOutcome_of_lexemes ?_ limit scope
    rw [lexemes_append_gap_parenthesis hc s t hu, lexemes_append_gap_parenthesis hc s t hv]
  | @behind c u v s t hu hv hc =>
    have hb (r : Text) : Breaks (c :: r) := breaks_cons (not_isPlain_of_parens hc)
    refine sameOutcome_of_lexemes ?_ limit scope
    rw [lexemes_append s (hb _), lexemes_append s (hb _), lexemes_parenthesis hc,
      lexemes_parenthesis hc, lexemes_gap hu, lexemes_gap hv]
  | ends h => exact sameOutcome_of_trim (trim_of_padded h) limit scope

/-- Texts that differ in layout only are read alike: they give the same tree, or nothing, or
the same error up to what it reports of its text, and the same scope.  If only their ends
differ, errors are the same throughout. -/
theorem read_of_relaid (limit : Nat) (scope : Scope) (s s' : Text) :
    (Relation.EqvGen Relaid s s' →
        SameOutcome s s' (Expr.read limit s scope) (Expr.read limit s' scope)) ∧
      (Relation.EqvGen Padded s s' → Expr.read limit s scope = Expr.read limit s' scope) := by
  constructor
  · intro h
    induction h with
    | rel s s' h => exact sameOutcome_of_relaid h limit scope
    | refl s => exact sameOutcome_of_trim rfl limit scope
    | symm s s' _ ih => exact ih.symm
    | trans s t s' _ _ ih ih' => exact ih.trans ih'
  · intro h
    induction h with
    | rel s s' h => exact read_of_trim (trim_of_padded h) limit scope
    | refl s => rfl
    | symm s s' _ ih => exact ih.symm
    | trans s t s' _ _ ih ih' => exact ih.trans ih'

theorem read_of_relaid_group_as_symbol :
    Relation.EqvGen Relaid "((a\t b) c)".toList "\u00a0((a b)c)".toList ∧
      SameOutcome "((a\t b) c)".toList "\u00a0((a b)c)".toList
        (Expr.read 512 "((a\t b) c)".toList Scope.new)
        (Expr.read 512 "\u00a0((a b)c)".toList Scope.new) ∧
      Relation.EqvGen Padded "((a b)c)".toList "\u00a0((a b)c)".toList ∧
        Expr.read 512 "((a b)c)".toList Scope.new =
          Expr.read 512 "\u00a0((a b)c)".toList Scope.new := by
  have htab : IsGap "\t ".toList := List.all_eq_true.mp (by decide)
  have hinner : Relaid "((a\t b) c)".toList "((a b) c)".toList :=
    .gap "((a".toList "b) c)".toList htab isGap_space (by decide) (by decide)
  have hbehind : Relaid "((a b) c)".toList "((a b)c)".toList :=
    .behind "((a b".toList "c)".toList isGap_space isGap_nil (Or.inr rfl)
  have hends : Padded "((a b)c)".toList "\u00a0((a b)c)".toList :=
    .around (u := "\u00a0".toList) "((a b)c)".toList (List.all_eq_true.mp (by decide))
      (fun c hc => nomatch hc)
  have hrelaid : Relation.EqvGen Relaid "((a\t b) c)".toList "\u00a0((a b)c)".toList :=
    .trans _ _ _ (.rel _ _ hinner) (.trans _ _ _ (.rel _ _ hbehind) (.rel _ _ (.ends hends)))
  have hpadded : Relation.EqvGen Padded "((a b)c)".toList "\u00a0((a b)c)".toList :=
    .rel _ _ hends
  exact ⟨hrelaid, (read_of_relaid 512 Scope.new _ _).1 hrelaid, hpadded,
    (read_of_relaid 512 Scope.new _ _).2 hpadded⟩

end ScoreFormula
