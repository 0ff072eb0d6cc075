import Mathlib.Data.List.Forall2
import ScoreFormula.Proofs.Forest.Raise
import ScoreFormula.Proofs.Literal
import ScoreFormula.Proofs.Segmentation

/-!
# Redundant parentheses

A pair of parentheses around a whole formula, or around one operand anywhere in it, changes
nothing but the depth, for which a limit that is larger by one makes up (`read_of_redundant`).
The exception is an operand that is the symbol of an operator without operands: a variable by
itself, it is that operator in parentheses.

The place of an operand is told by the text in front of it, level by level (`Wrapped`).  In
the new text the other tokens are cut as before, so what is to be compared is the readings of
one token: it is read one level further in, or it is a group and the argument goes on inside.
-/

namespace ScoreFormula

open Token Text Forest

/-- The tokens one after another, each with a gap behind it. -/
inductive Spaced : List Text → Text → Prop
  | nil : Spaced [] []
  | cons {token gap t : Text} {rest : List Text} :
    IsGap gap → Spaced rest t → Spaced (token :: rest) (token ++ (gap ++ t))

/-- `token` is the token of `front ++ (token ++ back)` that stands between `earlier` and
`later`. -/
structure TokenAt (front token back : Text) (earlier later : List Text) : Prop where
  tokens : tokenize (front ++ (token ++ back)) = .ok (earlier ++ token :: later)
  front : Spaced earlier front.trimStart

/-- The second text has one more pair of parentheses, around an operand of the first that is
not the symbol of an operator without operands. -/
inductive Wrapped : Text → Text → Prop
  | operand {front token back symbol : Text} {earlier later : List Text} :
    TokenAt front token back (symbol :: earlier) later →
      Operator.nullary? token.trim = none →
        Wrapped (front ++ (token ++ back)) (front ++ (parens token ++ back))
  /-- The operand is inside a group. -/
  | inside {front s s' back : Text} {earlier later : List Text} :
    TokenAt front (parens s) back earlier later → Wrapped s s' →
      Wrapped (front ++ (parens s ++ back)) (front ++ (parens s' ++ back))

/-! ## The place of a token -/

theorem Piece.head_not_separator {p : Text} (h : Piece p) (t : Text) :
    ∀ c ∈ (p ++ t).head?, isSeparator c = false := by
  intro c hc
  cases h with
  | word hw =>
    obtain ⟨d, w, rfl⟩ := List.exists_cons_of_ne_nil hw.1
    cases hc
    exact (isPlain_cases (hw.2 c List.mem_cons_self)).1
  | group =>
    cases hc
    decide

/-- A group is a token by itself. -/
theorem Piece.tokenize {p : Text} (h : Piece p) (hg : isGroup p = true) :
    tokenize p = .ok [p] := by
  cases h with
  | word hw =>
    rw [isGroup_plain hw.2] at hg
    exact nomatch hg
  | group hs => exact tokenize_parens_of_balanced hs

/-- A cut behind its first piece. -/
theorem Segmented.tail_cases {p t : Text} {pieces : List Text}
    (h : Segmented (p ++ t) (p :: pieces)) :
    (pieces = [] ∧ t = []) ∨
      ∃ q rest gap u, pieces = q :: rest ∧ t = gap ++ u ∧ IsGap gap ∧
        (Word p → Word q → gap ≠ []) ∧ Segmented u (q :: rest) := by
  generalize hx : p ++ t = x at h
  cases h with
  | single => exact Or.inl ⟨rfl, List.append_right_eq_self.mp hx⟩
  | cons _ hg hw hu => exact Or.inr ⟨_, _, _, _, rfl, List.append_cancel_left hx, hg, hw, hu⟩

theorem Spaced.nil_of_text_nil {earlier : List Text} (h : Spaced earlier [])
    (hn : ∀ token ∈ earlier, token ≠ []) : earlier = [] := by
  generalize hx : ([] : Text) = x at h
  cases h with
  | nil => rfl
  | cons =>
    have hnil := (List.append_eq_nil_iff.mp hx.symm).1
    exact absurd hnil (hn _ List.mem_cons_self)

theorem Spaced.exists_append {earlier : List Text} {t : Text} (h : Spaced earlier t)
    (token back : Text) (later : List Text) :
    ∃ first rest u, earlier ++ token :: later = first :: rest ∧
      t ++ (token ++ back) = first ++ u := by
  cases h with
  | nil => exact ⟨token, later, back, rfl, rfl⟩
  | cons => exact ⟨_, _, _, rfl, List.append_assoc _ _ _⟩

/-- Trimming the end of a text leaves its first token as it is. -/
theorem Segmented.eq_append_trimEnd {p t : Text} {pieces : List Text}
    (h : Segmented (trimEnd (p ++ t)) (p :: pieces)) : trimEnd (p ++ t) = p ++ trimEnd t := by
  rw [trimEnd_append]
  by_cases ht : trimEnd t = []
  · obtain ⟨u, hu⟩ := h.exists_append
    rw [trimEnd_append, if_pos ht] at hu
    have hle := (isPrefix_trimEnd p).length_le
    rw [hu, List.length_append] at hle
    obtain rfl : u = [] := List.eq_nil_of_length_eq_zero (by omega)
    rw [if_pos ht, ht, hu]
  · rw [if_neg ht]

/-- A group in the place of a token is cut from the rest of the text where the token was. -/
theorem segmented_replace {earlier later : List Text} {t token back s : Text}
    (h : Spaced earlier t) (hs : Balanced s)
    (ht : Segmented (trimEnd (t ++ (token ++ back))) (earlier ++ token :: later)) :
    Segmented (t ++ (parens s ++ trimEnd back)) (earlier ++ parens s :: later) := by
  induction h with
  | nil =>
    rw [List.nil_append, List.nil_append] at ht ⊢
    rw [ht.eq_append_trimEnd] at ht
    rcases ht.tail_cases with ⟨rfl, hb⟩ | ⟨q, rest, gap, u, rfl, hb, hg, -, hu⟩
    · rw [hb, List.append_nil]
      exact .single (.group hs)
    · rw [hb]
      exact .cons (.group hs) hg (fun hw => absurd hw (not_word_parens s)) hu
  | @cons a gap t rest hg h ih =>
    obtain ⟨first, more, x, hpieces, htext⟩ := h.exists_append token back later
    rw [List.append_assoc, List.append_assoc, List.cons_append] at ht ⊢
    have hpiece := ht.piece a List.mem_cons_self
    rw [ht.eq_append_trimEnd] at ht
    rcases ht.tail_cases with ⟨hn, -⟩ | ⟨q, rest', gap', u, hq, hb, hg', hw, hu⟩
    · exact absurd hn (by simp)
    have hfirst : Piece first := ht.piece first (by rw [hpieces]; simp)
    have hu' : ∀ c ∈ u.head?, isSeparator c = false := by
      obtain ⟨v, rfl⟩ := hu.exists_append
      exact (hu.piece q List.mem_cons_self).head_not_separator v
    -- Something is left behind the gap, so the gap is not trimmed.
    rw [trimEnd_append] at hb
    by_cases hx : trimEnd (t ++ (token ++ back)) = []
    · have hgap : trimEnd gap = [] :=
        trimEnd_eq_nil_iff.mpr fun c hc => isBlank_of_isSeparator (hg c hc)
      rw [if_pos hx, hgap] at hb
      have hnil := hu.nil_iff.mp (List.append_eq_nil_iff.mp hb.symm).2
      exact nomatch hnil
    · rw [if_neg hx] at hb
      have hhead : ∀ c ∈ (trimEnd (t ++ (token ++ back))).head?, isSeparator c = false := by
        rw [head?_trimEnd hx, htext]
        exact hfirst.head_not_separator x
      obtain ⟨rfl, rfl⟩ := eq_of_run hg hg' hhead hu' hb
      rw [← hq] at hu
      have hrest := ih hu
      cases h with
      | nil => exact .cons hpiece hg (fun _ hp => absurd hp (not_word_parens s)) hrest
      | cons =>
        obtain ⟨rfl, -⟩ := List.cons.inj hq
        exact .cons hpiece hg hw hrest

/-- The text is trimmed in front of the first token only. -/
theorem TokenAt.trim_eq {front token back : Text} {earlier later : List Text}
    (h : TokenAt front token back earlier later) :
    (front ++ (token ++ back)).trim = trimEnd (front.trimStart ++ (token ++ back)) := by
  have hs := segmented_of_tokenize h.tokens
  have hf := (hs.trim_eq_self_iff.mp (trim_trim _)).first
  rw [Text.trim, trimStart_append]
  by_cases hn : front.trimStart = []
  · have he := h.front
    rw [hn] at he
    obtain rfl := he.nil_of_text_nil fun t ht => (hs.piece t (List.mem_append_left _ ht)).ne_nil
    have hne : token ≠ [] := (hs.piece token List.mem_cons_self).ne_nil
    obtain ⟨c, w, rfl⟩ := List.exists_cons_of_ne_nil hne
    have hc : isBlank c = false := hf _ rfl c rfl
    rw [if_pos hn, hn, List.nil_append, List.cons_append, trimStart_cons_of_not_blank hc]
  · rw [if_neg hn]

theorem TokenAt.piece {front token back : Text} {earlier later : List Text}
    (h : TokenAt front token back earlier later) : Piece token :=
  (segmented_of_tokenize h.tokens).piece token (List.mem_append_right _ List.mem_cons_self)

theorem TokenAt.balanced {front token back : Text} {earlier later : List Text}
    (h : TokenAt front token back earlier later) : Balanced token := by
  cases h.piece with
  | word hw => exact .word hw
  | group hs => exact hs.parens

/-- A group in the place of a token is a token between the same others. -/
theorem TokenAt.replace {front token back s : Text} {earlier later : List Text}
    (h : TokenAt front token back earlier later) (hs : Balanced s) :
    tokenize (front ++ (parens s ++ back)) = .ok (earlier ++ parens s :: later) := by
  have ht := segmented_of_tokenize h.tokens
  rw [h.trim_eq] at ht
  have hr := segmented_replace h.front hs ht
  have htrim : (front ++ (parens s ++ back)).trim =
      front.trimStart ++ (parens s ++ trimEnd back) := by
    show (front ++ '(' :: (s ++ [')'] ++ back)).trim = _
    rw [trim_append_cons (by decide), ← trimEnd_cons_of_not_blank (by decide)]
    exact congrArg (front.trimStart ++ ·) (trimEnd_parens_append s back)
  rw [← htrim] at hr
  exact tokenize_of_segmented hr

theorem Segmented.exists_spaced {earlier later : List Text} {t token : Text}
    (h : Segmented t (earlier ++ token :: later)) :
    ∃ front back, t = front ++ (token ++ back) ∧ Spaced earlier front := by
  induction earlier generalizing t with
  | nil =>
    obtain ⟨back, rfl⟩ := h.exists_append
    exact ⟨[], back, rfl, .nil⟩
  | cons a earlier ih =>
    obtain ⟨v, rfl⟩ := h.exists_append
    rcases h.tail_cases with ⟨hn, -⟩ | ⟨q, rest, gap, u, hq, rfl, hg, -, hu⟩
    · exact absurd hn (by simp)
    · rw [← hq] at hu
      obtain ⟨front, back, rfl, hf⟩ := ih hu
      exact ⟨a ++ (gap ++ front), back, by simp, .cons hg hf⟩

/-- Every token has its place. -/
theorem exists_tokenAt {t token : Text} {earlier later : List Text}
    (h : tokenize t = .ok (earlier ++ token :: later)) :
    ∃ front back, t = front ++ (token ++ back) ∧ TokenAt front token back earlier later := by
  obtain ⟨front, back, htrim, hf⟩ := (segmented_of_tokenize h).exists_spaced
  obtain ⟨u, v, hu, -, ht⟩ := t.exists_around_trim
  have he : t = (u ++ front) ++ (token ++ (back ++ v)) := by
    rw [ht, htrim]
    simp
  have hstart : (u ++ front).trimStart = front := by
    rw [trimStart_append, if_pos (trimStart_eq_nil_iff.mpr hu), trimStart_eq_self_iff]
    intro c hc
    have hself := trimStart_eq_self_iff.mp (trimStart_trim t) c
    rw [htrim, List.head?_append, Option.mem_def.mp hc] at hself
    exact hself rfl
  refine ⟨u ++ front, back ++ v, he, ?_, ?_⟩
  · rw [← he]
    exact h
  · rw [hstart]
    exact hf

/-! ## Readings that are kept -/

/-- Where the first reads a tree, the second reads the same tree and leaves the same scope. -/
def Keeps (read read' : Scope → ReadResult × Scope) : Prop :=
  ∀ scope e after, read scope = (.ok (some e), after) → read' scope = (.ok (some e), after)

variable {reads reads' : List (Scope → ReadResult × Scope)}

theorem readOperands_of_keeps (h : List.Forall₂ Keeps reads reads') {operator : Operator}
    {index : Nat} {scope after : Scope} {es : List Expr}
    (hr : Expr.readOperands operator index reads scope = (.ok es, after)) :
    Expr.readOperands operator index reads' scope = (.ok es, after) := by
  induction h generalizing index scope es with
  | nil => exact hr
  | cons hk _ ih =>
    obtain ⟨e, others, middle, hfirst, hrest, rfl⟩ := Expr.readOperands_cons_eq_ok.mp hr
    exact Expr.readOperands_cons_eq_ok.mpr ⟨e, others, middle, hk _ _ _ hfirst, ih hrest, rfl⟩

theorem readOperation_of_keeps (h : List.Forall₂ Keeps reads reads') (symbol : Text) :
    Keeps (Expr.readOperation symbol reads) (Expr.readOperation symbol reads') := by
  intro scope e after hr
  rw [Expr.readOperation] at hr ⊢
  rw [← h.length_eq]
  cases hs : Operator.select? symbol reads.length with
  | none =>
    rw [hs] at hr
    cases hr
  | some operator =>
    simp only [hs] at hr ⊢
    by_cases ha : reads.length ≠ operator.arity
    · rw [if_pos ha] at hr
      cases hr
    · rw [if_neg ha] at hr ⊢
      rcases ho : Expr.readOperands operator 0 reads scope with ⟨cause | es, last⟩
      · rw [ho] at hr
        cases hr
      · rw [ho] at hr
        rw [readOperands_of_keeps h ho]
        exact hr

/-- Several tokens are an operation. -/
theorem readAt_of_operands {t symbol : Text} {operands : List Text} (hn : operands ≠ [])
    (h : tokenize t = .ok (symbol :: operands)) (limit depth : Nat) (scope : Scope) :
    Expr.readAt limit depth t scope =
      Expr.readOperation symbol (operands.map (Expr.readAt limit depth)) scope := by
  obtain ⟨first, rest, rfl⟩ := List.exists_cons_of_ne_nil hn
  rw [Expr.readAt_eq, h]

theorem keeps_raised_limit (limit depth : Nat) (t : Text) :
    Keeps (Expr.readAt limit depth t) (Expr.readAt (limit + 1) depth t) := fun _ _ _ hr =>
  Expr.readAt_of_ok (Nat.le_succ limit) hr

/-- The parentheses of a group with another content. -/
theorem keeps_parens {limit depth : Nat} {s s' : Text} (hs : Balanced s) (hs' : Balanced s')
    (hn : Operator.nullary? s.trim = none) (hn' : Operator.nullary? s'.trim = none)
    (h : depth + 1 ≤ limit →
      Keeps (Expr.readAt limit (depth + 1) s) (Expr.readAt (limit + 1) (depth + 1) s')) :
    Keeps (Expr.readAt limit depth (parens s)) (Expr.readAt (limit + 1) depth (parens s')) := by
  obtain ⟨content, hc⟩ := laidOut_iff_balanced.mpr hs
  obtain ⟨content', hc'⟩ := laidOut_iff_balanced.mpr hs'
  intro scope e after hr
  rw [readAt_parens hc, hn] at hr
  rw [readAt_parens hc', hn']
  by_cases hd : limit < depth + 1
  · rw [if_pos hd] at hr
    cases hr
  · rw [if_neg hd] at hr
    rw [if_neg (by omega)]
    exact h (Nat.le_of_not_lt hd) scope e after hr

/-- A new pair of parentheses. -/
theorem keeps_wrapped {limit depth : Nat} {token : Text} (hd : depth ≤ limit)
    (hb : Balanced token) (hn : Operator.nullary? token.trim = none) :
    Keeps (Expr.readAt limit depth token) (Expr.readAt (limit + 1) depth (parens token)) := by
  obtain ⟨content, hc⟩ := laidOut_iff_balanced.mpr hb
  intro scope e after hr
  rw [readAt_parens hc, hn, if_neg (by omega)]
  rw [Expr.readAt_raised, hr]
  rfl

/-- A text is read as before if one of its tokens is, but for the symbol of an operation. -/
theorem TokenAt.keeps {front token back s : Text} {earlier later : List Text}
    (h : TokenAt front token back earlier later) (hs : Balanced s)
    (hg : earlier = [] → isGroup token = true) {limit depth : Nat}
    (hk : Keeps (Expr.readAt limit depth token) (Expr.readAt (limit + 1) depth (parens s))) :
    Keeps (Expr.readAt limit depth (front ++ (token ++ back)))
      (Expr.readAt (limit + 1) depth (front ++ (parens s ++ back))) := by
  have ht := h.tokens
  have ht' := h.replace hs
  intro scope e after hr
  cases earlier with
  | nil =>
    have hgroup := hg rfl
    cases later with
    | nil =>
      rw [readAt_congr (ht.trans (h.piece.tokenize hgroup).symm)] at hr
      rw [readAt_congr (ht'.trans ((Piece.group hs).tokenize (isGroup_parens s)).symm)]
      exact hk scope e after hr
    | cons first rest =>
      rw [readAt_of_operands (List.cons_ne_nil _ _) ht, Expr.readOperation,
        select?_of_isGroup hgroup] at hr
      cases hr
  | cons symbol earlier =>
    have hn : ∀ t : Text, earlier ++ t :: later ≠ [] := fun t => by simp
    rw [readAt_of_operands (hn token) ht] at hr
    rw [readAt_of_operands (hn (parens s)) ht']
    refine readOperation_of_keeps ?_ symbol scope e after hr
    rw [List.forall₂_map_left_iff, List.forall₂_map_right_iff]
    have hsame : ∀ texts : List Text, List.Forall₂
        (fun t t' => Keeps (Expr.readAt limit depth t) (Expr.readAt (limit + 1) depth t'))
        texts texts := fun texts =>
      List.forall₂_same.mpr fun t _ => keeps_raised_limit limit depth t
    exact List.rel_append (hsame earlier) (.cons hk (hsame later))

/-! ## Wrapped operands -/

/-- Neither a group nor one of several tokens is the symbol of an operator. -/
theorem nullary?_of_tokenize {t : Text} {tokens : List Text} (h : tokenize t = .ok tokens)
    (hn : ∀ w, Word w → tokens ≠ [w]) : Operator.nullary? t.trim = none := by
  cases ho : Operator.nullary? t.trim with
  | none => rfl
  | some operator =>
    obtain ⟨hw, ht⟩ := tokenize_of_nullary? ho
    exact absurd (Except.ok.inj (h.symm.trans ht)) (hn t.trim hw)

theorem group_tokens_ne {s w : Text} (hw : Word w) (earlier later : List Text) :
    earlier ++ parens s :: later ≠ [w] := by
  intro he
  have hm : parens s ∈ [w] := he ▸ List.mem_append_right earlier List.mem_cons_self
  exact not_word_parens s (List.mem_singleton.mp hm ▸ hw)

namespace Wrapped

variable {t t' : Text}

/-- Both texts have tokens, and neither is the symbol of an operator. -/
theorem sound (h : Wrapped t t') :
    (Balanced t ∧ Operator.nullary? t.trim = none) ∧
      Balanced t' ∧ Operator.nullary? t'.trim = none := by
  induction h with
  | @operand front token back symbol earlier later ht hn =>
    have ht' := ht.replace ht.balanced
    refine ⟨⟨exists_tokens_iff_balanced.mp ⟨_, ht.tokens⟩, ?_⟩,
      exists_tokens_iff_balanced.mp ⟨_, ht'⟩, ?_⟩
    · refine nullary?_of_tokenize ht.tokens fun w _ he => ?_
      simp at he
    · exact nullary?_of_tokenize ht' fun w hw => group_tokens_ne hw _ _
  | inside ht _ ih =>
    have ht' := ht.replace ih.2.1
    refine ⟨⟨exists_tokens_iff_balanced.mp ⟨_, ht.tokens⟩, ?_⟩,
      exists_tokens_iff_balanced.mp ⟨_, ht'⟩, ?_⟩
    · exact nullary?_of_tokenize ht.tokens fun w hw => group_tokens_ne hw _ _
    · exact nullary?_of_tokenize ht' fun w hw => group_tokens_ne hw _ _

theorem keeps (h : Wrapped t t') {limit depth : Nat} (hd : depth ≤ limit) :
    Keeps (Expr.readAt limit depth t) (Expr.readAt (limit + 1) depth t') := by
  induction h generalizing depth with
  | operand ht hn =>
    exact ht.keeps ht.balanced (fun he => nomatch he) (keeps_wrapped hd ht.balanced hn)
  | inside ht hw ih =>
    obtain ⟨⟨hs, hn⟩, hs', hn'⟩ := hw.sound
    exact ht.keeps hs' (fun _ => isGroup_parens _) (keeps_parens hs hs' hn hn' ih)

end Wrapped

/-- Every operand can be wrapped, and whatever can be wrapped in a group can be wrapped in a
text that has the group for a token. -/
theorem exists_wrapped {t : Text} :
    (∀ symbol token earlier later,
        tokenize t = .ok (symbol :: (earlier ++ token :: later)) →
          Operator.nullary? token.trim = none →
            ∃ t', Wrapped t t' ∧ tokenize t' = .ok (symbol :: (earlier ++ parens token :: later))) ∧
      ∀ s s' earlier later,
        tokenize t = .ok (earlier ++ parens s :: later) → Wrapped s s' →
          ∃ t', Wrapped t t' ∧ tokenize t' = .ok (earlier ++ parens s' :: later) := by
  constructor
  · intro symbol token earlier later h hn
    have hcut : tokenize t = .ok ((symbol :: earlier) ++ token :: later) := h
    obtain ⟨front, back, rfl, hat⟩ := exists_tokenAt hcut
    exact ⟨_, .operand hat hn, hat.replace hat.balanced⟩
  · intro s s' earlier later h hw
    obtain ⟨front, back, rfl, hat⟩ := exists_tokenAt h
    exact ⟨_, .inside hat hw, hat.replace hw.sound.2.1⟩

/-- Redundant parentheses change nothing under a limit that is larger by one.  Around a whole
text that has tokens they leave its result and its scope as they are, but for the limit that
an error names; around an operand, at any depth, they leave the tree and the scope of a text
that is read to a tree.  What must not be wrapped is the symbol of an operator without
operands. -/
theorem read_of_redundant (limit : Nat) (scope : Scope) :
    (∀ s tokens, tokenize s = .ok tokens → Operator.nullary? s.trim = none →
        Expr.read (limit + 1) (parens s) scope = raised (Expr.read limit s scope)) ∧
      ∀ t t' e after, Wrapped t t' → Expr.read limit t scope = (.ok (some e), after) →
        Expr.read (limit + 1) t' scope = (.ok (some e), after) := by
  constructor
  · intro s tokens ht hn
    obtain ⟨content, hc⟩ := laidOut_iff_balanced.mpr (exists_tokens_iff_balanced.mp ⟨_, ht⟩)
    rw [Expr.read, readAt_parens hc, hn, if_neg (by omega)]
    exact Expr.readAt_raised limit 0 s scope
  · intro t t' e after hw hr
    exact hw.keeps (Nat.zero_le limit) scope e after hr

/-- The operand in the group is read in a group of its own, and an error names the limit that
it was found under. -/
theorem read_of_redundant_inner_operand :
    ∃ s t t' e after, s = "abs (abs (abs x))".toList ∧ t = "abs (abs b\u00a0)".toList ∧
      t' = "abs (abs (b)\u00a0)".toList ∧
      Expr.read 1 s Scope.new = (.error (.tooDeep 1), Scope.new) ∧
      Expr.read 2 (parens s) Scope.new = (.error (.tooDeep 2), Scope.new) ∧
      Wrapped t t' ∧ Expr.read 1 t Scope.new = (.ok (some e), after) ∧
      Expr.read 2 t' Scope.new = (.ok (some e), after) := by
  have hs : ofText? "abs (abs (abs x))".toList = .ok [.atom "abs".toList,
      .group "(abs (abs x))".toList [.atom "abs".toList,
        .group "(abs x)".toList [.atom "abs".toList, .atom "x".toList]]] := rfl
  have ht : ofText? "abs (abs b\u00a0)".toList = .ok [.atom "abs".toList,
      .group "(abs b\u00a0)".toList [.atom "abs".toList, .atom "b\u00a0".toList]] := rfl
  have hinner : TokenAt "abs ".toList "b".toList "\u00a0".toList ["abs".toList] [] :=
    ⟨rfl, .cons isGap_space .nil⟩
  have houter : TokenAt "abs ".toList (parens "abs b\u00a0".toList) [] ["abs".toList] [] :=
    ⟨rfl, .cons isGap_space .nil⟩
  have hw : Wrapped "abs (abs b\u00a0)".toList "abs (abs (b)\u00a0)".toList :=
    .inside houter (.operand hinner (by decide))
  have hread : Expr.read 1 "abs (abs b\u00a0)".toList Scope.new =
      (.ok (some (.operation .abs [.operation .abs [.var ⟨"b".toList, 0⟩]])),
        (Scope.new.intern "b".toList).2) := by
    rw [read_of_ok ht]
    rfl
  have hdeep : Expr.read 1 "abs (abs (abs x))".toList Scope.new =
      (.error (.tooDeep 1), Scope.new) := by
    rw [read_of_ok hs]
    rfl
  obtain ⟨hwhole, hone⟩ := read_of_redundant 1 Scope.new
  have htokens : tokenize "abs (abs (abs x))".toList =
      .ok ["abs".toList, "(abs (abs x))".toList] := rfl
  refine ⟨_, _, _, _, _, rfl, rfl, rfl, hdeep, ?_, hw, hread, hone _ _ _ _ hw hread⟩
  rw [hwhole _ _ htokens (by decide), hdeep]
  rfl

end ScoreFormula
