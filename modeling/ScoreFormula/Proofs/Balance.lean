import ScoreFormula.Proofs.Forest.Read

/-!
# Imbalances are found first

Reading tokenizes a text and then, as texts of their own, the content of its group or its
operands, up to where it stops.  `Tokenizes` lists these texts, and a reading reports an
imbalance exactly if one of them has it (`readAt_imbalance_iff`).

The tokens of a text are items of its layout, so each of the later texts has a layout
again.  Hence only the whole text can be unbalanced: `read_imbalance_iff` says that reading
and tokenizing it report the same, and that no later text fails.
-/

namespace ScoreFormula

open Token Forest

namespace Expr

/-- While `t` is read inside `depth` groups, the text given last is tokenized. -/
inductive Tokenizes (limit : Nat) : Nat → Text → Scope → Text → Prop
  | self (depth : Nat) (t : Text) (scope : Scope) : Tokenizes limit depth t scope t
  /-- The content of a group that is neither too deep nor an operator by itself. -/
  | content {depth : Nat} {t token u : Text} {scope : Scope} :
    tokenize t = .ok [token] → isGroup token = true → depth + 1 ≤ limit →
      Operator.nullary? (strip token).trim = none →
        Tokenizes limit (depth + 1) (strip token) scope u → Tokenizes limit depth t scope u
  /-- An operand before which every operand has been read. -/
  | operand {depth : Nat} {t symbol operand u : Text} {earlier later : List Text}
    {operator : Operator} {es : List Expr} {scope before : Scope} :
    tokenize t = .ok (symbol :: (earlier ++ operand :: later)) →
      Operator.select? symbol (earlier ++ operand :: later).length = some operator →
        (earlier ++ operand :: later).length = operator.arity →
          readOperands operator 0 (earlier.map (readAt limit depth)) scope =
              (.ok es, before) →
            Tokenizes limit depth operand before u → Tokenizes limit depth t scope u

/-! ## Where an operation stops -/

variable {operator : Operator} {read : Text → Scope → ReadResult × Scope}

/-- Operands stop at one before which every operand has been read. -/
theorem stopped_of_readOperands {index : Nat} {operands : List Text} {scope after : Scope}
    {e : ReadError}
    (h : readOperands operator index (operands.map read) scope = (.error e, after)) :
    ∃ earlier operand later es before,
      operands = earlier ++ operand :: later ∧
        readOperands operator index (earlier.map read) scope = (.ok es, before) ∧
          (read operand before = (.error e, after) ∨
            ∃ place, e = .emptyOperand operator place) := by
  induction operands generalizing index scope with
  | nil => cases h
  | cons operand rest ih =>
    rcases readOperands_cons_eq_error.mp h with hr | ⟨-, he⟩ | ⟨found, middle, hr, hrest⟩
    · exact ⟨[], operand, rest, [], scope, rfl, rfl, Or.inl hr⟩
    · exact ⟨[], operand, rest, [], scope, rfl, rfl, Or.inr ⟨index, he⟩⟩
    · obtain ⟨earlier, stopping, later, es, before, rfl, hes, hstop⟩ := ih hrest
      refine ⟨operand :: earlier, stopping, later, found :: es, before, rfl, ?_, hstop⟩
      exact readOperands_cons_eq_ok.mpr ⟨found, es, middle, hr, hes, rfl⟩

theorem readOperands_of_stopped {index : Nat} {earlier : List Text} {operand : Text}
    {es : List Expr} {scope before after : Scope} {e : ReadError}
    (hes : readOperands operator index (earlier.map read) scope = (.ok es, before))
    (h : read operand before = (.error e, after)) (later : List Text) :
    readOperands operator index ((earlier ++ operand :: later).map read) scope =
      (.error e, after) := by
  induction earlier generalizing index scope es with
  | nil =>
    cases hes
    exact readOperands_cons_eq_error.mpr (Or.inl h)
  | cons first rest ih =>
    obtain ⟨found, others, middle, hr, hrest, -⟩ := readOperands_cons_eq_ok.mp hes
    exact readOperands_cons_eq_error.mpr (Or.inr (Or.inr ⟨found, middle, hr, ih hrest⟩))

/-- An operation has no imbalance but those of its operands. -/
theorem readOperands_of_readOperation {symbol : Text}
    {operands : List (Scope → ReadResult × Scope)} {scope after : Scope} {cause : Imbalance}
    (h : readOperation symbol operands scope = (.error (.imbalance cause), after)) :
    ∃ operator, Operator.select? symbol operands.length = some operator ∧
      operands.length = operator.arity ∧
        readOperands operator 0 operands scope = (.error (.imbalance cause), after) := by
  rw [readOperation] at h
  cases hs : Operator.select? symbol operands.length with
  | none =>
    rw [hs] at h
    cases h
  | some operator =>
    simp only [hs] at h
    by_cases ha : operands.length = operator.arity
    · rw [if_neg (Classical.not_not.mpr ha)] at h
      rcases hr : readOperands operator 0 operands scope with ⟨e | es, last⟩
      · rw [hr] at h
        cases h
        exact ⟨operator, rfl, ha, hr⟩
      · simp only [hr, apply] at h
        split at h <;> cases h
    · rw [if_pos ha] at h
      cases h

/-! ## Reading reports the imbalances of the texts it tokenizes -/

theorem tokenizes_of_readAt {limit depth : Nat} {t : Text} {scope after : Scope}
    {cause : Imbalance} (h : readAt limit depth t scope = (.error (.imbalance cause), after)) :
    ∃ u, Tokenizes limit depth t scope u ∧ tokenize u = .error cause := by
  rw [readAt_eq] at h
  rcases ht : tokenize t with e | _ | ⟨token, _ | ⟨first, rest⟩⟩
  · rw [ht] at h
    cases h
    exact ⟨t, .self depth t scope, ht⟩
  · rw [ht] at h
    cases h
  · simp only [ht] at h
    by_cases hg : isGroup token = true
    · rw [if_pos hg] at h
      by_cases hd : limit < depth + 1
      · rw [if_pos hd] at h
        cases h
      · rw [if_neg hd] at h
        cases hn : Operator.nullary? (strip token).trim with
        | some operator =>
          rw [hn] at h
          simp only [apply_nullary hn] at h
          cases h
        | none =>
          rw [hn] at h
          obtain ⟨u, hu, he⟩ := tokenizes_of_readAt h
          exact ⟨u, .content ht hg (Nat.le_of_not_lt hd) hn hu, he⟩
    · rw [if_neg hg] at h
      cases h
  · simp only [ht] at h
    obtain ⟨operator, hs, ha, hr⟩ := readOperands_of_readOperation h
    rw [List.length_map] at hs ha
    -- The operand that stops the operation is the one that has the imbalance: what holds
    -- nothing is another error.
    obtain ⟨earlier, operand, later, es, before, hsplit, hes, hstop⟩ :=
      stopped_of_readOperands hr
    have hm : operand ∈ first :: rest := by simp [hsplit]
    rcases hstop with hstop | ⟨place, hplace⟩
    · obtain ⟨u, hu, he⟩ := tokenizes_of_readAt hstop
      rw [hsplit] at ht hs ha
      exact ⟨u, .operand ht hs ha hes hu, he⟩
    · cases hplace
termination_by t.length
decreasing_by
  · exact length_strip_lt_of_tokenize ht hg
  · exact length_lt_of_mem_tail ht hm

theorem readAt_of_tokenizes {limit depth : Nat} {t u : Text} {scope : Scope} {cause : Imbalance}
    (h : Tokenizes limit depth t scope u) (hu : tokenize u = .error cause) :
    ∃ after, readAt limit depth t scope = (.error (.imbalance cause), after) := by
  induction h with
  | self depth t scope =>
    refine ⟨scope, ?_⟩
    rw [readAt_eq, hu]
  | @content depth t token u scope ht hg hd hn _ ih =>
    obtain ⟨after, hafter⟩ := ih hu
    refine ⟨after, ?_⟩
    rw [readAt_eq, ht]
    simp only [if_pos hg, if_neg (Nat.not_lt.mpr hd), hn]
    exact hafter
  | @operand depth t symbol operand u earlier later operator es scope before ht hs ha hes _ ih =>
    obtain ⟨after, hafter⟩ := ih hu
    refine ⟨after, ?_⟩
    have hr := readOperands_of_stopped hes hafter later
    obtain ⟨first, rest, hsplit⟩ : ∃ first rest, earlier ++ operand :: later = first :: rest :=
      List.exists_cons_of_ne_nil (by simp)
    rw [hsplit] at ht hs ha hr
    rw [readAt_eq, ht]
    simp only [readOperation, List.length_map, hs, if_neg (Classical.not_not.mpr ha), hr]

/-- A reading reports exactly the imbalances of the texts that it tokenizes. -/
theorem readAt_imbalance_iff {limit depth : Nat} {t : Text} {scope : Scope}
    {cause : Imbalance} :
    (readAt limit depth t scope).1 = .error (.imbalance cause) ↔
      ∃ u, Tokenizes limit depth t scope u ∧ tokenize u = .error cause := by
  constructor
  · intro h
    exact tokenizes_of_readAt (Prod.ext h rfl)
  · rintro ⟨u, hu, he⟩
    obtain ⟨after, hafter⟩ := readAt_of_tokenizes hu he
    rw [hafter]

/-! ## Tokens are balanced -/

/-- A token is laid out as the item that it is. -/
theorem laidOut_of_token {t token : Text} {tokens : List Text} (h : tokenize t = .ok tokens)
    (hm : token ∈ tokens) : ∃ item : Item, item.raw = token ∧ LaidOut token [item] := by
  rw [tokenize_eq] at h
  obtain ⟨items, hitems, rfl⟩ := map_eq_ok h
  have hl := (laidOut_of_ofText? hitems).trim
  obtain ⟨item, hitem, rfl⟩ := List.mem_map.mp hm
  refine ⟨item, rfl, ?_⟩
  cases item with
  | atom w => exact .of_word (hl.word_of_mem hitem)
  | group raw content =>
    obtain ⟨s, rfl, hs⟩ := hl.content_of_mem hitem
    exact .of_parens hs

/-- The parentheses around a group match each other, so its content is balanced too. -/
theorem laidOut_strip_of_token {t token : Text} {tokens : List Text}
    (h : tokenize t = .ok tokens) (hm : token ∈ tokens) (hg : isGroup token = true) :
    ∃ items, LaidOut (strip token) items := by
  obtain ⟨item, rfl, hl⟩ := laidOut_of_token h hm
  cases item with
  | atom w =>
    have hw := hl.word_of_mem List.mem_cons_self
    exact absurd hg (by simp [Item.raw, isGroup_plain hw.2])
  | group raw content =>
    obtain ⟨s, rfl, hs⟩ := hl.content_of_mem List.mem_cons_self
    refine ⟨content, ?_⟩
    rw [Item.raw, strip_parens]
    exact hs

theorem laidOut_of_tokenizes {limit depth : Nat} {t u : Text} {scope : Scope}
    (h : Tokenizes limit depth t scope u) (ht : ∃ items, LaidOut t items) :
    ∃ items, LaidOut u items := by
  induction h with
  | self => exact ht
  | content htokens hg _ _ _ ih =>
    exact ih (laidOut_strip_of_token htokens List.mem_cons_self hg)
  | operand htokens _ _ _ _ ih =>
    obtain ⟨item, -, hl⟩ := laidOut_of_token htokens
      (List.mem_cons_of_mem _ (List.mem_append_right _ List.mem_cons_self))
    exact ih ⟨[item], hl⟩

end Expr

/-- Reading reports an imbalance exactly if the whole text has it, and then changes nothing.
If the whole text has tokens, so has every text that is tokenized after it. -/
theorem read_imbalance_iff (limit : Nat) (t : Text) (scope : Scope) :
    (∀ cause, (Expr.read limit t scope).1 = .error (.imbalance cause) ↔
        tokenize t = .error cause) ∧
      (∀ cause, (Expr.read limit t scope).1 = .error (.imbalance cause) →
        (Expr.read limit t scope).2 = scope) ∧
      ∀ tokens, tokenize t = .ok tokens →
        ∀ u, Expr.Tokenizes limit 0 t scope u → ∃ parts, tokenize u = .ok parts := by
  have hok : ∀ tokens, tokenize t = .ok tokens →
      ∀ u, Expr.Tokenizes limit 0 t scope u → ∃ parts, tokenize u = .ok parts := by
    intro tokens ht u hu
    rw [tokenize_eq] at ht
    obtain ⟨items, hitems, -⟩ := map_eq_ok ht
    obtain ⟨parts, hparts⟩ := Expr.laidOut_of_tokenizes hu ⟨items, laidOut_of_ofText? hitems⟩
    exact ⟨_, tokenize_of_laidOut hparts⟩
  have hiff : ∀ cause, (Expr.read limit t scope).1 = .error (.imbalance cause) ↔
      tokenize t = .error cause := by
    intro cause
    constructor
    · intro h
      obtain ⟨u, hu, he⟩ := Expr.readAt_imbalance_iff.mp h
      cases ht : tokenize t with
      | ok tokens =>
        obtain ⟨parts, hparts⟩ := hok tokens ht u hu
        cases hparts.symm.trans he
      | error whole =>
        rw [Expr.read, Expr.readAt_eq, ht] at h
        exact congrArg Except.error (ReadError.imbalance.inj (Except.error.inj h))
    · intro h
      rw [Expr.read, Expr.readAt_eq, h]
  refine ⟨hiff, ?_, hok⟩
  intro cause h
  rw [Expr.read, Expr.readAt_eq, (hiff cause).mp h]

theorem read_imbalance_iff_close_in_group :
    (Expr.read 1 "(abs (abs x)))".toList Scope.new).1 =
        .error (.imbalance (.unmatchedClose 13 "(abs (abs x)))".toList)) ∧
      tokenize "(abs x)".toList = .ok ["(abs x)".toList] ∧
        Expr.Tokenizes 1 0 "(abs x)".toList Scope.new "x".toList ∧
          ∃ parts, tokenize "x".toList = .ok parts := by
  have ht : tokenize "(abs x)".toList = .ok ["(abs x)".toList] := rfl
  have hinner : tokenize "abs x".toList = .ok ("abs".toList :: ([] ++ "x".toList :: [])) := rfl
  have hu : Expr.Tokenizes 1 0 "(abs x)".toList Scope.new "x".toList :=
    .content ht rfl (Nat.le_refl 1) rfl (.operand hinner rfl rfl rfl (.self _ _ _))
  obtain ⟨hiff, -⟩ := read_imbalance_iff 1 "(abs (abs x)))".toList Scope.new
  obtain ⟨-, -, hok⟩ := read_imbalance_iff 1 "(abs x)".toList Scope.new
  exact ⟨(hiff _).mpr rfl, ht, hu, hok _ ht _ hu⟩

end ScoreFormula
