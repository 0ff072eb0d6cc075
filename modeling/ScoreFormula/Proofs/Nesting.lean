import ScoreFormula.Proofs.Forest.Course

/-!
# The limit on nesting

`nesting` is the largest number of parentheses open at once in a text.  `read_of_limits`
compares the readings of one text under two limits.  They are the same as long as the
nesting is within the smaller limit.  Beyond it the smaller limit gives no tree, and it
gives its own error wherever the larger one gives a tree or stops at the nesting too.

Both readings follow the same forest, so the proof compares them item by item: they agree
up to the first group that lies too deep for the smaller limit, and what has been bound by
then stays bound in the other reading.
-/

namespace ScoreFormula

open Token Forest

/-- The largest number of parentheses open at once, in a text that begins where `opened`
are open.  A `)` where none is open closes nothing. -/
def nestingFrom (opened : Nat) : Text → Nat
  | [] => opened
  | c :: t =>
    if c = '(' then nestingFrom (opened + 1) t
    else if c = ')' then max opened (nestingFrom (opened - 1) t)
    else nestingFrom opened t

def nesting (t : Text) : Nat := nestingFrom 0 t

theorem le_nestingFrom (opened : Nat) (t : Text) : opened ≤ nestingFrom opened t := by
  induction t generalizing opened with
  | nil => exact Nat.le_refl _
  | cons c t ih =>
    rw [nestingFrom]
    by_cases ho : c = '('
    · rw [if_pos ho]
      exact Nat.le_of_succ_le (ih (opened + 1))
    · rw [if_neg ho]
      by_cases hc : c = ')'
      · rw [if_pos hc]
        exact Nat.le_max_left _ _
      · rw [if_neg hc]
        exact ih opened

theorem nestingFrom_other {c : Char} (ho : c ≠ '(') (hc : c ≠ ')') (opened : Nat) (t : Text) :
    nestingFrom opened (c :: t) = nestingFrom opened t := by
  rw [nestingFrom, if_neg ho, if_neg hc]

theorem nestingFrom_plain {w : Text} (hw : ∀ c ∈ w, isPlain c = true) (opened : Nat)
    (t : Text) : nestingFrom opened (w ++ t) = nestingFrom opened t := by
  induction w with
  | nil => rfl
  | cons c w ih =>
    obtain ⟨-, ho, hc⟩ := isPlain_cases (hw c List.mem_cons_self)
    rw [List.cons_append, nestingFrom_other ho hc]
    exact ih fun d hd => hw d (List.mem_cons_of_mem _ hd)

/-- A laid-out text opens as many parentheses at once as its items have groups inside one
another, and leaves none open. -/
theorem nestingFrom_laidOut {t : Text} {items : List Item} (h : LaidOut t items)
    (opened : Nat) (u : Text) :
    nestingFrom opened (t ++ u) = max (opened + depthOfAll items) (nestingFrom opened u) := by
  induction h generalizing opened u with
  | nil =>
    have hle := le_nestingFrom opened u
    rw [List.nil_append, depthOfAll]
    omega
  | @gap c t items hs _ ih =>
    obtain ⟨ho, hc⟩ := ne_parens_of_isSeparator hs
    rw [List.cons_append, nestingFrom_other ho hc, ih]
  | @atom w t items hw _ _ ih =>
    rw [List.append_assoc, nestingFrom_plain hw.2, ih, depthOfAll, depth, Nat.zero_max]
  | @group s t content items _ _ ihs iht =>
    have hclose : nestingFrom (opened + 1) (')' :: (t ++ u)) =
        max (opened + 1) (nestingFrom opened (t ++ u)) := by
      rw [nestingFrom, if_neg (by decide), if_pos rfl, Nat.add_sub_cancel]
    rw [parens_append_append, nestingFrom, if_pos rfl, ihs, hclose, iht, depthOfAll, depth]
    omega

theorem nesting_of_laidOut {t : Text} {items : List Item} (h : LaidOut t items) :
    nesting t = depthOfAll items := by
  have hn := nestingFrom_laidOut h 0 []
  rw [List.append_nil, nestingFrom, Nat.zero_add, Nat.max_zero] at hn
  exact hn

namespace Forest

/-! ## Depth and brackets of a tidied forest -/

theorem depthOfAll_trimFirst (items : List Item) :
    depthOfAll (trimFirst items) = depthOfAll items := by
  induction items with
  | nil => rw [trimFirst_nil]
  | cons item rest ih =>
    cases item with
    | atom w =>
      rw [trimFirst]
      by_cases hw : Text.trimStart w = []
      · rw [if_pos hw, ih, depthOfAll_cons, depth, Nat.zero_max]
      · rw [if_neg hw, depthOfAll_cons, depthOfAll_cons, depth, depth]
    | group raw content => rw [trimFirst_cons_group]

theorem depthOfAll_trimLast (items : List Item) :
    depthOfAll (trimLast items) = depthOfAll items := by
  induction items with
  | nil => rw [trimLast_nil]
  | cons item rest ih =>
    rw [depthOfAll_cons, ← ih]
    by_cases hr : trimLast rest = []
    · cases item with
      | atom w =>
        rw [trimLast_cons_atom hr, hr]
        by_cases hw : Text.trimEnd w = []
        · rw [if_pos hw, depth, Nat.zero_max]
        · rw [if_neg hw, depthOfAll_cons, depth, depth]
      | group raw content => rw [trimLast_cons_group, depthOfAll_cons]
    · rw [trimLast_cons_of_ne_nil hr, depthOfAll_cons]

theorem depthOfAll_trimEdges (items : List Item) :
    depthOfAll (trimEdges items) = depthOfAll items := by
  rw [trimEdges, depthOfAll_trimLast, depthOfAll_trimFirst]

mutual

theorem depth_tidy (item : Item) : depth (tidy item) = depth item := by
  cases item with
  | atom text => rw [tidy]
  | group raw content =>
    rw [tidy, depth, depth, depthOfAll_trimEdges, depthOfAll_tidyAll content]

theorem depthOfAll_tidyAll (items : List Item) : depthOfAll (tidyAll items) = depthOfAll items := by
  cases items with
  | nil => rw [tidyAll]
  | cons item rest =>
    rw [tidyAll, depthOfAll_cons, depthOfAll_cons, depth_tidy item, depthOfAll_tidyAll rest]

end

theorem depthOfAll_topLevel (items : List Item) :
    depthOfAll (topLevel items) = depthOfAll items := by
  rw [topLevel, depthOfAll_trimEdges, depthOfAll_tidyAll]

mutual

/-- The raw text of every group begins with a parenthesis. -/
def Bracketed : Item → Prop
  | .atom _ => True
  | .group raw content => raw.head? = some '(' ∧ AllBracketed content

def AllBracketed : List Item → Prop
  | [] => True
  | item :: rest => Bracketed item ∧ AllBracketed rest

end

theorem allBracketed_iff {items : List Item} :
    AllBracketed items ↔ ∀ item ∈ items, Bracketed item := by
  induction items with
  | nil => simp [AllBracketed]
  | cons item rest ih => simp [AllBracketed, ih]

theorem allBracketed_of_laidOut {t : Text} {items : List Item} (h : LaidOut t items) :
    AllBracketed items := by
  induction h with
  | nil => exact trivial
  | gap _ _ ih => exact ih
  | atom _ _ _ ih => exact ⟨trivial, ih⟩
  | group _ _ ihs ih => exact ⟨⟨rfl, ihs⟩, ih⟩

theorem allBracketed_trimEdges {items : List Item} (h : AllBracketed items) :
    AllBracketed (trimEdges items) := by
  rw [allBracketed_iff] at h ⊢
  intro item hm
  rcases mem_trimEdges hm with hm | ⟨w, rfl⟩
  · exact h item hm
  · exact trivial

mutual

theorem bracketed_tidy (item : Item) (h : Bracketed item) : Bracketed (tidy item) := by
  cases item with
  | atom text => exact trivial
  | group raw content =>
    rw [tidy]
    exact ⟨h.1, allBracketed_trimEdges (allBracketed_tidyAll content h.2)⟩

theorem allBracketed_tidyAll (items : List Item) (h : AllBracketed items) :
    AllBracketed (tidyAll items) := by
  cases items with
  | nil => exact trivial
  | cons item rest =>
    rw [tidyAll]
    exact ⟨bracketed_tidy item h.1, allBracketed_tidyAll rest h.2⟩

end

/-- What stands where a symbol is selected is no group. -/
theorem depth_of_select? {symbol : Item} {count : Nat} {operator : Operator}
    (hb : Bracketed symbol) (h : Operator.select? symbol.raw count = some operator) :
    depth symbol = 0 := by
  cases symbol with
  | atom text => rw [depth]
  | group raw content =>
    have hh : raw.head? = some '(' := hb.1
    have hne : ∀ op : Operator, op.symbol ≠ raw := by
      intro op he
      rw [← he] at hh
      cases op <;> exact absurd hh (by decide)
    rw [Item.raw, Operator.select?] at h
    by_cases hm : raw = "-".toList ∧ count = 1
    · exact absurd hm.1.symm (hne .subtract)
    · rw [if_neg hm] at h
      exact absurd (Operator.symbol_of_ofSymbol? h) (hne operator)

mutual

/-- A reading that does not stop has been inside every group. -/
theorem depth_le_of_stop? {limit level : Nat} {item : Item} (hb : Bracketed item)
    (hl : level ≤ limit) (h : stop? limit level item = none) : level + depth item ≤ limit := by
  cases item with
  | atom text =>
    rw [depth]
    exact hl
  | group raw content =>
    rw [stop?] at h
    by_cases hd : limit < level + 1
    · rw [if_pos hd] at h
      exact nomatch h
    · rw [if_neg hd] at h
      have hl' : level + 1 ≤ limit := Nat.le_of_not_lt hd
      rw [depth]
      cases hn : nullaryOf? content with
      | some operator =>
        have hc : depthOfAll content = 0 := by
          match content, hn with
          | [.atom text], _ => simp [depthOfAll, depth]
        omega
      | none =>
        rw [hn] at h
        have := depthOfAll_le_of_stopOfLevel? hb.2 hl' h
        omega

theorem depthOfAll_le_of_stopOfLevel? {limit level : Nat} {items : List Item}
    (hb : AllBracketed items) (hl : level ≤ limit)
    (h : stopOfLevel? limit level items = none) : level + depthOfAll items ≤ limit := by
  match items with
  | [] =>
    rw [depthOfAll]
    exact hl
  | [item] =>
    rw [stopOfLevel?] at h
    have hi := depth_le_of_stop? hb.1 hl h
    rw [depthOfAll, depthOfAll, Nat.max_zero]
    exact hi
  | symbol :: first :: rest =>
    rw [stopOfLevel?] at h
    cases hs : Operator.select? symbol.raw (first :: rest).length with
    | none =>
      rw [hs] at h
      exact nomatch h
    | some operator =>
      rw [hs] at h
      by_cases ha : (first :: rest).length ≠ operator.arity
      · simp only [if_pos ha] at h
        exact nomatch h
      · simp only [if_neg ha] at h
        have ho := depthOfAll_le_of_stopOfOperands? hb.2 hl h
        rw [depthOfAll_cons, depth_of_select? hb.1 hs, Nat.zero_max]
        exact ho

theorem depthOfAll_le_of_stopOfOperands? {limit level : Nat} {operator : Operator}
    {index : Nat} {items : List Item} (hb : AllBracketed items) (hl : level ≤ limit)
    (h : stopOfOperands? limit level operator index items = none) :
    level + depthOfAll items ≤ limit := by
  match items with
  | [] =>
    rw [depthOfAll]
    exact hl
  | item :: rest =>
    rw [stopOfOperands?] at h
    match hi : stop? limit level item with
    | some (path, cause) =>
      rw [hi] at h
      exact nomatch h
    | none =>
      rw [hi] at h
      by_cases hv : isVoid item = true
      · simp only [if_pos hv] at h
        exact nomatch h
      · simp only [if_neg hv] at h
        have h1 := depth_le_of_stop? hb.1 hl hi
        have h2 := depthOfAll_le_of_stopOfOperands? hb.2 hl h
        rw [depthOfAll_cons]
        omega

end

/-! ## Two limits -/

/-- Two results are the same, or the first stops at its limit with no name bound that the
second has not bound as well. -/
def Narrows {α : Type} (limit : Nat) (result result' : Except ReadError α × Scope) : Prop :=
  result = result' ∨
    result.1 = .error (.tooDeep limit) ∧ Scope.Extends result.2 result'.2

theorem extends_andThen {α β : Type} {scope : Scope} {result : Except ReadError α × Scope}
    {next : α → Scope → Except ReadError β × Scope} (h : Scope.Extends scope result.2)
    (hn : ∀ a scope, Scope.Extends scope (next a scope).2) :
    Scope.Extends scope (andThen result next).2 := by
  match result, h with
  | (.error e, after), h => exact h
  | (.ok a, after), h => exact h.trans (hn a after)

theorem Narrows.andThen {α β : Type} {limit : Nat} {result result' : Except ReadError α × Scope}
    {next next' : α → Scope → Except ReadError β × Scope} (h : Narrows limit result result')
    (hn : ∀ a scope, Narrows limit (next a scope) (next' a scope))
    (he : ∀ a scope, Scope.Extends scope (next' a scope).2) :
    Narrows limit (andThen result next) (andThen result' next') := by
  rcases h with rfl | ⟨hstop, hs⟩
  · match result with
    | (.error e, scope) => exact Or.inl rfl
    | (.ok a, scope) => exact hn a scope
  · right
    match result, hstop, hs with
    | (.error e, scope), hstop, hs =>
      refine ⟨congrArg Except.error (Except.error.inj hstop), ?_⟩
      match result', hs with
      | (.error e', scope'), hs => exact hs
      | (.ok a, scope'), hs => exact hs.trans (he a scope')

mutual

theorem narrows_readItem {limit limit' : Nat} (hl : limit ≤ limit') (level : Nat) (item : Item)
    (scope : Scope) :
    Narrows limit (readItem limit level item scope) (readItem limit' level item scope) := by
  cases item with
  | atom text =>
    left
    rw [readItem, readItem]
  | group raw content =>
    have he := extends_of_course (course_readItem limit' level (.group raw content) scope)
    rw [readItem, readItem] at *
    by_cases hd : limit < level + 1
    · rw [if_pos hd]
      exact Or.inr ⟨rfl, he⟩
    · have hd' : ¬limit' < level + 1 := by omega
      rw [if_neg hd, if_neg hd']
      cases nullaryOf? content with
      | some operator => exact Or.inl rfl
      | none => exact narrows_readLevel hl (level + 1) content scope

theorem narrows_readLevel {limit limit' : Nat} (hl : limit ≤ limit') (level : Nat)
    (items : List Item) (scope : Scope) :
    Narrows limit (readLevel limit level items scope) (readLevel limit' level items scope) := by
  match items with
  | [] =>
    left
    rw [readLevel, readLevel]
  | [item] =>
    rw [readLevel, readLevel]
    exact narrows_readItem hl level item scope
  | symbol :: first :: rest =>
    cases hs : Operator.select? symbol.raw (first :: rest).length with
    | none =>
      left
      rw [readLevel, readLevel, hs]
    | some operator =>
      by_cases ha : (first :: rest).length = operator.arity
      · have ho := narrows_readOperands hl level operator 0 (first :: rest) scope
        rw [readLevel_operation hs ha, readLevel_operation hs ha]
        exact ho.andThen (fun _ _ => Or.inl rfl) fun _ scope => Scope.Extends.refl scope
      · left
        rw [readLevel, readLevel, hs]
        simp only [if_pos ha]

theorem narrows_readOperands {limit limit' : Nat} (hl : limit ≤ limit') (level : Nat)
    (operator : Operator) (index : Nat) (items : List Item) (scope : Scope) :
    Narrows limit (readOperands limit level operator index items scope)
      (readOperands limit' level operator index items scope) := by
  match items with
  | [] =>
    left
    rw [readOperands, readOperands]
  | item :: rest =>
    rw [readOperands_cons, readOperands_cons]
    refine (narrows_readItem hl level item scope).andThen (fun found scope => ?_)
      fun found scope => ?_
    · -- Up to here both have bound the same names, so the operands after it start alike.
      cases found with
      | none => exact Or.inl rfl
      | some operand =>
        have ho := narrows_readOperands hl level operator (index + 1) rest scope
        exact ho.andThen (fun _ _ => Or.inl rfl) fun _ scope => Scope.Extends.refl scope
    · cases found with
      | none => exact Scope.Extends.refl scope
      | some operand =>
        have ho := course_readOperands limit' level operator (index + 1) rest scope
        exact extends_andThen (extends_of_courseOfAll ho) fun _ scope => Scope.Extends.refl scope

end

end Forest

/-- A reading stops at the nesting only under its own limit and beyond it. -/
theorem tooDeep_of_read {limit l : Nat} {t : Text} {scope : Scope}
    (h : (Expr.read limit t scope).1 = .error (.tooDeep l)) : l = limit ∧ limit < nesting t := by
  cases hf : ofText? t with
  | error cause =>
    rw [read_of_error hf] at h
    exact nomatch h
  | ok items =>
    have hs := laidOut_of_ofText? hf
    have hc := course_readLevel limit 0 (topLevel items) scope
    rw [read_of_ok hf] at h
    match readLevel limit 0 (topLevel items) scope, h, hc with
    | (.error e, after), h, hc =>
      cases h
      obtain ⟨path, hstop, -⟩ := hc
      have hfault := fault_of_stopOfLevel? hstop
      rw [Nat.zero_add, depthOfAll_topLevel, ← nesting_of_laidOut hs] at hfault
      cases hfault with
      | tooDeep hlt => exact ⟨rfl, hlt⟩

theorem nesting_le_of_read {limit : Nat} {t : Text} {scope : Scope} {found : Option Expr}
    (h : (Expr.read limit t scope).1 = .ok found) : nesting t ≤ limit := by
  cases hf : ofText? t with
  | error cause =>
    rw [read_of_error hf] at h
    exact nomatch h
  | ok items =>
    have hs := laidOut_of_ofText? hf
    have hc := course_readLevel limit 0 (topLevel items) scope
    rw [read_of_ok hf] at h
    have hstop : stopOfLevel? limit 0 (topLevel items) = none := by
      match readLevel limit 0 (topLevel items) scope, h, hc with
      | (.ok none, after), _, hc => exact hc.1
      | (.ok (some e), after), _, hc => exact hc.1
    have hb : AllBracketed (topLevel items) :=
      allBracketed_trimEdges (allBracketed_tidyAll items (allBracketed_of_laidOut hs))
    have hd := depthOfAll_le_of_stopOfLevel? hb (Nat.zero_le limit) hstop
    rw [Nat.zero_add, depthOfAll_topLevel, ← nesting_of_laidOut hs] at hd
    exact hd

theorem narrows_read {limit limit' : Nat} (hl : limit ≤ limit') (t : Text) (scope : Scope) :
    Narrows limit (Expr.read limit t scope) (Expr.read limit' t scope) := by
  cases hf : ofText? t with
  | error cause =>
    rw [read_of_error hf, read_of_error hf]
    exact Or.inl rfl
  | ok items =>
    rw [read_of_ok hf, read_of_ok hf]
    exact narrows_readLevel hl 0 (topLevel items) scope

/-- Of two limits the smaller one changes a reading only where the text is nested more
deeply than it allows, and only into the error that says so; nothing is bound then that
the larger limit leaves out. -/
theorem read_of_limits {limit limit' : Nat} (hl : limit ≤ limit') (t : Text) (scope : Scope) :
    (Expr.read limit t scope = Expr.read limit' t scope ∨
        (Expr.read limit t scope).1 = .error (.tooDeep limit)) ∧
      (nesting t ≤ limit →
        Expr.read limit t scope = Expr.read limit' t scope ∧
          ∀ l, (Expr.read limit t scope).1 ≠ .error (.tooDeep l)) ∧
      (limit < nesting t →
        (∀ found, (Expr.read limit t scope).1 ≠ .ok found) ∧
          ((∃ found, (Expr.read limit' t scope).1 = .ok found) ∨
              (∃ l, (Expr.read limit' t scope).1 = .error (.tooDeep l)) →
            (Expr.read limit t scope).1 = .error (.tooDeep limit))) ∧
      ∀ name ∈ (Expr.read limit t scope).2.registry.names,
        name ∈ (Expr.read limit' t scope).2.registry.names := by
  have hn := narrows_read hl t scope
  refine ⟨?_, ?_, ?_, ?_⟩
  · exact hn.imp_right And.left
  · intro hw
    have hne : ∀ l, (Expr.read limit t scope).1 ≠ .error (.tooDeep l) := by
      intro l h
      have hlt := (tooDeep_of_read h).2
      omega
    rcases hn with h | ⟨h, -⟩
    · exact ⟨h, hne⟩
    · exact absurd h (hne limit)
  · intro hw
    have hne : ∀ found, (Expr.read limit t scope).1 ≠ .ok found := by
      intro found h
      have hle := nesting_le_of_read h
      omega
    refine ⟨hne, ?_⟩
    intro h'
    rcases hn with h | ⟨h, -⟩
    · rcases h' with ⟨found, h'⟩ | ⟨l, h'⟩
      · exact absurd (h ▸ h') (hne found)
      · have hl : (Expr.read limit t scope).1 = .error (.tooDeep l) := h ▸ h'
        rw [hl, (tooDeep_of_read hl).1]
    · exact h
  · intro name hm
    rw [Registry.mem_names_iff] at hm ⊢
    rcases hn with h | ⟨-, hext⟩
    · rw [← h]
      exact hm
    · exact hext.contains hm

/-- One limit allows the two groups of the text and the other does not. -/
theorem read_of_limits_two_groups :
    (1 : Nat) ≤ 2 ∧ nesting "(abs (abs x))".toList = 2 ∧
      (Expr.read 1 "(abs (abs x))".toList Scope.new).1 = .error (.tooDeep 1) := by
  have hn : nesting "(abs (abs x))".toList = 2 := by decide
  have hr : (Expr.read 2 "(abs (abs x))".toList Scope.new).1 =
      .ok (some (.operation .abs [.operation .abs [.var ⟨"x".toList, 0⟩]])) := by
    have hf : ofText? "(abs (abs x))".toList = .ok [.group "(abs (abs x))".toList
        [.atom "abs".toList, .group "(abs x)".toList [.atom "abs".toList, .atom "x".toList]]] :=
      rfl
    rw [read_of_ok hf]
    rfl
  obtain ⟨-, -, hdeep, -⟩ := read_of_limits (show 1 ≤ 2 by decide) "(abs (abs x))".toList Scope.new
  have hlt : 1 < nesting "(abs (abs x))".toList := by
    rw [hn]
    decide
  exact ⟨by decide, hn, (hdeep hlt).2 (Or.inl ⟨_, hr⟩)⟩

end ScoreFormula
