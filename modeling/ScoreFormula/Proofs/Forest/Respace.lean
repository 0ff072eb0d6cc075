import ScoreFormula.Proofs.Forest.Read
import ScoreFormula.Proofs.Lexeme

/-!
# Reading a respaced text

The respaced text of a laid-out text is laid out as well: each atom stays an item, and each
group becomes the group that is respaced inside.  Reading looks at the raw text of a group
only where it reports it as a symbol.  Hence the two texts read alike up to the layout of
such a symbol (`sameReading_respace`), and that is all the layout of a text decides.
-/

namespace ScoreFormula

open Token Text

namespace Forest

/-- Respaces the content of a group. -/
def respaceRaw (raw : Text) : Text :=
  if isGroup raw then parens (' ' :: respace (strip raw)) else raw

mutual

/-- Respaces the contents of all groups inside an item. -/
def respaceItem : Item → Item
  | .atom text => .atom text
  | .group raw content => .group (respaceRaw raw) (respaceAll content)

def respaceAll : List Item → List Item
  | [] => []
  | item :: rest => respaceItem item :: respaceAll rest

end

theorem respaceRaw_parens (s : Text) : respaceRaw (parens s) = parens (' ' :: respace s) := by
  rw [respaceRaw, if_pos (isGroup_parens s), strip_parens]

theorem lexemes_respaceRaw (raw : Text) : lexemes (respaceRaw raw) = lexemes raw := by
  by_cases h : isGroup raw = true
  · have hp (s : Text) : lexemes (parens s) = ['('] :: (lexemes s ++ [[')']]) := by
      rw [← List.append_nil (parens s), lexemes_parens_append, lexemes]
    rw [← parens_strip h, respaceRaw_parens, hp, hp, lexemes_separator (by decide),
      lexemes_respace]
  · rw [respaceRaw, if_neg h]

/-! ## Respacing keeps the items -/

theorem laidOut_respace {t : Text} {items : List Item} (h : LaidOut t items) :
    LaidOut (respace t) (respaceAll items) := by
  induction h with
  | nil =>
    rw [respaceAll]
    exact .nil
  | gap hs _ ih =>
    rw [respace, lexemes_separator hs]
    exact ih
  | @atom w t items hw hb _ ih =>
    rw [respace_append w hb, respace_word hw, respaceAll, respaceItem, List.append_assoc]
    exact .atom hw (breaks_space _) (.gap (by decide) ih)
  | @group s t content items _ _ ihs iht =>
    rw [respace_parens_append, respaceAll, respaceItem, respaceRaw_parens]
    exact .group (.gap (by decide) ihs) (.gap (by decide) iht)

theorem respaceAll_eq_map (items : List Item) : respaceAll items = items.map respaceItem := by
  induction items with
  | nil => rw [respaceAll, List.map_nil]
  | cons item rest ih => rw [respaceAll, ih, List.map_cons]

theorem trimEdges_respaceAll (items : List Item) :
    trimEdges (respaceAll items) = respaceAll (trimEdges items) := by
  have hg (raw : Text) (content : List Item) :
      ∃ raw' content', respaceItem (.group raw content) = .group raw' content' := by
    rw [respaceItem]
    exact ⟨_, _, rfl⟩
  rw [respaceAll_eq_map, respaceAll_eq_map, trimEdges_map (fun w => by rw [respaceItem]) hg]

mutual

theorem tidy_respaceItem (item : Item) : tidy (respaceItem item) = respaceItem (tidy item) := by
  cases item with
  | atom w => rw [respaceItem, tidy, respaceItem]
  | group raw content =>
    rw [respaceItem, tidy, tidy, respaceItem, tidyAll_respaceAll content, trimEdges_respaceAll]

theorem tidyAll_respaceAll (items : List Item) :
    tidyAll (respaceAll items) = respaceAll (tidyAll items) := by
  cases items with
  | nil => rw [respaceAll, tidyAll, respaceAll]
  | cons item rest =>
    rw [respaceAll, tidyAll, tidyAll, respaceAll, tidy_respaceItem item, tidyAll_respaceAll rest]

end

theorem topLevel_respaceAll (items : List Item) :
    topLevel (respaceAll items) = respaceAll (topLevel items) := by
  rw [topLevel, topLevel, tidyAll_respaceAll, trimEdges_respaceAll]

/-! ## Readings of the same items -/

/-- Two readings are the same, except that they may report a group as a symbol in different
layouts. -/
inductive SameReading {α : Type} : Except ReadError α × Scope → Except ReadError α × Scope → Prop
  | same (result : Except ReadError α × Scope) : SameReading result result
  | symbol {symbol symbol' : Text} {scope : Scope} :
    isGroup symbol = true → isGroup symbol' = true → lexemes symbol = lexemes symbol' →
      SameReading (.error (.unsupportedOperator symbol), scope)
        (.error (.unsupportedOperator symbol'), scope)

theorem SameReading.andThen {α β : Type} {result result' : Except ReadError α × Scope}
    {next next' : α → Scope → Except ReadError β × Scope} (h : SameReading result result')
    (hn : ∀ a scope, SameReading (next a scope) (next' a scope)) :
    SameReading (andThen result next) (andThen result' next') := by
  cases h with
  | same result =>
    match result with
    | (.error e, scope) => exact .same _
    | (.ok a, scope) => exact hn a scope
  | symbol hg hg' hl => exact .symbol hg hg' hl

theorem nullaryOf?_respaceAll (items : List Item) :
    nullaryOf? (respaceAll items) = nullaryOf? items := by
  match items with
  | [] => simp [respaceAll, nullaryOf?]
  | [.atom w] => simp [respaceAll, respaceItem, nullaryOf?]
  | [.group raw content] => simp [respaceAll, respaceItem, nullaryOf?]
  | first :: second :: rest => simp [respaceAll, nullaryOf?]

theorem length_respaceAll (items : List Item) : (respaceAll items).length = items.length := by
  rw [respaceAll_eq_map, List.length_map]

/-- Respacing an item leaves its raw text as it is, or lays out a group anew. -/
theorem raw_respaceItem (item : Item) :
    (respaceItem item).raw = item.raw ∨
      isGroup item.raw = true ∧ isGroup (respaceItem item).raw = true ∧
        lexemes item.raw = lexemes (respaceItem item).raw := by
  cases item with
  | atom w => exact Or.inl (by rw [respaceItem])
  | group raw content =>
    rw [respaceItem, Item.raw, Item.raw]
    by_cases h : isGroup raw = true
    · have hr : isGroup (respaceRaw raw) = true := by
        rw [respaceRaw, if_pos h]
        exact isGroup_parens _
      exact Or.inr ⟨h, hr, (lexemes_respaceRaw raw).symm⟩
    · exact Or.inl (by rw [respaceRaw, if_neg h])

mutual

theorem sameReading_item (limit depth : Nat) (item : Item) (scope : Scope) :
    SameReading (readItem limit depth item scope)
      (readItem limit depth (respaceItem item) scope) := by
  cases item with
  | atom text =>
    rw [respaceItem]
    exact .same _
  | group raw content =>
    rw [respaceItem, readItem, readItem, nullaryOf?_respaceAll]
    by_cases hd : limit < depth + 1
    · rw [if_pos hd, if_pos hd]
      exact .same _
    · rw [if_neg hd, if_neg hd]
      cases nullaryOf? content with
      | some operator => exact .same _
      | none => exact sameReading_level limit (depth + 1) content scope

theorem sameReading_level (limit depth : Nat) (items : List Item) (scope : Scope) :
    SameReading (readLevel limit depth items scope)
      (readLevel limit depth (respaceAll items) scope) := by
  match items with
  | [] =>
    rw [respaceAll]
    exact .same _
  | [item] =>
    rw [respaceAll, respaceAll, readLevel, readLevel]
    exact sameReading_item limit depth item scope
  | symbol :: first :: rest =>
    have hl : (respaceItem first :: respaceAll rest).length = (first :: rest).length := by
      rw [← respaceAll, length_respaceAll]
    rcases raw_respaceItem symbol with hr | ⟨hg, hg', hsame⟩
    · cases hs : Operator.select? symbol.raw (first :: rest).length with
      | none =>
        rw [respaceAll, respaceAll, readLevel, readLevel, hl, hr, hs]
        exact .same _
      | some operator =>
        have hs' : Operator.select? (respaceItem symbol).raw
            (respaceItem first :: respaceAll rest).length = some operator := by
          rw [hr, hl, hs]
        by_cases ha : (first :: rest).length = operator.arity
        · rw [respaceAll, respaceAll, readLevel_operation hs ha,
            readLevel_operation hs' (hl.trans ha), ← respaceAll]
          refine (sameReading_operands limit depth operator 0 (first :: rest) scope).andThen ?_
          exact fun operands scope => .same _
        · rw [respaceAll, respaceAll, readLevel, readLevel, hs, hs']
          simp only [hl, ne_eq, ha, not_false_eq_true, if_true]
          exact .same _
    · rw [respaceAll, respaceAll, readLevel, readLevel, select?_of_isGroup hg,
        select?_of_isGroup hg']
      exact .symbol hg hg' hsame

theorem sameReading_operands (limit depth : Nat) (operator : Operator) (index : Nat)
    (items : List Item) (scope : Scope) :
    SameReading (readOperands limit depth operator index items scope)
      (readOperands limit depth operator index (respaceAll items) scope) := by
  match items with
  | [] =>
    rw [respaceAll]
    exact .same _
  | item :: rest =>
    rw [respaceAll, readOperands_cons, readOperands_cons]
    refine (sameReading_item limit depth item scope).andThen fun found scope => ?_
    match found with
    | none => exact .same _
    | some operand =>
      refine (sameReading_operands limit depth operator (index + 1) rest scope).andThen ?_
      exact fun operands scope => .same _

end

theorem sameReading_respace {t : Text} {items : List Item} (h : LaidOut t items) (limit : Nat)
    (scope : Scope) :
    SameReading (Expr.read limit t scope) (Expr.read limit (respace t) scope) := by
  rw [read_of_laidOut h, read_of_laidOut (laidOut_respace h), topLevel_respaceAll]
  exact sameReading_level limit 0 (topLevel items) scope

end Forest
end ScoreFormula
