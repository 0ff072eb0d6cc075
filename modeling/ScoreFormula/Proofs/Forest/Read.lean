import ScoreFormula.Expr.Read
import ScoreFormula.Proofs.Forest.Scan

/-!
# Reading a forest

Once a text has been scanned, a formula is read off its forest by recursion on the items,
and no character is looked at twice.  `read_eq_forest_read` says that reading the text level
by level, each level scanned anew, comes to the same: the same tree or error, and the same
scope.

The proof follows the layout.  An item agrees if its raw text reads as the item does; the
items of a level agree as the levels inside its groups do.
-/

namespace ScoreFormula

open Token Text

namespace Forest

mutual

/-- Takes the blanks off the edges of every level inside an item. -/
def tidy : Item → Item
  | .atom text => .atom text
  | .group raw content => .group raw (trimEdges (tidyAll content))

def tidyAll : List Item → List Item
  | [] => []
  | item :: rest => tidy item :: tidyAll rest

end

/-- The operator without operands that a group with this content is. -/
def nullaryOf? : List Item → Option Operator
  | [.atom text] => Operator.nullary? text
  | _ => none

mutual

def readLevel (limit depth : Nat) : List Item → Scope → ReadResult × Scope
  | [], scope => (.ok none, scope)
  | [item], scope => readItem limit depth item scope
  | symbol :: first :: rest, scope =>
    match Operator.select? symbol.raw (first :: rest).length with
    | none => (.error (.unsupportedOperator symbol.raw), scope)
    | some operator =>
      if (first :: rest).length ≠ operator.arity then
        (.error (.arityMismatch operator (first :: rest).length), scope)
      else
        match readOperands limit depth operator 0 (first :: rest) scope with
        | (.error e, scope) => (.error e, scope)
        | (.ok operands, scope) => (.ok (some (.operation operator operands)), scope)

def readItem (limit depth : Nat) : Item → Scope → ReadResult × Scope
  | .atom text, scope =>
    if text.trim = [] then (.ok none, scope)
    else
      match Expr.readAtom text.trim scope with
      | (leaf, scope) => (.ok (some leaf), scope)
  | .group _ content, scope =>
    if limit < depth + 1 then (.error (.tooDeep limit), scope)
    else
      match nullaryOf? content with
      | some operator => (.ok (some (.operation operator [])), scope)
      | none => readLevel limit (depth + 1) content scope

/-- Reads operands up to the first that is an error or holds nothing; `index` is the
place of the first. -/
def readOperands (limit depth : Nat) (operator : Operator) (index : Nat) :
    List Item → Scope → Except ReadError (List Expr) × Scope
  | [], scope => (.ok [], scope)
  | item :: rest, scope =>
    match readItem limit depth item scope with
    | (.error e, scope) => (.error e, scope)
    | (.ok none, scope) => (.error (.emptyOperand operator index), scope)
    | (.ok (some operand), scope) =>
      match readOperands limit depth operator (index + 1) rest scope with
      | (.error e, scope) => (.error e, scope)
      | (.ok operands, scope) => (.ok (operand :: operands), scope)

end

/-- Goes on with what has been read, unless reading has stopped. -/
def andThen {α β : Type} (result : Except ReadError α × Scope)
    (next : α → Scope → Except ReadError β × Scope) : Except ReadError β × Scope :=
  match result with
  | (.error e, scope) => (.error e, scope)
  | (.ok a, scope) => next a scope

/-- Reads the operands after one of which `found` has been read. -/
def readRest (limit depth : Nat) (operator : Operator) (index : Nat) (rest : List Item)
    (found : Option Expr) (scope : Scope) : Except ReadError (List Expr) × Scope :=
  match found with
  | none => (.error (.emptyOperand operator index), scope)
  | some operand =>
    andThen (readOperands limit depth operator (index + 1) rest scope) fun operands scope =>
      (.ok (operand :: operands), scope)

theorem readOperands_cons (limit depth : Nat) (operator : Operator) (index : Nat) (item : Item)
    (rest : List Item) (scope : Scope) :
    readOperands limit depth operator index (item :: rest) scope =
      andThen (readItem limit depth item scope)
        (readRest limit depth operator index rest) := by
  rw [readOperands]
  match readItem limit depth item scope with
  | (.error e, after) => rfl
  | (.ok none, after) => rfl
  | (.ok (some operand), after) =>
    show _ = andThen (readOperands limit depth operator (index + 1) rest after) _
    dsimp only
    match readOperands limit depth operator (index + 1) rest after with
    | (.error e, last) => rfl
    | (.ok operands, last) => rfl

/-- With its operator found and its operands counted, an operation is read by its operands. -/
theorem readLevel_operation {limit depth : Nat} {operator : Operator} {symbol first : Item}
    {rest : List Item} {scope : Scope}
    (hs : Operator.select? symbol.raw (first :: rest).length = some operator)
    (ha : (first :: rest).length = operator.arity) :
    readLevel limit depth (symbol :: first :: rest) scope =
      andThen (readOperands limit depth operator 0 (first :: rest) scope) fun operands scope =>
        (.ok (some (.operation operator operands)), scope) := by
  rw [readLevel, hs]
  simp only [if_neg (Classical.not_not.mpr ha)]
  match readOperands limit depth operator 0 (first :: rest) scope with
  | (.error e, after) => rfl
  | (.ok operands, after) => rfl

/-- The outermost level of a text that has this forest. -/
def topLevel (items : List Item) : List Item := trimEdges (tidyAll items)

/-- Reads a text by scanning it once. -/
def read (limit : Nat) (t : Text) (scope : Scope) : ReadResult × Scope :=
  match ofText? t with
  | .error cause => (.error (.imbalance cause), scope)
  | .ok items => readLevel limit 0 (topLevel items) scope

/-! ## Trimming and tidying -/

theorem raw_tidy (item : Item) : (tidy item).raw = item.raw := by
  cases item <;> simp [tidy, Item.raw]

theorem length_tidyAll (items : List Item) : (tidyAll items).length = items.length := by
  induction items with
  | nil => simp [tidyAll]
  | cons item rest ih => simp [tidyAll, ih]

theorem tidyAll_eq_map (items : List Item) : tidyAll items = items.map tidy := by
  induction items with
  | nil => rw [tidyAll, List.map_nil]
  | cons item rest ih => rw [tidyAll, ih, List.map_cons]

theorem topLevel_eq (items : List Item) : topLevel items = tidyAll (trimEdges items) := by
  have hg (raw : Text) (content : List Item) :
      ∃ raw' content', tidy (.group raw content) = .group raw' content' := by
    rw [tidy]
    exact ⟨_, _, rfl⟩
  rw [topLevel, tidyAll_eq_map, tidyAll_eq_map, trimEdges_map (fun w => by rw [tidy]) hg]

/-! ## One token -/

theorem tokenize_word {w : Text} (h : Word w) :
    tokenize w = .ok (if w.trim = [] then [] else [w.trim]) := by
  rw [tokenize_of_laidOut (.of_word h), trimEdges_atom]
  by_cases ht : w.trim = []
  · rw [if_pos ht, if_pos ht, List.map_nil]
  · rw [if_neg ht, if_neg ht]
    rfl

theorem tokenize_of_trim_eq {w : Text} (h : Word w) (ht : w.trim = w) : tokenize w = .ok [w] := by
  rw [tokenize_word h, ht, if_neg h.1]

theorem tokenize_parens {s : Text} {content : List Item} (h : LaidOut s content) :
    tokenize (parens s) = .ok [parens s] := by
  rw [tokenize_of_laidOut (.of_parens h), trimEdges_group]
  rfl

theorem tokenize_trim (t : Text) : tokenize t.trim = tokenize t := by
  simp only [tokenize, trim_trim]

/-- The only token of a text is the only token of itself. -/
theorem tokenize_token {t : Text} {item : Item} (h : LaidOut t.trim [item])
    (ht : tokenize t = .ok ([item].map Item.raw)) :
    tokenize item.raw = .ok ([item].map Item.raw) := by
  cases item with
  | atom w =>
    have hw : w.trim = t.trim := by rw [← h.trim_eq, trim_trim]
    show tokenize w = _
    rw [← tokenize_trim, hw, tokenize_trim, ht]
  | group raw content =>
    obtain ⟨s, rfl, hs⟩ := h.content_of_mem List.mem_cons_self
    exact tokenize_parens hs

/-- Reading is settled by the tokens, so texts with the same tokens read alike. -/
theorem readAt_congr {t u : Text} (h : tokenize t = tokenize u) (limit depth : Nat)
    (scope : Scope) : Expr.readAt limit depth t scope = Expr.readAt limit depth u scope := by
  rw [Expr.readAt_eq, Expr.readAt_eq, h]

theorem readAt_word {w : Text} (h : Word w) (limit depth : Nat) (scope : Scope) :
    Expr.readAt limit depth w scope = readItem limit depth (.atom w) scope := by
  rw [Expr.readAt_eq, tokenize_word h, readItem]
  by_cases ht : w.trim = []
  · rw [if_pos ht, if_pos ht]
  · have hg : isGroup w.trim = false := isGroup_plain fun c hc => h.2 c (mem_of_mem_trim hc)
    rw [if_neg ht, if_neg ht]
    simp only [hg]
    rfl

theorem apply_nullary {t : Text} {operator : Operator} (h : Operator.nullary? t = some operator) :
    Expr.apply operator [] = .ok (.operation operator []) := by
  have ha : operator.arity = 0 := by simpa using (Option.filter_eq_some_iff.mp h).2
  have hl : ([] : List Expr).length = operator.arity := ha.symm
  rw [Expr.apply, if_pos hl]

theorem readAt_parens {s : Text} {content : List Item} (h : LaidOut s content)
    (limit depth : Nat) (scope : Scope) :
    Expr.readAt limit depth (parens s) scope =
      if limit < depth + 1 then (.error (.tooDeep limit), scope)
      else
        match Operator.nullary? s.trim with
        | some operator => (.ok (some (.operation operator [])), scope)
        | none => Expr.readAt limit (depth + 1) s scope := by
  rw [Expr.readAt_eq, tokenize_parens h]
  simp only [isGroup_parens, strip_parens, if_true]
  by_cases hd : limit < depth + 1
  · rw [if_pos hd, if_pos hd]
  · rw [if_neg hd, if_neg hd]
    cases hn : Operator.nullary? s.trim with
    | none => rfl
    | some operator =>
      simp only [apply_nullary hn]
      rfl

/-! ## Operators without operands -/

theorem word_symbol (operator : Operator) : Word operator.symbol := by
  cases operator <;> exact word_of_all (by decide) (by decide)

/-- A group stands for no operator where a symbol is looked up. -/
theorem select?_of_isGroup {symbol : Text} (h : isGroup symbol = true) (count : Nat) :
    Operator.select? symbol count = none := by
  have hne (operator : Operator) : operator.symbol ≠ symbol := by
    rintro rfl
    rw [isGroup_plain (word_symbol operator).2] at h
    exact nomatch h
  rw [Operator.select?, if_neg fun hm => hne .subtract hm.1.symm]
  cases ho : Operator.ofSymbol? symbol with
  | none => rfl
  | some operator => exact absurd (Operator.symbol_of_ofSymbol? ho) (hne operator)

theorem nullaryOf?_tidyAll (items : List Item) : nullaryOf? (tidyAll items) = nullaryOf? items := by
  match items with
  | [] => simp [tidyAll, nullaryOf?]
  | [.atom w] => simp [tidyAll, tidy, nullaryOf?]
  | [.group raw content] => simp [tidyAll, tidy, nullaryOf?]
  | first :: second :: rest => simp [tidyAll, nullaryOf?]

/-- A symbol between blanks is the only token. -/
theorem tokenize_of_nullary? {t : Text} {operator : Operator}
    (h : Operator.nullary? t.trim = some operator) : Word t.trim ∧ tokenize t = .ok [t.trim] := by
  have hsym : operator.symbol = t.trim :=
    Operator.symbol_of_ofSymbol? (Option.filter_eq_some_iff.mp h).1
  have hw : Word t.trim := hsym ▸ word_symbol operator
  have hne : t.trim ≠ [] := hw.1
  refine ⟨hw, ?_⟩
  rw [← tokenize_trim, tokenize_word hw, trim_trim, if_neg hne]

/-- A content is a single symbol exactly if it is that symbol between blanks. -/
theorem nullary?_trim {s : Text} {content : List Item} (h : LaidOut s content) :
    Operator.nullary? s.trim = nullaryOf? (trimEdges content) := by
  have hs : tokenize s = .ok ((trimEdges content).map Item.raw) := tokenize_of_laidOut h
  cases hn : Operator.nullary? s.trim with
  | some operator =>
    -- The symbol is a token of its own, so it is the only item.
    obtain ⟨hw, ht⟩ := tokenize_of_nullary? hn
    have hl : [s.trim] = (trimEdges content).map Item.raw := Except.ok.inj (ht.symm.trans hs)
    obtain ⟨item, hi, hr⟩ := List.map_eq_singleton_iff.mp hl.symm
    have hlaid := h.trim
    rw [hi] at hlaid ⊢
    cases item with
    | atom w =>
      have he : w = s.trim := hr
      rw [nullaryOf?, he, hn]
    | group raw inner =>
      obtain ⟨u, rfl, -⟩ := hlaid.content_of_mem List.mem_cons_self
      have hp : parens u = s.trim := hr
      have ho : isPlain '(' = true := hw.2 '(' (by rw [← hp]; exact List.mem_cons_self)
      exact absurd ho (by decide)
  | none =>
    match hl : trimEdges content with
    | [] => rfl
    | [.atom w] =>
      have hlaid := h.trim
      rw [hl] at hlaid hs
      have hw : w.trim = s.trim := by rw [← hlaid.trim_eq, trim_trim]
      have hword : Word w := hlaid.word_of_mem List.mem_cons_self
      rw [← tokenize_trim, ← hw, tokenize_trim, tokenize_word hword] at hs
      have he : w.trim = w := by
        by_cases ht : w.trim = []
        · rw [if_pos ht] at hs
          exact nomatch Except.ok.inj hs
        · rw [if_neg ht] at hs
          exact (List.cons.inj (Except.ok.inj hs)).1
      rw [nullaryOf?, ← he, hw, hn]
    | [.group raw inner] => rfl
    | first :: second :: rest =>
      rw [nullaryOf?]
      exact fun w he => nomatch (List.cons.inj he).2

/-! ## Agreement -/

/-- The raw text of an item reads as the item does. -/
def Agrees (item : Item) : Prop :=
  ∀ limit depth scope,
    Expr.readAt limit depth item.raw scope = readItem limit depth (tidy item) scope

theorem agrees_atom {w : Text} (h : Word w) : Agrees (.atom w) := by
  intro limit depth scope
  rw [tidy]
  exact readAt_word h limit depth scope

theorem length_of_readOperands {limit depth : Nat} {operator : Operator} {index : Nat}
    {items : List Item} {scope scope' : Scope} {operands : List Expr}
    (h : readOperands limit depth operator index items scope = (.ok operands, scope')) :
    operands.length = items.length := by
  induction items generalizing index scope scope' operands with
  | nil =>
    rw [readOperands] at h
    cases h
    rfl
  | cons item rest ih =>
    rw [readOperands] at h
    split at h
    · exact nomatch h
    · exact nomatch h
    · split at h
      · exact nomatch h
      · next hr =>
        cases h
        rw [List.length_cons, List.length_cons, ih hr]

theorem readOperands_of_agrees {items : List Item} (h : ∀ item ∈ items, Agrees item)
    (limit depth : Nat) (operator : Operator) (index : Nat) (scope : Scope) :
    Expr.readOperands operator index ((items.map Item.raw).map (Expr.readAt limit depth)) scope =
      readOperands limit depth operator index (tidyAll items) scope := by
  induction items generalizing index scope with
  | nil => simp [Expr.readOperands, tidyAll, readOperands]
  | cons item rest ih =>
    have hi := h item List.mem_cons_self limit depth scope
    have hr := fun index scope => ih (fun i hm => h i (List.mem_cons_of_mem _ hm)) index scope
    rw [tidyAll, readOperands, List.map_cons, List.map_cons, Expr.readOperands, hi]
    rcases readItem limit depth (tidy item) scope with ⟨e | _ | operand, after⟩
    · rfl
    · rfl
    · dsimp only
      cases hm : readOperands limit depth operator (index + 1) (tidyAll rest) after with
      | mk result last =>
        have hrest := hr (index + 1) after
        rw [hm] at hrest
        cases result with
        | error e => simp only [hrest]
        | ok operands => simp only [hrest]

theorem readOperation_of_agrees {symbol first : Item} {rest : List Item}
    (h : ∀ item ∈ first :: rest, Agrees item) (limit depth : Nat) (scope : Scope) :
    Expr.readOperation symbol.raw (((first :: rest).map Item.raw).map (Expr.readAt limit depth))
        scope =
      readLevel limit depth (tidyAll (symbol :: first :: rest)) scope := by
  have ho := fun operator => readOperands_of_agrees h limit depth operator 0 scope
  simp only [tidyAll] at ho
  rw [Expr.readOperation]
  simp only [tidyAll, readLevel, raw_tidy, List.length_map, List.length_cons, length_tidyAll, ho]
  cases hs : Operator.select? symbol.raw (rest.length + 1) with
  | none => rfl
  | some operator =>
    by_cases ha : rest.length + 1 ≠ operator.arity
    · simp only [if_pos ha]
    · simp only [if_neg ha]
      cases hr : readOperands limit depth operator 0 (tidy first :: tidyAll rest) scope with
      | mk result after =>
        cases result with
        | error e => rfl
        | ok operands =>
          have hl : operands.length = operator.arity := by
            rw [length_of_readOperands hr, List.length_cons, length_tidyAll]
            exact Classical.not_not.mp ha
          simp only [Expr.apply, if_pos hl]
          rfl

theorem readAt_of_agrees {t : Text} {items : List Item} (h : LaidOut t items)
    (ha : ∀ item ∈ items, Agrees item) (limit depth : Nat) (scope : Scope) :
    Expr.readAt limit depth t scope = readLevel limit depth (topLevel items) scope := by
  have he : ∀ item ∈ trimEdges items, Agrees item := by
    intro item hm
    rcases mem_trimEdges hm with hm' | ⟨w, rfl⟩
    · exact ha item hm'
    · exact agrees_atom (h.trim.word_of_mem hm)
  have ht := tokenize_of_laidOut h
  have hl := h.trim
  rw [topLevel_eq]
  match trimEdges items, he, ht, hl with
  | [], _, ht, _ =>
    rw [Expr.readAt_eq, ht, tidyAll, readLevel]
    rfl
  | [item], he, ht, hl =>
    have hitem := he item List.mem_cons_self limit depth scope
    rw [tidyAll, tidyAll, readLevel, ← hitem]
    exact readAt_congr (ht.trans (tokenize_token hl ht).symm) limit depth scope
  | symbol :: first :: rest, he, ht, _ =>
    rw [Expr.readAt_eq, ht]
    exact readOperation_of_agrees (fun item hm => he item (List.mem_cons_of_mem _ hm)) _ _ _

theorem agrees_of_laidOut {t : Text} {items : List Item} (h : LaidOut t items) :
    ∀ item ∈ items, Agrees item := by
  induction h with
  | nil => exact fun item hm => absurd hm (by simp)
  | gap _ _ ih => exact ih
  | atom hw _ _ ih =>
    intro item hm
    rcases List.mem_cons.mp hm with rfl | hm
    · exact agrees_atom hw
    · exact ih item hm
  | @group s t content items hs _ ihs ih =>
    intro item hm
    rcases List.mem_cons.mp hm with rfl | hm
    · intro limit depth scope
      have hc : topLevel content = trimEdges (tidyAll content) := rfl
      have hn : Operator.nullary? s.trim = nullaryOf? (topLevel content) := by
        rw [nullary?_trim hs, topLevel_eq, nullaryOf?_tidyAll]
      rw [tidy, readItem, Item.raw, readAt_parens hs, ← hc, hn,
        readAt_of_agrees hs ihs]
    · exact ih item hm

theorem read_of_laidOut {t : Text} {items : List Item} (h : LaidOut t items) (limit : Nat)
    (scope : Scope) : Expr.read limit t scope = readLevel limit 0 (topLevel items) scope :=
  readAt_of_agrees h (agrees_of_laidOut h) limit 0 scope

theorem read_of_broken {t : Text} {cause : Imbalance} (h : Broken t.trim cause) (limit : Nat)
    (scope : Scope) : Expr.read limit t scope = (.error (.imbalance cause), scope) := by
  have ht : tokenize t = .error cause := scan_broken h
  rw [Expr.read, Expr.readAt_eq, ht]

theorem read_of_ok {t : Text} {items : List Item} (h : ofText? t = .ok items) (limit : Nat)
    (scope : Scope) : Expr.read limit t scope = readLevel limit 0 (topLevel items) scope :=
  read_of_laidOut (laidOut_of_ofText? h) limit scope

theorem read_of_error {t : Text} {cause : Imbalance} (h : ofText? t = .error cause)
    (limit : Nat) (scope : Scope) :
    Expr.read limit t scope = (.error (.imbalance cause), scope) :=
  read_of_broken (broken_of_ofText? h) limit scope

end Forest

/-- Scanning each level anew reads what one scan of the whole text reads: for every text,
limit and scope the same result and the same scope afterwards. -/
theorem read_eq_forest_read (limit : Nat) (t : Text) (scope : Scope) :
    Expr.read limit t scope = Forest.read limit t scope := by
  unfold Forest.read
  cases h : Forest.ofText? t with
  | ok items => exact Forest.read_of_ok h limit scope
  | error cause => exact Forest.read_of_error h limit scope

end ScoreFormula
