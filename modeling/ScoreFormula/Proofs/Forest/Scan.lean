import ScoreFormula.Proofs.Forest.Trim

/-!
# One scan of the whole text

The items of a text and of all its groups come out of a single scan from left to right.
The scan keeps the level it is on and a stack of the groups that are open, each with the
level on which it stands.

`scan_sound` says that the scan yields the layout of a text or else the parenthesis at
fault.  Its invariant is `State.Reads`: everything read so far can be written down again
from the state, and the part of it on each level is laid out as the items collected there.
`tokenize_eq` is the consequence for the tokens of a text.
-/

namespace ScoreFormula

open Token Text

namespace Forest

/-- What has been read of one level.  All of it is kept reversed. -/
structure Level where
  text : Text
  items : List Item
  /-- The atom that is being read, or nothing between atoms. -/
  word : Text

namespace Level

def empty : Level := ⟨[], [], []⟩

/-- The items read, once the atom that is being read has ended. -/
def ended (l : Level) : List Item :=
  match l.word with
  | [] => l.items
  | _ :: _ => .atom l.word.reverse :: l.items

/-- The group that the level is the content of. -/
def group (l : Level) : Item := .group (parens l.text.reverse) l.ended.reverse

def addPlain (l : Level) (c : Char) : Level := ⟨c :: l.text, l.items, c :: l.word⟩

def addSeparator (l : Level) (c : Char) : Level := ⟨c :: l.text, l.ended, []⟩

def addGroup (l : Level) (inner : Level) : Level :=
  ⟨(parens inner.text.reverse).reverse ++ l.text, inner.group :: l.ended, []⟩

end Level

/-- A group that is open: where it begins, and the level on which it stands. -/
structure Opening where
  start : Nat
  outer : Level

structure State where
  position : Nat
  level : Level
  stack : List Opening

namespace State

def start : State := ⟨0, .empty, []⟩

/-- The state after one more character, unless that closes a group that is not open. -/
def step (s : State) (c : Char) : Option State :=
  if c = '(' then some ⟨s.position + 1, .empty, ⟨s.position, s.level⟩ :: s.stack⟩
  else if c = ')' then
    match s.stack with
    | [] => none
    | opening :: rest => some ⟨s.position + 1, opening.outer.addGroup s.level, rest⟩
  else if isSeparator c then some ⟨s.position + 1, s.level.addSeparator c, s.stack⟩
  else some ⟨s.position + 1, s.level.addPlain c, s.stack⟩

end State

/-- The items of the characters that follow a state.  Positions and imbalances are those
of the whole text `input`. -/
def scan (input : Text) (s : State) : Text → Except Imbalance (List Item)
  | [] =>
    match s.stack.getLast? with
    | none => .ok s.level.ended.reverse
    | some first => .error (.unmatchedOpen first.start input)
  | c :: rest =>
    match s.step c with
    | none => .error (.unmatchedClose s.position input)
    | some s => scan input s rest

/-- How many blanks come first in a text. -/
def leading (t : Text) : Nat := t.length - (trimStart t).length

/-- The same parenthesis, counted from the first character that is not blank. -/
def trimCause : Imbalance → Imbalance
  | .unmatchedClose position input => .unmatchedClose (position - leading input) input.trim
  | .unmatchedOpen position input => .unmatchedOpen (position - leading input) input.trim

/-- The forest of a text.  Imbalances are reported of the trimmed text. -/
def ofText? (t : Text) : Except Imbalance (List Item) := (scan t .start t).mapError trimCause

/-! ## What has been read -/

namespace Level

/-- The level's text is laid out as its items.  While an atom is being read, this is
said of the text before the atom, and of any layout that may follow there. -/
def Reads (l : Level) : Prop :=
  ∃ t, l.text.reverse = t ++ l.word.reverse ∧ (∀ c ∈ l.word, isPlain c = true) ∧
    ∀ {u items}, LaidOut u items → LaidOut (t ++ u) (l.items.reverse ++ items)

theorem reads_empty : empty.Reads :=
  ⟨[], rfl, fun c hc => absurd hc (by simp [empty]), fun h => h⟩

theorem Reads.append {l : Level} (h : l.Reads) {u : Text} {items : List Item} (hb : Breaks u)
    (hu : LaidOut u items) : LaidOut (l.text.reverse ++ u) (l.ended.reverse ++ items) := by
  obtain ⟨t, ht, hw, hl⟩ := h
  rw [ht]
  cases hc : l.word with
  | nil =>
    have he : l.ended = l.items := by simp [ended, hc]
    rw [he, List.reverse_nil, List.append_nil]
    exact hl hu
  | cons c w =>
    have he : l.ended = .atom l.word.reverse :: l.items := by simp [ended, hc]
    have hword : Word l.word.reverse :=
      ⟨by simp [hc], fun d hd => hw d (List.mem_reverse.mp hd)⟩
    rw [he, ← hc, List.append_assoc, List.reverse_cons, List.append_assoc,
      List.singleton_append]
    exact hl (.atom hword hb hu)

theorem Reads.laidOut {l : Level} (h : l.Reads) : LaidOut l.text.reverse l.ended.reverse := by
  have := h.append breaks_nil .nil
  rwa [List.append_nil, List.append_nil] at this

theorem reads_addPlain {l : Level} (h : l.Reads) {c : Char} (hc : isPlain c = true) :
    (l.addPlain c).Reads := by
  obtain ⟨t, ht, hw, hl⟩ := h
  refine ⟨t, by simp [addPlain, ht], ?_, hl⟩
  intro d hd
  rcases List.mem_cons.mp hd with rfl | hd
  · exact hc
  · exact hw d hd

theorem reads_addSeparator {l : Level} (h : l.Reads) {c : Char} (hc : isSeparator c = true) :
    (l.addSeparator c).Reads := by
  refine ⟨l.text.reverse ++ [c], by simp [addSeparator],
    fun d hd => absurd hd (by simp [addSeparator]), fun {u items} hu => ?_⟩
  rw [List.append_assoc]
  exact h.append (breaks_cons (not_isPlain_of_isSeparator hc)) (.gap hc hu)

theorem reads_addGroup {l inner : Level} (h : l.Reads) (hi : inner.Reads) :
    (l.addGroup inner).Reads := by
  refine ⟨l.text.reverse ++ parens inner.text.reverse, by simp [addGroup],
    fun d hd => absurd hd (by simp [addGroup]), fun {u items} hu => ?_⟩
  have hg := h.append (breaks_parens_append _ _) (.group hi.laidOut hu)
  simpa [addGroup, group] using hg

end Level

/-- The text before the content of the innermost open group. -/
def before : List Opening → Text
  | [] => []
  | opening :: rest => before rest ++ opening.outer.text.reverse ++ ['(']

/-- Each open group begins where it says, behind a level that is read. -/
def Placed : List Opening → Prop
  | [] => True
  | opening :: rest =>
    opening.start = (before rest ++ opening.outer.text.reverse).length ∧
      opening.outer.Reads ∧ Placed rest

namespace State

def consumed (s : State) : Text := before s.stack ++ s.level.text.reverse

structure Reads (s : State) : Prop where
  position_eq : s.position = s.consumed.length
  level : s.level.Reads
  stack : Placed s.stack

theorem reads_start : start.Reads := ⟨rfl, Level.reads_empty, trivial⟩

theorem Reads.advance {s s' : State} {c : Char} (h : s.Reads)
    (hp : s'.position = s.position + 1) (hc : s'.consumed = s.consumed ++ [c])
    (hl : s'.level.Reads) (hs : Placed s'.stack) :
    s'.Reads ∧ s'.consumed = s.consumed ++ [c] := by
  have hlen : s'.position = s'.consumed.length := by
    rw [hp, hc, List.length_append, ← h.position_eq]
    rfl
  exact ⟨⟨hlen, hl, hs⟩, hc⟩

/-- One step adds its character to what can be written down again. -/
theorem step_reads {s s' : State} {c : Char} (h : s.Reads) (hs : s.step c = some s') :
    s'.Reads ∧ s'.consumed = s.consumed ++ [c] := by
  unfold step at hs
  by_cases ho : c = '('
  · rw [if_pos ho] at hs
    cases hs
    have hc : consumed ⟨s.position + 1, .empty, ⟨s.position, s.level⟩ :: s.stack⟩ =
        s.consumed ++ [c] := by
      simp [consumed, before, Level.empty, ho]
    exact h.advance rfl hc Level.reads_empty ⟨h.position_eq, h.level, h.stack⟩
  · rw [if_neg ho] at hs
    by_cases hcl : c = ')'
    · rw [if_pos hcl] at hs
      cases hst : s.stack with
      | nil => rw [hst] at hs; exact nomatch hs
      | cons opening rest =>
        rw [hst] at hs
        cases hs
        have hpl := h.stack
        rw [hst] at hpl
        have hc : consumed ⟨s.position + 1, opening.outer.addGroup s.level, rest⟩ =
            s.consumed ++ [c] := by
          simp [consumed, hst, before, Level.addGroup, parens, hcl]
        exact h.advance rfl hc (Level.reads_addGroup hpl.2.1 h.level) hpl.2.2
    · rw [if_neg hcl] at hs
      by_cases hsep : isSeparator c = true
      · rw [if_pos hsep] at hs
        cases hs
        have hc : consumed ⟨s.position + 1, s.level.addSeparator c, s.stack⟩ =
            s.consumed ++ [c] := by
          simp [consumed, Level.addSeparator]
        exact h.advance rfl hc (Level.reads_addSeparator h.level hsep) h.stack
      · rw [if_neg hsep] at hs
        cases hs
        have hplain : isPlain c = true := by simp [isPlain, ho, hcl, hsep]
        have hc : consumed ⟨s.position + 1, s.level.addPlain c, s.stack⟩ =
            s.consumed ++ [c] := by
          simp [consumed, Level.addPlain]
        exact h.advance rfl hc (Level.reads_addPlain h.level hplain) h.stack

theorem step_eq_none {s : State} {c : Char} (hs : s.step c = none) : c = ')' ∧ s.stack = [] := by
  unfold step at hs
  split at hs
  · exact nomatch hs
  · split at hs
    · next hc =>
      split at hs
      · next hst => exact ⟨hc, hst⟩
      · exact nomatch hs
    · split at hs <;> exact nomatch hs

end State

/-! ## Texts without a layout -/

/-- A text in which groups may be left open but none is closed that is not open. -/
inductive Hanging : Text → Prop
  | last {t : Text} {items : List Item} : LaidOut t items → Hanging t
  | opening {t u : Text} {items : List Item} :
    LaidOut t items → Hanging u → Hanging (t ++ '(' :: u)

/-- A text and the first parenthesis in it that has no partner, counted on the outermost
level. -/
inductive Broken : Text → Imbalance → Prop
  | close {t u : Text} {items : List Item} :
    LaidOut t items → Broken (t ++ ')' :: u) (.unmatchedClose t.length (t ++ ')' :: u))
  | opening {t u : Text} {items : List Item} :
    LaidOut t items → Hanging u →
      Broken (t ++ '(' :: u) (.unmatchedOpen t.length (t ++ '(' :: u))

/-- If groups are open at the end, the outermost of them has no partner. -/
theorem broken_of_placed {stack : List Opening} {first : Opening} {u input : Text}
    (hs : Placed stack) (hf : stack.getLast? = some first) (hu : Hanging u)
    (hi : input = before stack ++ u) : Broken input (.unmatchedOpen first.start input) := by
  induction stack generalizing u with
  | nil => exact nomatch hf
  | cons opening rest ih =>
    obtain ⟨hstart, hreads, hrest⟩ := hs
    have hi' : input = before rest ++ (opening.outer.text.reverse ++ '(' :: u) := by
      simp [hi, before]
    cases rest with
    | nil =>
      have he : opening = first := by simpa using hf
      have ht : first.start = opening.outer.text.reverse.length := he ▸ hstart
      rw [ht, hi']
      exact .opening hreads.laidOut hu
    | cons other others =>
      rw [List.getLast?_cons_cons] at hf
      exact ih hrest hf (.opening hreads.laidOut hu) hi'

theorem scan_sound {input t : Text} {s : State} (hs : s.Reads) (hi : input = s.consumed ++ t) :
    match scan input s t with
    | .ok items => LaidOut input items
    | .error cause => Broken input cause := by
  induction t generalizing s with
  | nil =>
    rw [List.append_nil] at hi
    rw [scan]
    cases hl : s.stack.getLast? with
    | none =>
      have hst : s.stack = [] := List.getLast?_eq_none_iff.mp hl
      have ht : input = s.level.text.reverse := by rw [hi, State.consumed, hst]; rfl
      show LaidOut input s.level.ended.reverse
      rw [ht]
      exact hs.level.laidOut
    | some first => exact broken_of_placed hs.stack hl (.last hs.level.laidOut) hi
  | cons c rest ih =>
    rw [scan]
    cases hst : s.step c with
    | none =>
      obtain ⟨rfl, hnil⟩ := State.step_eq_none hst
      have hc : s.consumed = s.level.text.reverse := by rw [State.consumed, hnil]; rfl
      show Broken input (.unmatchedClose s.position input)
      rw [hs.position_eq, hi, hc]
      exact .close hs.level.laidOut
    | some s' =>
      obtain ⟨hs', hc⟩ := State.step_reads hs hst
      exact ih hs' (by rw [hi, hc, List.append_assoc]; rfl)

theorem scan_hanging {input t : Text} (h : Hanging t) (position start depth : Nat)
    (piece : Text) :
    Token.scan input position (.group start depth piece) t =
      .error (.unmatchedOpen start input) := by
  induction h generalizing position depth piece with
  | @last t items ht =>
    have hs : Token.scan input position (.group start depth piece) (t ++ []) = _ :=
      scan_inside position start depth piece [] ht
    rw [List.append_nil] at hs
    rw [hs, Token.scan]
  | opening ht _ ih => rw [scan_inside _ _ _ _ _ ht, scan_inside_open, ih]

theorem scan_broken {t : Text} {cause : Imbalance} (h : Broken t cause) :
    Token.scan t 0 (.atom []) t = .error cause := by
  cases h with
  | @close t u items ht =>
    rw [scan_laidOut _ ht (breaks_cons (by decide)), Nat.zero_add]
    simp [Token.scan, Except.map]
  | @opening t u items ht hu =>
    rw [scan_laidOut _ ht (breaks_cons (by decide)), Nat.zero_add, scan_open, scan_hanging hu]
    rfl

theorem Hanging.trimEnd {t : Text} (h : Hanging t) : Hanging (trimEnd t) := by
  induction h with
  | last ht => exact .last ht.trimEnd
  | @opening t u items ht _ ih =>
    have hu : Text.trimEnd ('(' :: u) = '(' :: Text.trimEnd u :=
      trimEnd_cons_of_not_blank (by decide) u
    rw [trimEnd_append, hu, if_neg (by simp)]
    exact .opening ht ih

theorem length_sub_leading {c : Char} (h : isBlank c = false) (t u : Text) :
    t.length - leading (t ++ c :: u) = (trimStart t).length := by
  have hle : (trimStart t).length ≤ t.length := (List.dropWhile_sublist isBlank).length_le
  rw [leading, trimStart_append_cons h]
  simp only [List.length_append, List.length_cons]
  omega

theorem Broken.trim {t : Text} {cause : Imbalance} (h : Broken t cause) :
    Broken t.trim (trimCause cause) := by
  cases h with
  | close ht =>
    rw [trimCause, length_sub_leading (by decide), trim_append_cons (by decide)]
    exact .close ht.trimStart
  | opening ht hu =>
    rw [trimCause, length_sub_leading (by decide), trim_append_cons (by decide)]
    exact .opening ht.trimStart hu.trimEnd

/-- A text is laid out as its forest, or its parentheses do not pair up. -/
theorem ofText?_sound (t : Text) :
    match ofText? t with
    | .ok items => LaidOut t items
    | .error cause => Broken t.trim cause := by
  have hstart : t = State.start.consumed ++ t := rfl
  have hs := scan_sound State.reads_start hstart
  unfold ofText?
  cases h : scan t .start t with
  | ok items =>
    rw [h] at hs
    exact hs
  | error cause =>
    rw [h] at hs
    exact hs.trim

theorem laidOut_of_ofText? {t : Text} {items : List Item} (h : ofText? t = .ok items) :
    LaidOut t items := by
  have hs := ofText?_sound t
  rw [h] at hs
  exact hs

theorem broken_of_ofText? {t : Text} {cause : Imbalance} (h : ofText? t = .error cause) :
    Broken t.trim cause := by
  have hs := ofText?_sound t
  rw [h] at hs
  exact hs

/-- The tokens of a text are the items of its forest between the blank edges. -/
theorem tokenize_eq (t : Text) :
    tokenize t = (ofText? t).map fun items => (trimEdges items).map Item.raw := by
  cases h : ofText? t with
  | ok items => exact tokenize_of_laidOut (laidOut_of_ofText? h)
  | error cause => exact scan_broken (broken_of_ofText? h)

end Forest
end ScoreFormula
