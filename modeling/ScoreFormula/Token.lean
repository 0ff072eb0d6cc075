import ScoreFormula.Text.Blank

/-!
# Tokens of one nesting level

A token is an atom, which is a longest run of characters that are neither
separators nor parentheses, or a group, which is a balanced parenthesized piece
of text kept whole.  `tokenize` splits a text into its tokens after trimming it.
Trimming removes every blank, while only five of the blanks separate atoms, so
an atom may contain a no-break space but a text never begins with one.

The bounds at the end say that tokens do not overlap: reading a group's content
or one of several tokens is reading a shorter text.
-/

namespace ScoreFormula

/-- The characters that stand between atoms and belong to none. -/
def isSeparator (c : Char) : Bool :=
  c == ' ' || c == '\t' || c == '\r' || c == '\n' || c == '\x0c'

/-- Parentheses that do not pair up.  Positions count the code points of `input`,
which is the trimmed text. -/
inductive Imbalance
  /-- A `)` where no group is open. -/
  | unmatchedClose (position : Nat) (input : Text)
  /-- The text ends inside the group that the `(` at `position` opens. -/
  | unmatchedOpen (position : Nat) (input : Text)
deriving DecidableEq, Repr

namespace Imbalance

def message : Imbalance → Text
  | unmatchedClose position input =>
    "Unmatched close parenthesis at position ".toList ++ Text.ofNat position ++
      " of input '".toList ++ input ++ "'.".toList
  | unmatchedOpen position input =>
    "Unmatched open parenthesis at position ".toList ++ Text.ofNat position ++
      " of input '".toList ++ input ++ "'.".toList

end Imbalance

namespace Token

/-- What a scan is in the middle of.  The piece read so far is kept reversed. -/
inductive Pending
  /-- An atom, or nothing if the piece is empty. -/
  | atom (piece : Text)
  /-- The group opened at position `start`, inside which `depth` more groups are
  open. -/
  | group (start depth : Nat) (piece : Text)

def Pending.piece : Pending → Text
  | atom piece => piece
  | group _ _ piece => piece

/-- Puts a finished atom in front of the tokens that follow it. -/
def finish (piece : Text) (tokens : List Text) : List Text :=
  match piece with
  | [] => tokens
  | _ :: _ => piece.reverse :: tokens

/-- The tokens of the characters from `position` on, which continue `pending`. -/
def scan (input : Text) (position : Nat) (pending : Pending) :
    Text → Except Imbalance (List Text)
  | [] =>
    match pending with
    | .atom piece => .ok (finish piece [])
    | .group start _ _ => .error (.unmatchedOpen start input)
  | c :: rest =>
    match pending with
    | .atom piece =>
      if c = '(' then
        (scan input (position + 1) (.group position 0 [c]) rest).map (finish piece)
      else if c = ')' then .error (.unmatchedClose position input)
      else if isSeparator c then
        (scan input (position + 1) (.atom []) rest).map (finish piece)
      else scan input (position + 1) (.atom (c :: piece)) rest
    | .group start depth piece =>
      if c = '(' then scan input (position + 1) (.group start (depth + 1) (c :: piece)) rest
      else if c = ')' then
        match depth with
        | 0 => (scan input (position + 1) (.atom []) rest).map ((c :: piece).reverse :: ·)
        | depth + 1 => scan input (position + 1) (.group start depth (c :: piece)) rest
      else scan input (position + 1) (.group start depth (c :: piece)) rest

end Token

def tokenize (input : Text) : Except Imbalance (List Text) :=
  let input := input.trim
  Token.scan input 0 (.atom []) input

namespace Token

/-- Whether a text begins with `(` and ends with `)`.  Of tokens exactly the
groups do. -/
def isGroup (token : Text) : Bool := token.head? == some '(' && token.getLast? == some ')'

/-- The content of a group, and any other text unchanged. -/
def strip (token : Text) : Text := if isGroup token then token.tail.dropLast else token

/-! ## Tokens do not overlap -/

def totalLength : List Text → Nat
  | [] => 0
  | token :: rest => token.length + totalLength rest

theorem finish_mem {piece : Text} {tokens : List Text} {t : Text}
    (h : t ∈ finish piece tokens) : (t = piece.reverse ∧ piece ≠ []) ∨ t ∈ tokens := by
  cases piece with
  | nil => exact Or.inr h
  | cons c rest => simpa [finish] using h

theorem totalLength_finish (piece : Text) (tokens : List Text) :
    totalLength (finish piece tokens) = piece.length + totalLength tokens := by
  cases piece <;> simp [finish, totalLength]

theorem map_eq_ok {ε α β : Type} {f : α → β} {x : Except ε α} {b : β} (h : x.map f = .ok b) :
    ∃ a, x = .ok a ∧ f a = b := by
  cases x with
  | error e => simp [Except.map] at h
  | ok a => exact ⟨a, rfl, by simpa [Except.map] using h⟩

/-- Every character of the text goes into at most one token, and no token is
empty. -/
theorem scan_bounds {input : Text} {position : Nat} {pending : Pending} {rest : Text}
    {tokens : List Text} (h : scan input position pending rest = .ok tokens) :
    totalLength tokens ≤ pending.piece.length + rest.length ∧ ∀ t ∈ tokens, t ≠ [] := by
  induction rest generalizing position pending tokens with
  | nil =>
    cases pending with
    | atom piece =>
      simp only [scan, Except.ok.injEq] at h
      subst h
      refine ⟨?_, fun t ht => ?_⟩
      · rw [totalLength_finish]
        simp [totalLength, Pending.piece]
      · rcases finish_mem ht with ⟨rfl, hp⟩ | ht
        · simpa using hp
        · simp at ht
    | group start depth piece => simp [scan] at h
  | cons c rest ih =>
    cases pending with
    | atom piece =>
      simp only [scan] at h
      split at h
      · obtain ⟨ts, hts, rfl⟩ := map_eq_ok h
        obtain ⟨hl, hne⟩ := ih hts
        refine ⟨?_, fun t ht => ?_⟩
        · simp only [totalLength_finish, Pending.piece, List.length_cons, List.length_nil] at hl ⊢
          omega
        · rcases finish_mem ht with ⟨rfl, hp⟩ | ht
          · simpa using hp
          · exact hne t ht
      · split at h
        · simp at h
        · split at h
          · obtain ⟨ts, hts, rfl⟩ := map_eq_ok h
            obtain ⟨hl, hne⟩ := ih hts
            refine ⟨?_, fun t ht => ?_⟩
            · simp only [totalLength_finish, Pending.piece, List.length_cons,
                List.length_nil] at hl ⊢
              omega
            · rcases finish_mem ht with ⟨rfl, hp⟩ | ht
              · simpa using hp
              · exact hne t ht
          · obtain ⟨hl, hne⟩ := ih h
            refine ⟨?_, hne⟩
            simp only [Pending.piece, List.length_cons] at hl ⊢
            omega
    | group start depth piece =>
      have grow : ∀ {start depth : Nat},
          scan input (position + 1) (.group start depth (c :: piece)) rest = .ok tokens →
            totalLength tokens ≤ piece.length + (c :: rest).length ∧ ∀ t ∈ tokens, t ≠ [] := by
        intro start depth hg
        obtain ⟨hl, hne⟩ := ih hg
        refine ⟨?_, hne⟩
        simp only [Pending.piece, List.length_cons] at hl ⊢
        omega
      simp only [scan] at h
      split at h
      · exact grow h
      · split at h
        · split at h
          · obtain ⟨ts, hts, rfl⟩ := map_eq_ok h
            obtain ⟨hl, hne⟩ := ih hts
            refine ⟨?_, fun t ht => ?_⟩
            · simp only [totalLength, Pending.piece, List.length_reverse, List.length_cons,
                List.length_nil] at hl ⊢
              omega
            · rcases List.mem_cons.mp ht with rfl | ht
              · simp
              · exact hne t ht
          · exact grow h
        · exact grow h

theorem tokenize_bounds {input : Text} {tokens : List Text} (h : tokenize input = .ok tokens) :
    totalLength tokens ≤ input.length ∧ ∀ t ∈ tokens, t ≠ [] := by
  obtain ⟨hl, hne⟩ := scan_bounds h
  refine ⟨?_, hne⟩
  have := Text.length_trim_le input
  simp only [Pending.piece, List.length_nil] at hl
  omega

theorem length_le_totalLength {tokens : List Text} {t : Text} (h : t ∈ tokens) :
    t.length ≤ totalLength tokens := by
  induction tokens with
  | nil => simp at h
  | cons s rest ih =>
    rcases List.mem_cons.mp h with rfl | h
    · simp [totalLength]
    · have := ih h
      simp only [totalLength] at this ⊢
      omega

/-- A token that is not the first is shorter than the text. -/
theorem length_lt_of_mem_tail {input symbol : Text} {operands : List Text} {operand : Text}
    (h : tokenize input = .ok (symbol :: operands)) (hm : operand ∈ operands) :
    operand.length < input.length := by
  obtain ⟨hl, hne⟩ := tokenize_bounds h
  have hs : 0 < symbol.length := List.length_pos_iff.mpr (hne symbol (by simp))
  have ho := length_le_totalLength hm
  simp only [totalLength] at hl ho
  omega

theorem length_strip_lt {token : Text} (h : isGroup token = true) :
    (strip token).length < token.length := by
  cases token with
  | nil => simp [isGroup] at h
  | cons c rest =>
    have hl : (strip (c :: rest)).length = rest.length - 1 := by
      rw [strip, if_pos h, List.tail_cons, List.length_dropLast]
    rw [hl, List.length_cons]
    omega

/-- The content of a group is shorter than the text the group is a token of. -/
theorem length_strip_lt_of_tokenize {input token : Text} (h : tokenize input = .ok [token])
    (hg : isGroup token = true) : (strip token).length < input.length := by
  have hl := (tokenize_bounds h).1
  have hs := length_strip_lt hg
  simp only [totalLength] at hl
  omega

end Token
end ScoreFormula
