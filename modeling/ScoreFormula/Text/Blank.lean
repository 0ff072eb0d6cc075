/-!
# Text and its blank edges

Text is a list of code points, so that a position is an index and a length is a
count of code points.  The blanks are the characters with the Unicode property
`White_Space`; `trim` removes them from both ends.
-/

namespace ScoreFormula

/-- Text, as the list of its code points. -/
abbrev Text := List Char

namespace Text

/-- The Unicode property `White_Space`: 25 characters, of which only some also
separate the atoms of a formula. -/
def isBlank (c : Char) : Bool :=
  let n := c.toNat
  (0x9 ≤ n && n ≤ 0xD) || n == 0x20 || n == 0x85 || n == 0xA0 || n == 0x1680 ||
    (0x2000 ≤ n && n ≤ 0x200A) || n == 0x2028 || n == 0x2029 || n == 0x202F ||
    n == 0x205F || n == 0x3000

def trimStart (t : Text) : Text := t.dropWhile isBlank

def trimEnd (t : Text) : Text := (t.reverse.dropWhile isBlank).reverse

/-- The text without the blanks at its two ends. -/
def trim (t : Text) : Text := trimEnd (trimStart t)

theorem length_trim_le (t : Text) : (trim t).length ≤ t.length := by
  have hs : (trimStart t).length ≤ t.length := (List.dropWhile_sublist isBlank).length_le
  have he : (trim t).length ≤ (trimStart t).length := by
    have h := (List.dropWhile_sublist (l := (trimStart t).reverse) isBlank).length_le
    simpa [trim, trimEnd] using h
  exact Nat.le_trans he hs

/-- Decimal digits of a count, as written in messages. -/
def ofNat (n : Nat) : Text := Nat.toDigits 10 n

end Text
end ScoreFormula
