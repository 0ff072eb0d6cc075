import ScoreFormula.Double

/-!
# The stream of random draws

Draws are taken from the keystream of the ChaCha cipher with eight rounds under a
fixed key, so that every run sees the same stream.  `draw k` is the `k`-th draw, a
double in `[0, 1)` made of the 53 leading bits of two consecutive keystream words.
A block of the keystream depends only on its number, so a draw depends only on its
index and the state of a generator is the number of draws it has made.
-/

namespace ScoreFormula

namespace Keystream

abbrev Block := Vector UInt32 16

/-- The cipher's constant words, the key, the block number in two words and two
zero words. -/
def start (number : Nat) : Block :=
  #v[0x61707865, 0x3320646e, 0x79622d32, 0x6b206574,
     0xf973f2ec, 0x45cdb581, 0x7346f087, 0xad6cad06,
     0xe3a3d0d0, 0x67e71733, 0x72ea9bf2, 0xfe7d8ad7,
     UInt32.ofNat number, UInt32.ofNat (number >>> 32), 0, 0]

def rotate (w n : UInt32) : UInt32 := (w <<< n) ||| (w >>> (32 - n))

/-- Adds word `b` to word `a` and mixes the sum into word `d`, rotated by `n`. -/
def mix (s : Block) (a b d : Fin 16) (n : UInt32) : Block :=
  let s := s.set a (s[a] + s[b])
  s.set d (rotate (s[d] ^^^ s[a]) n)

def quarterRound (s : Block) (a b c d : Fin 16) : Block :=
  let s := mix s a b d 16
  let s := mix s c d b 12
  let s := mix s a b d 8
  mix s c d b 7

/-- One round on the columns of the four by four words and one on the diagonals. -/
def doubleRound (s : Block) : Block :=
  let s := quarterRound s 0 4 8 12
  let s := quarterRound s 1 5 9 13
  let s := quarterRound s 2 6 10 14
  let s := quarterRound s 3 7 11 15
  let s := quarterRound s 0 5 10 15
  let s := quarterRound s 1 6 11 12
  let s := quarterRound s 2 7 8 13
  quarterRound s 3 4 9 14

/-- The words of a block: eight rounds, then the starting words added. -/
def block (number : Nat) : Block :=
  let s := start number
  let mixed := doubleRound (doubleRound (doubleRound (doubleRound s)))
  mixed.zipWith (· + ·) s

end Keystream

/-- The draw of index `k`.  The words are taken in pairs with the low word first,
eight pairs to a block. -/
def draw (k : Nat) : Double :=
  let words := Keystream.block (k / 8)
  let pair := k % 8
  have bound : pair < 8 := Nat.mod_lt k (by decide)
  let low := words[2 * pair].toUInt64
  let high := words[2 * pair + 1].toUInt64
  .ofFloat ((((high <<< 32) ||| low) >>> 11).toFloat / 9007199254740992)

/-- How many draws each of the two random operators has made.  Both count through
the same stream from its beginning. -/
structure Draws where
  rand : Nat
  randIn : Nat
deriving DecidableEq, Repr

namespace Draws

def start : Draws := ⟨0, 0⟩

def advance (d : Draws) (p q : Nat) : Draws := ⟨d.rand + p, d.randIn + q⟩

theorem advance_zero (d : Draws) : d.advance 0 0 = d := rfl

theorem advance_advance (d : Draws) (p q p' q' : Nat) :
    (d.advance p q).advance p' q' = d.advance (p + p') (q + q') := by
  simp [advance, Nat.add_assoc]

end Draws
end ScoreFormula
