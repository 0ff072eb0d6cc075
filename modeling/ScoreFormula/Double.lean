/-!
# Doubles as bits

A double is kept as its 64 bits: the sign, eleven bits of exponent and 52 bits of fraction.
Storing it, passing it on and choosing between two keep all of them.  So do changes of the
sign, and NaNs that differ in sign or fraction stay different doubles.

Arithmetic is that of `Float`, which has a single NaN.  Which NaN arithmetic results in is
left open by the standard, and here it is always the same one.
-/

namespace ScoreFormula

structure Double where
  bits : UInt64
deriving DecidableEq, Repr

namespace Double

def infinity : Double := ⟨0x7ff0000000000000⟩

def nan : Double := ⟨0x7ff8000000000000⟩

/-! ## Fields -/

def isNegative (x : Double) : Bool := 1 <<< 63 ≤ x.bits.toNat

/-- The leading bit of a coefficient, which is implied and stands above the fraction. -/
def leadingBit : Nat := 1 <<< 52

def exponentField (x : Double) : Nat := x.bits.toNat / leadingBit % 2048

def fraction (x : Double) : Nat := x.bits.toNat % leadingBit

def isFinite (x : Double) : Bool := x.exponentField != 2047

def isNaN (x : Double) : Bool := x.exponentField == 2047 && x.fraction != 0

/-- The bit of the sign. -/
def signBit : UInt64 := 0x8000000000000000

def negate (x : Double) : Double := ⟨x.bits ^^^ signBit⟩

def abs (x : Double) : Double := ⟨x.bits &&& ~~~signBit⟩

/-! ## Arithmetic -/

def ofFloat (x : Float) : Double := ⟨x.toBits⟩

/-- The number to compute with, where all NaNs are one. -/
def toFloat (x : Double) : Float := Float.ofBits x.bits

instance (n : Nat) : OfNat Double n := ⟨ofFloat (Float.ofNat n)⟩

example : (0 : Double).bits = 0 := rfl

/-- A function of numbers on doubles. -/
def map (f : Float → Float) (x : Double) : Double := ofFloat (f x.toFloat)

def map₂ (f : Float → Float → Float) (x y : Double) : Double := ofFloat (f x.toFloat y.toFloat)

end Double
end ScoreFormula
