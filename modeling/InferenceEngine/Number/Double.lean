import InferenceEngine.Number.Shortest

/-!
# Double precision values

A `Double` is its 64-bit pattern. Arithmetic goes through the machine type, whose operations round
once to nearest even.
-/

namespace InferenceEngine

/-- A 64-bit binary floating point value, kept as its bit pattern. -/
structure Double where
  /-- the bit pattern -/
  bits : UInt64
deriving DecidableEq

namespace Double

open Binary

/-- The value as the machine computes with it. -/
def toFloat (x : Double) : Float := Float.ofBits x.bits

/-- The pattern of a machine value. -/
def ofFloat (x : Float) : Double := ⟨x.toBits⟩

/-- The value nearest to an integer. -/
def ofInt (n : Int) : Double := ⟨UInt64.ofNat (double.ofInt n)⟩

/-- The product, rounded once. -/
def mul (x y : Double) : Double := ofFloat (x.toFloat * y.toFloat)

/-- The quotient, rounded once. -/
def div (x y : Double) : Double := ofFloat (x.toFloat / y.toFloat)

/-- The value with the other sign. -/
def neg (x : Double) : Double := ⟨x.bits ^^^ 0x8000000000000000⟩

/-- The value is a finite number. -/
def isFinite (x : Double) : Bool := double.isFinite x.bits.toNat

/-- The value is one of the two zeros. -/
def isZero (x : Double) : Bool := double.magnitude x.bits.toNat = 0

/-- The value rounded to a whole number, a half away from zero, then moved into the range of
64-bit naturals. What is not a number counts as zero. -/
def toCount (x : Double) : UInt64 :=
  let b := x.bits.toNat
  if double.isNaN b ∨ double.isNegative b then 0
  else if double.isFinite b then
    let v := double.dyadic b
    UInt64.ofNat (min ((2 * v.num + v.den) / (2 * v.den)) (UInt64.size - 1))
  else UInt64.ofNat (UInt64.size - 1)

end Double

end InferenceEngine
