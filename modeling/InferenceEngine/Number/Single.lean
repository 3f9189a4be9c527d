import InferenceEngine.Number.Double

/-!
# Single precision values

The element type of tensors. A `Single` is its 32-bit pattern, so that copying an element keeps
every bit of it; sums and products round once to nearest even.
-/

namespace InferenceEngine

/-- A 32-bit binary floating point value, kept as its bit pattern. -/
structure Single where
  /-- the bit pattern -/
  bits : UInt32
deriving DecidableEq, Inhabited

namespace Single

open Binary

/-- The value as the machine computes with it. -/
def toFloat (x : Single) : Float32 := Float32.ofBits x.bits

/-- The pattern of a machine value. -/
def ofFloat (x : Float32) : Single := ⟨x.toBits⟩

/-- Positive zero. -/
def zero : Single := ⟨0⟩

/-- Negative zero, the start of an ordered sum of products. -/
def negativeZero : Single := ⟨0x80000000⟩

/-- One. -/
def one : Single := ⟨0x3f800000⟩

/-- The sum, rounded once. -/
def add (x y : Single) : Single := ofFloat (x.toFloat + y.toFloat)

/-- The product, rounded once. -/
def mul (x y : Single) : Single := ofFloat (x.toFloat * y.toFloat)

instance : Add Single := ⟨add⟩

instance : Mul Single := ⟨mul⟩

/-- The pattern stands for no number. -/
def isNaN (x : Single) : Bool := single.isNaN x.bits.toNat

/-- The greater of the value and zero; what is not a number counts as zero. -/
def rectify (x : Single) : Single :=
  if x.isNaN ∨ single.isNegative x.bits.toNat then zero else x

/-- The value nearest to an integer. -/
def ofInt (n : Int) : Single := ⟨UInt32.ofNat (single.ofInt n)⟩

/-- The value nearest to a double precision one; too large a magnitude becomes infinite. -/
def ofDouble (x : Double) : Single := ⟨UInt32.ofNat (single.convert double x.bits.toNat)⟩

/-- Elements are shown with the fewest digits that identify them, a tie away from zero, and at
least one digit after the point, positionally from `0.0001` up to below `10 ^ 16`. -/
def style : Style := ⟨.away, -4, 15⟩

/-- How an element is shown. -/
def text (x : Single) : String :=
  let b := x.bits.toNat
  if single.isNaN b then "NaN"
  else if single.isFinite b then String.ofList ((style.write single b).text [])
  else if single.isNegative b then "-inf" else "inf"

end Single

end InferenceEngine
