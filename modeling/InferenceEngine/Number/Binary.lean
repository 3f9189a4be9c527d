/-!
# Binary formats: bit patterns, values, rounding

A `Format` gives the field widths of a binary interchange format. Patterns are natural numbers
below `2 ^ (1 + exponent + fraction)`; the top bit is the sign.

* `Format.dyadic` reads a finite pattern as `significand * 2 ^ scale`.
* `Format.nearest` is the pattern of the value nearest to a quotient of naturals, ties to even,
  infinity when that value is too large.
-/

namespace InferenceEngine.Binary

/-- The quotient of two naturals rounded to the nearest natural, a tie to the even one. -/
def roundQuotient (num den : Nat) : Nat :=
  let q := num / den
  let r := num % den
  if den < 2 * r ∨ (2 * r = den ∧ q % 2 = 1) then q + 1 else q

/-- A value `significand * 2 ^ scale`. -/
structure Dyadic where
  /-- the whole multiple of the last place -/
  significand : Nat
  /-- the exponent of the last place -/
  scale : Int
deriving DecidableEq

namespace Dyadic

/-- The numerator of the value, written as a quotient of naturals. -/
def num (x : Dyadic) : Nat := x.significand * Nat.pow 2 x.scale.toNat

/-- The denominator of the value, written as a quotient of naturals. -/
def den (x : Dyadic) : Nat := Nat.pow 2 (-x.scale).toNat

end Dyadic

/-- The widths of the fields of an interchange format. -/
structure Format where
  /-- bits of the fraction field -/
  fraction : Nat
  /-- bits of the exponent field -/
  exponent : Nat

/-- The 32-bit format. -/
def single : Format := ⟨23, 8⟩

/-- The 64-bit format. -/
def double : Format := ⟨52, 11⟩

namespace Format

/-- The sign bit, which is also one more than the greatest unsigned pattern. -/
def sign (f : Format) : Nat := Nat.pow 2 (f.exponent + f.fraction)

/-- The unsigned pattern of infinity; the greater ones are not numbers. -/
def infinity (f : Format) : Nat := (Nat.pow 2 f.exponent - 1) * Nat.pow 2 f.fraction

/-- The exponent of the last place of the smallest values. -/
def least (f : Format) : Int := 2 - (Nat.pow 2 (f.exponent - 1) : Nat) - f.fraction

/-- The pattern without its sign. -/
def magnitude (f : Format) (bits : Nat) : Nat := bits % f.sign

/-- The pattern has its sign bit set. -/
def isNegative (f : Format) (bits : Nat) : Bool := f.sign ≤ bits

/-- The pattern stands for a finite number. -/
def isFinite (f : Format) (bits : Nat) : Bool := f.magnitude bits < f.infinity

/-- The pattern stands for no number. -/
def isNaN (f : Format) (bits : Nat) : Bool := f.infinity < f.magnitude bits

/-- The absolute value of a finite pattern. -/
def dyadic (f : Format) (bits : Nat) : Dyadic :=
  let e := f.magnitude bits / Nat.pow 2 f.fraction
  let m := f.magnitude bits % Nat.pow 2 f.fraction
  if e = 0 then ⟨m, f.least⟩ else ⟨Nat.pow 2 f.fraction + m, f.least + (e - 1)⟩

/-- The unsigned pattern of the value nearest to `num / den`. A pattern is the number of values
below it, so the field of the exponent is the count of binades passed, and a carry out of the
fraction moves to the next binade by itself. -/
def nearest (f : Format) (num den : Nat) : Nat :=
  if num = 0 then 0 else
    let guess : Int := (num.log2 : Int) - (den.log2 : Int)
    let top : Int :=
      if num * Nat.pow 2 (-guess).toNat < den * Nat.pow 2 guess.toNat then guess - 1 else guess
    -- below the least exponent the values have fewer digits, all with the same last place
    let scale : Int := max (top - f.fraction) f.least
    let steps := roundQuotient (num * Nat.pow 2 (-scale).toNat) (den * Nat.pow 2 scale.toNat)
    min ((scale - f.least).toNat * Nat.pow 2 f.fraction + steps) f.infinity

/-- The pattern nearest to `num / den`, with a sign. -/
def signed (f : Format) (negative : Bool) (num den : Nat) : Nat :=
  (if negative then f.sign else 0) + f.nearest num den

/-- The pattern nearest to an integer. -/
def ofInt (f : Format) (n : Int) : Nat := f.signed (n < 0) n.natAbs 1

/-- A pattern of `g` rounded to `f`, the sign kept; whatever is not a number becomes the quiet
pattern of `f`. -/
def convert (f g : Format) (bits : Nat) : Nat :=
  if g.isNaN bits then f.infinity + Nat.pow 2 (f.fraction - 1)
  else if g.isFinite bits then
    f.signed (g.isNegative bits) (g.dyadic bits).num (g.dyadic bits).den
  else (if g.isNegative bits then f.sign else 0) + f.infinity

end Format

end InferenceEngine.Binary
