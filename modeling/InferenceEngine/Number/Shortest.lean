import InferenceEngine.Number.Binary
import InferenceEngine.Number.Digits

/-!
# The shortest decimal that reads back

A finite pattern stands for every real that rounds to it. `Format.shortest` picks, of the decimals
in that interval, one with the fewest digits, and of those the nearest to the value itself; `Tie`
says which of two that are equally near.

`Style` says how a value is written: which way ties go and which exponents are written
positionally.
-/

namespace InferenceEngine.Binary

/-- A value `digits * 10 ^ exponent`. -/
structure Decimal where
  /-- the digits, read as one number -/
  digits : Nat
  /-- the exponent of the last digit -/
  exponent : Int
deriving DecidableEq

namespace Decimal

/-- Moves trailing zeros of the digits into the exponent, at most `rounds` of them. -/
def strip : Nat → Decimal → Decimal
  | 0, x => x
  | rounds + 1, x =>
    if x.digits ≠ 0 ∧ x.digits % 10 = 0 then strip rounds ⟨x.digits / 10, x.exponent + 1⟩ else x

/-- `a * 10 ^ k` compared with `b * 2 ^ q`, by cross multiplication. -/
def compareScaled (a : Nat) (k : Int) (b : Nat) (q : Int) : Ordering :=
  compare (a * Nat.pow 10 k.toNat * Nat.pow 2 (-q).toNat)
    (b * Nat.pow 2 q.toNat * Nat.pow 10 (-k).toNat)

end Decimal

/-- Which of two neighbouring decimals is taken for a value in the middle between them. -/
inductive Tie
  /-- the one whose last digit is even -/
  | toEven
  /-- the one farther from zero -/
  | away
deriving DecidableEq

/-- Of the neighbours `below` and `below + 1` of a tie the upper one is taken. -/
def Tie.takesUpper : Tie → Nat → Bool
  | toEven, below => below % 2 = 1
  | away, _ => true

namespace Format

/-- The decimal reads back to the pattern: it lies between the halfway points to the neighbours,
which count as inside when the significand is even. Below a power of two the neighbour is half
as far. -/
def readsBack (f : Format) (bits : Nat) (x : Decimal) : Bool :=
  let v := f.dyadic bits
  -- in quarters of the last place, so that the halfway points are whole numbers
  let narrow := v.significand = Nat.pow 2 f.fraction ∧ f.least < v.scale
  let low := 4 * v.significand - (if narrow then 1 else 2)
  let high := 4 * v.significand + 2
  let fromLow := Decimal.compareScaled x.digits x.exponent low (v.scale - 2)
  let fromHigh := Decimal.compareScaled x.digits x.exponent high (v.scale - 2)
  if v.significand % 2 = 0 then fromLow ≠ .lt ∧ fromHigh ≠ .gt else fromLow = .gt ∧ fromHigh = .lt

/-- The least `k` with the value below `10 ^ k`. -/
def decimalTop (f : Format) (bits : Nat) : Int :=
  let v := f.dyadic bits
  -- the lengths give the power up to one
  let guess : Int := ((Digits.ofNat v.num).length : Int) - ((Digits.ofNat v.den).length : Int)
  if Decimal.compareScaled 1 guess v.significand v.scale = .gt then guess else guess + 1

/-- The best decimal on the grid of `count` digits, if one of the two neighbours of the value on
that grid reads back. -/
def onGrid (f : Format) (tie : Tie) (bits : Nat) (top : Int) (count : Nat) : Option Decimal :=
  let v := f.dyadic bits
  let k : Int := top - count
  let below := v.num * Nat.pow 10 (-k).toNat / (v.den * Nat.pow 10 k.toNat)
  let lower : Decimal := ⟨below, k⟩
  let upper : Decimal := ⟨below + 1, k⟩
  match f.readsBack bits lower, f.readsBack bits upper with
  | false, false => none
  | true, false => some lower
  | false, true => some upper
  | true, true =>
    match Decimal.compareScaled (2 * below + 1) k (2 * v.significand) v.scale with
    | .gt => some lower
    | .lt => some upper
    | .eq => some (if tie.takesUpper below then upper else lower)

/-- The exact value in decimal. -/
def exact (f : Format) (bits : Nat) : Decimal :=
  let v := f.dyadic bits
  if 0 ≤ v.scale then ⟨v.num, 0⟩ else ⟨v.significand * Nat.pow 5 (-v.scale).toNat, v.scale⟩

/-- The shortest decimal that reads back to a finite pattern. Seventeen digits always suffice for
the formats used here; the exact value stands behind the search. -/
def shortest (f : Format) (tie : Tie) (bits : Nat) : Decimal :=
  if f.magnitude bits = 0 then ⟨0, 0⟩ else
    let top := f.decimalTop bits
    let found := (List.range' 1 17).findSome? (f.onGrid tie bits top)
    (found.getD (f.exact bits)).strip 400

end Format

/-- How a value is written in decimal. -/
structure Style where
  /-- which way ties between the shortest decimals go -/
  tie : Tie
  /-- the least exponent of the first digit that is written positionally -/
  leastPlain : Int
  /-- the greatest exponent of the first digit that is written positionally -/
  greatestPlain : Int

namespace Style

/-- The literal of a decimal. Positionally there is always a digit on both sides of the point;
with an exponent the point is left out after a single digit. -/
def numeral (style : Style) (negative : Bool) (x : Decimal) : Numeral :=
  let ds := Digits.ofNat x.digits
  let first : Int := x.exponent + (ds.length - 1 : Int)
  if x.digits = 0 then ⟨negative, [.zero], [.zero], none⟩
  else if style.leastPlain ≤ first ∧ first ≤ style.greatestPlain then
    if 0 ≤ x.exponent then ⟨negative, ds ++ List.replicate x.exponent.toNat .zero, [.zero], none⟩
    else if 0 ≤ first then
      ⟨negative, ds.take (first.toNat + 1), ds.drop (first.toNat + 1), none⟩
    else ⟨negative, [.zero], List.replicate (-first - 1).toNat .zero ++ ds, none⟩
  else ⟨negative, ds.take 1, ds.drop 1, some (first < 0, Digits.ofNat first.natAbs)⟩

/-- The literal that a finite pattern is written as. -/
def write (style : Style) (f : Format) (bits : Nat) : Numeral :=
  style.numeral (f.isNegative bits) (f.shortest style.tie bits)

end Style

end InferenceEngine.Binary
