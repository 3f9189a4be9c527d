/-!
# Decimal digits

A decimal literal is kept as the digits it is written with, so that reading it and writing it are
two functions on one type.

* `Digits.ofNat`, `Digits.value` are the two directions between numbers and digit lists.
* `Numeral` is a signed literal with optional fraction and exponent, `Numeral.text` its spelling.
-/

namespace InferenceEngine

/-- A decimal digit. -/
abbrev Digit := Fin 10

namespace Digit

/-- The digit nought. -/
def zero : Digit := ⟨0, by decide⟩

/-- The character of a digit. -/
def toChar (d : Digit) : Char := Char.ofNat (48 + d.val)

/-- The digit a character stands for. -/
def ofChar? (c : Char) : Option Digit :=
  if h : 48 ≤ c.toNat ∧ c.toNat < 58 then some ⟨c.toNat - 48, by omega⟩ else none

theorem ofChar?_toChar (d : Digit) : ofChar? d.toChar = some d := by
  revert d; decide

end Digit

namespace Digits

/-- The number a digit list spells, most significant digit first. -/
def value (ds : List Digit) : Nat := ds.foldl (fun n d => 10 * n + d.val) 0

/-- Puts the digits of `n` in front of `tail`; every round removes one digit, so `n + 1` rounds
are enough. -/
def push : Nat → Nat → List Digit → List Digit
  | 0, _, tail => tail
  | rounds + 1, n, tail =>
    let d : Digit := ⟨n % 10, Nat.mod_lt _ (by decide)⟩
    if n < 10 then d :: tail else push rounds (n / 10) (d :: tail)

/-- The digits of a number, without leading zeros; zero has one digit. -/
def ofNat (n : Nat) : List Digit := push (n + 1) n []

/-- The spelling of a digit list. -/
def text (ds : List Digit) : List Char := ds.map Digit.toChar

/-- A number is what its digits are read as, behind which further digits may follow. -/
theorem foldl_push (rounds n : Nat) (tail : List Digit) (h : n < rounds) :
    (push rounds n tail).foldl (fun n d => 10 * n + d.val) 0 =
      tail.foldl (fun n d => 10 * n + d.val) n := by
  induction rounds generalizing n tail with
  | zero => omega
  | succ rounds ih =>
    simp only [push]
    split
    · simp; congr 1; omega
    · rw [ih _ _ (by omega)]
      simp; congr 1; omega

@[simp] theorem value_ofNat (n : Nat) : value (ofNat n) = n := by
  simp [value, ofNat, foldl_push n.succ n [] (by omega)]

end Digits

/-- A decimal literal as written. -/
structure Numeral where
  /-- a minus sign stands in front -/
  negative : Bool
  /-- the digits before the point -/
  whole : List Digit
  /-- the digits after the point; none when there is no point -/
  fraction : List Digit
  /-- the exponent: whether it is negative, and its digits -/
  exponent : Option (Bool × List Digit)
deriving DecidableEq

namespace Numeral

/-- The literal of an integer. -/
def ofInt (n : Int) : Numeral := ⟨n < 0, Digits.ofNat n.natAbs, [], none⟩

/-- The literal is written as an integer: without point and exponent. -/
def isWhole (n : Numeral) : Bool := n.fraction.isEmpty && n.exponent.isNone

/-- The spelling of a literal. A positive exponent gets `sign` in front of its digits. -/
def text (sign : List Char) (n : Numeral) : List Char :=
  (if n.negative then ['-'] else []) ++ Digits.text n.whole ++
    (if n.fraction.isEmpty then [] else '.' :: Digits.text n.fraction) ++
    match n.exponent with
    | none => []
    | some (negative, ds) => 'e' :: (if negative then ['-'] else sign) ++ Digits.text ds

end Numeral

end InferenceEngine
