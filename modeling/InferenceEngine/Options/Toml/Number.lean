import InferenceEngine.Json.Reader
import InferenceEngine.Options.Setting

/-!
# Numbers in TOML documents

Whole numbers are written in one of four bases and have to fit a signed word. Other numbers have a
fraction or an exponent, or are one of two words, and mean the nearest double.

* `Toml.integer?` and `Toml.real?` are what a word means as a number of either kind.
-/

namespace InferenceEngine.Toml

/-! ## Digits -/

/-- Digits of a base, in groups that single underscores may divide. -/
def grouped? (digit? : Char → Option Nat) : List Char → Option (List Nat)
  | [] => none
  | [c] => (digit? c).map ([·])
  | c :: '_' :: rest => do
    let d ← digit? c
    let ds ← grouped? digit? rest
    return d :: ds
  | c :: rest => do
    let d ← digit? c
    let ds ← grouped? digit? rest
    return d :: ds

/-- A digit of a base up to ten. -/
def digitBelow? (base : Nat) (c : Char) : Option Nat :=
  if 48 ≤ c.toNat ∧ c.toNat < 48 + base then some (c.toNat - 48) else none

/-- The value of digits in a base. -/
def valueIn (base : Nat) (ds : List Nat) : Nat := ds.foldl (fun n d => base * n + d) 0

/-- Digits without a needless zero in front. -/
def plainDigits? (cs : List Char) : Option (List Nat) := do
  let ds ← grouped? (digitBelow? 10) cs
  match ds with
  | 0 :: _ :: _ => none
  | ds => some ds

/-- The sign of a number, if there is one. -/
def sign : List Char → Bool × List Char
  | '-' :: rest => (true, rest)
  | '+' :: rest => (false, rest)
  | cs => (false, cs)

/-! ## Whole numbers -/

/-- A whole number that fits a signed word. -/
def integer? (cs : List Char) : Option Setting := do
  let n : Int ← match cs with
    | '0' :: 'x' :: rest => (grouped? Json.Read.hexDigit? rest).map fun ds => valueIn 16 ds
    | '0' :: 'o' :: rest => (grouped? (digitBelow? 8) rest).map fun ds => valueIn 8 ds
    | '0' :: 'b' :: rest => (grouped? (digitBelow? 2) rest).map fun ds => valueIn 2 ds
    | cs =>
      let (negative, cs) := sign cs
      (plainDigits? cs).map fun ds => if negative then -(valueIn 10 ds : Int) else valueIn 10 ds
  if -Json.signedLimit ≤ n ∧ n < Json.signedLimit then some (.integer n) else none

/-! ## Other numbers -/

/-- The double nearest to decimal digits times a power of ten. A number below `10 ^ -400` counts
as zero and one from `10 ^ 400` on as infinite, which no double comes near. -/
def doubleOf (negative : Bool) (ds : List Nat) (exponent : Int) : Double :=
  let ds := ds.dropWhile (· = 0)
  let top : Int := exponent + ds.length
  let (num, den) :=
    if ds.isEmpty ∨ top < -400 then (0, 1)
    else if 400 < top then (Nat.pow 10 400, 1)
    else (valueIn 10 ds * Nat.pow 10 exponent.toNat, Nat.pow 10 (-exponent).toNat)
  ⟨UInt64.ofNat (Binary.double.signed negative num den)⟩

/-- A number with a fraction or an exponent, or one of the two special words. -/
def real? (cs : List Char) : Option Setting := do
  let (negative, rest) := sign cs
  if rest = ['i', 'n', 'f'] then
    return .real ⟨UInt64.ofNat ((if negative then Binary.double.sign else 0) +
      Binary.double.infinity)⟩
  -- the sign of what is no number does not count
  if rest = ['n', 'a', 'n'] then return .real ⟨UInt64.ofNat (Binary.double.infinity + 1)⟩
  let whole := rest.takeWhile fun c => c ≠ '.' ∧ c ≠ 'e' ∧ c ≠ 'E'
  let w ← plainDigits? whole
  let rest := rest.drop whole.length
  let (f, rest) ← match rest with
    | '.' :: rest => do
      let part := rest.takeWhile fun c => c ≠ 'e' ∧ c ≠ 'E'
      let ds ← grouped? (digitBelow? 10) part
      some (ds, rest.drop part.length)
    | rest => some ([], rest)
  let e : Int ← match rest with
    -- digits alone are a whole number, which is read elsewhere
    | [] => if f.isEmpty then none else some 0
    | _ :: rest => do
      let (negative, rest) := sign rest
      let ds ← grouped? (digitBelow? 10) rest
      some (if negative then -(valueIn 10 ds : Int) else valueIn 10 ds)
  let x := doubleOf negative (w ++ f) (e - f.length)
  if x.isFinite ∨ negative then return .real x else none

end InferenceEngine.Toml
