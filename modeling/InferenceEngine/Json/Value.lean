import InferenceEngine.NameMap
import InferenceEngine.Number.Single
import InferenceEngine.Json.Tree

/-!
# JSON values

A `Json` is what a text means once nothing but the meaning is left: numbers are integers of at
most 64 bits or finite doubles, objects bind each name once in ascending order (`Json.Canonical`).

`Numeral.number?` is the meaning of a number literal and `Number.numeral` a literal for a number.
-/

namespace InferenceEngine.Json

/-- One more than the greatest signed 64-bit word, and minus the least one. -/
def signedLimit : Int := 0x8000000000000000

/-- An integer that fits a signed or an unsigned 64-bit word. -/
def FitsWord (n : Int) : Prop := -signedLimit ≤ n ∧ n < UInt64.size

instance (n : Int) : Decidable (FitsWord n) := inferInstanceAs (Decidable (_ ∧ _))

/-- A JSON number. -/
inductive Number
  /-- an integer in the range of a 64-bit word -/
  | integer (n : Int) (fits : FitsWord n)
  /-- any other number, rounded to a finite double -/
  | real (x : Double) (finite : x.isFinite = true)
deriving DecidableEq

namespace Number

/-- Doubles are shown with the fewest digits that identify them, a tie to the even digit,
positionally when the first digit has an exponent from -5 to 15. -/
def style : Binary.Style := ⟨.toEven, -5, 15⟩

/-- The literal a double is written as. -/
def numeralOfDouble (x : Double) : Numeral := style.write Binary.double x.bits.toNat

/-- The literal a number is written as. -/
def numeral : Number → Numeral
  | integer n _ => Numeral.ofInt n
  | real x _ => numeralOfDouble x

/-- The number in double precision. -/
def toDouble : Number → Double
  | integer n _ => Double.ofInt n
  | real x _ => x

/-- The number in single precision, rounded once from what is held. -/
def toSingle : Number → Single
  | integer n _ => Single.ofInt n
  | real x _ => Single.ofDouble x

end Number

/-! ## The meaning of a number literal

A literal is cut into a significand of as many leading digits as fit 64 bits and a power of ten.
Digits before the point that do not fit still count as powers of ten, digits after it are dropped.
The significand is then scaled by one multiplication or division in double precision, which need
not give the double nearest to the literal. -/

namespace Scale

/-- Takes digits into the significand while it fits a 64-bit word; gives back the digits that
are left over. -/
def take (significand : Nat) : List Digit → Nat × List Digit
  | [] => (significand, [])
  | d :: ds =>
    if 10 * significand + d.val < UInt64.size then take (10 * significand + d.val) ds
    else (significand, d :: ds)

/-- A power of ten up to the greatest one below the largest double. -/
def powerOfTen (k : Nat) : Double := ⟨UInt64.ofNat (Binary.double.nearest (Nat.pow 10 k) 1)⟩

/-- The greatest exponent of ten that is scaled by in one step. -/
def greatest : Nat := 308

/-- Divides by a power of ten in steps of the greatest one; two such steps take every significand
to zero. -/
def down : Nat → Double → Nat → Double
  | 0, x, _ => x
  | steps + 1, x, k =>
    if k ≤ greatest then x.div (powerOfTen k)
    else if x.isZero then x
    else down steps (x.div (powerOfTen greatest)) (k - greatest)

/-- The significand scaled by a power of ten, unless the result is too large. -/
def scaled? (significand : Nat) (exponent : Int) : Option Double :=
  let x := Double.ofInt significand
  if exponent < 0 then some (down 4 x exponent.natAbs)
  else if exponent ≤ greatest then
    let y := x.mul (powerOfTen exponent.toNat)
    if y.isFinite then some y else none
  else if significand = 0 then some x
  else none

end Scale

end InferenceEngine.Json

namespace InferenceEngine.Numeral

open Json

/-- The significand and the power of ten of a literal, its written exponent aside. -/
def parts (n : Numeral) : Nat × Int :=
  let (s, excess) := Scale.take 0 n.whole
  let (s, left) := Scale.take s n.fraction
  (s, (excess.length : Int) - (n.fraction.length - left.length))

/-- The exponent as written. -/
def writtenExponent (n : Numeral) : Int :=
  match n.exponent with
  | none => 0
  | some (true, ds) => -(Digits.value ds : Int)
  | some (false, ds) => Digits.value ds

/-- The value of a literal in double precision, unless it is too large. -/
def double? (n : Numeral) : Option Double :=
  let (s, k) := n.parts
  (Scale.scaled? s (k + n.writtenExponent)).map fun x => if n.negative then x.neg else x

/-- The meaning of a literal: an integer where it is written as one in the range of a word, a
double otherwise. A negative zero is a double, as it is no integer. -/
def number? (n : Numeral) : Option Number :=
  let value : Int := if n.negative then -(Digits.value n.whole : Int) else Digits.value n.whole
  if h : n.isWhole ∧ ¬(n.negative ∧ value = 0) ∧ FitsWord value then
    some (.integer value h.2.2)
  else
    match n.double? with
    | none => none
    | some x => if h : x.isFinite = true then some (.real x h) else none

/-- The natural number of a literal that is nothing but at most 64 bits worth of digits. -/
def count? (n : Numeral) : Option UInt64 :=
  if n.isWhole ∧ ¬n.negative ∧ Digits.value n.whole < UInt64.size then
    some (UInt64.ofNat (Digits.value n.whole))
  else none

end InferenceEngine.Numeral

namespace InferenceEngine

/-- A JSON value. -/
inductive Json
  | null
  | bool (value : Bool)
  | number (value : Json.Number)
  | string (value : String)
  | array (items : List Json)
  | object (members : List (String × Json))

namespace Json

/-- Every object in the value binds its names in strictly ascending order. -/
inductive Canonical : Json → Prop
  | null : Canonical .null
  | bool (b : Bool) : Canonical (.bool b)
  | number (n : Number) : Canonical (.number n)
  | string (s : String) : Canonical (.string s)
  | array {items : List Json} (h : ∀ x ∈ items, Canonical x) : Canonical (.array items)
  | object {members : List (String × Json)} (ascending : Ascending members)
      (h : ∀ m ∈ members, Canonical m.2) : Canonical (.object members)

/-! ## Equality -/

mutual

/-- Equality of values is decidable. -/
def decEq : (x y : Json) → Decidable (x = y)
  | .null, .null => isTrue rfl
  | .bool a, .bool b => if h : a = b then isTrue (h ▸ rfl) else isFalse fun e => h (by injection e)
  | .number a, .number b =>
    if h : a = b then isTrue (h ▸ rfl) else isFalse fun e => h (by injection e)
  | .string a, .string b =>
    if h : a = b then isTrue (h ▸ rfl) else isFalse fun e => h (by injection e)
  | .array a, .array b =>
    match decEqItems a b with
    | isTrue h => isTrue (h ▸ rfl)
    | isFalse h => isFalse fun e => h (by injection e)
  | .object a, .object b =>
    match decEqMembers a b with
    | isTrue h => isTrue (h ▸ rfl)
    | isFalse h => isFalse fun e => h (by injection e)
  | .null, .bool _ | .null, .number _ | .null, .string _ | .null, .array _ | .null, .object _
  | .bool _, .null | .bool _, .number _ | .bool _, .string _ | .bool _, .array _
  | .bool _, .object _ | .number _, .null | .number _, .bool _ | .number _, .string _
  | .number _, .array _ | .number _, .object _ | .string _, .null | .string _, .bool _
  | .string _, .number _ | .string _, .array _ | .string _, .object _ | .array _, .null
  | .array _, .bool _ | .array _, .number _ | .array _, .string _ | .array _, .object _
  | .object _, .null | .object _, .bool _ | .object _, .number _ | .object _, .string _
  | .object _, .array _ => isFalse (by intro e; injection e)

/-- Equality of lists of values is decidable. -/
def decEqItems : (xs ys : List Json) → Decidable (xs = ys)
  | [], [] => isTrue rfl
  | [], _ :: _ => isFalse (by intro e; injection e)
  | _ :: _, [] => isFalse (by intro e; injection e)
  | x :: xs, y :: ys =>
    match decEq x y, decEqItems xs ys with
    | isTrue h, isTrue h' => isTrue (h ▸ h' ▸ rfl)
    | isFalse h, _ => isFalse fun e => h (by injection e)
    | _, isFalse h => isFalse fun e => h (by injection e)

/-- Equality of lists of members is decidable. -/
def decEqMembers : (xs ys : List (String × Json)) → Decidable (xs = ys)
  | [], [] => isTrue rfl
  | [], _ :: _ => isFalse (by intro e; injection e)
  | _ :: _, [] => isFalse (by intro e; injection e)
  | (k, x) :: xs, (l, y) :: ys =>
    if hk : k = l then
      match decEq x y, decEqMembers xs ys with
      | isTrue h, isTrue h' => isTrue (hk ▸ h ▸ h' ▸ rfl)
      | isFalse h, _ => isFalse fun e => h (by injection e with e; injection e)
      | _, isFalse h => isFalse fun e => h (by injection e)
    else isFalse fun e => hk (by injection e with e; injection e)

end

instance : DecidableEq Json := decEq

/-! ## Views -/

/-- The member of an object under a name; other values have none. -/
def get? (j : Json) (name : String) : Option Json :=
  match j with
  | .object members => members.lookup name
  | _ => none

/-! ## Writing -/

mutual

/-- The tree a value is written as. -/
def tree : Json → Tree
  | .null => .null
  | .bool b => .bool b
  | .number n => .number n.numeral
  | .string s => .ofString s
  | .array xs => .array (treeItems xs)
  | .object ms => .object (treeMembers ms)

/-- The trees of a list of values. -/
def treeItems : List Json → List Tree
  | [] => []
  | x :: xs => tree x :: treeItems xs

/-- The trees of the members of an object. -/
def treeMembers : List (String × Json) → List (Literal × Tree)
  | [] => []
  | (k, x) :: ms => (Literal.ofString k, tree x) :: treeMembers ms

end

end Json

end InferenceEngine
