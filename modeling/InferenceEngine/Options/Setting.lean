import InferenceEngine.CallOption

/-!
# Settings: values of options before they have a type

A configuration file or a variable gives an option a `Setting`. Only the setting that wins in the
end is converted to the type of its option, by `Setting.flag?` or `Setting.count?`.
-/

namespace InferenceEngine

/-- A value that was configured for an option. -/
inductive Setting
  /-- a whole number -/
  | integer (n : Int)
  /-- another number -/
  | real (x : Double)
  /-- a truth value -/
  | flag (b : Bool)
  /-- a text -/
  | text (s : String)
  /-- an explicit absence, which no option accepts -/
  | null
  /-- a list or a table, which no option accepts -/
  | compound
deriving DecidableEq

namespace Setting

/-- The lower case of a character, if that is in ASCII. Besides the capital letters only the Kelvin
sign has such a one. -/
def lowerChar (c : Char) : Char := if c = Char.ofNat 0x212a then 'k' else c.toLower

/-- Words and keys are compared in lower case. Whatever they are compared with is in ASCII, so that
other characters may stay as they are. -/
def lower (s : String) : String := s.map lowerChar

/-- The words for yes. -/
def yesWords : List String := ["true", "on", "yes"]

/-- The words for no. -/
def noWords : List String := ["false", "off", "no"]

/-- A truth value: a number other than zero is true, and words are read in any case. -/
def flag? : Setting → Option Bool
  | integer n => some (n ≠ 0)
  | real x => some (!x.isZero)
  | flag b => some b
  | text s =>
    if lower s = "1" ∨ lower s ∈ yesWords then some true
    else if lower s = "0" ∨ lower s ∈ noWords then some false
    else none
  | null | compound => none

/-- The number that a list of digits and nothing else spells, if it fits 64 bits. -/
def digitCount? (cs : List Char) : Option UInt64 :=
  match cs with
  | [] => none
  | cs => do
    let ds ← Json.allSome Digit.ofChar? cs
    if Digits.value ds < UInt64.size then some (UInt64.ofNat (Digits.value ds)) else none

/-- The number a text spells: digits with an optional plus sign. -/
def parseCount? (s : String) : Option UInt64 :=
  match s.toList with
  | '+' :: cs => digitCount? cs
  | cs => digitCount? cs

/-- A 64-bit natural number: truth values and their words count as one and zero, and a number with
a fraction is rounded and moved into the range. -/
def count? : Setting → Option UInt64
  | integer n => if 0 ≤ n ∧ n < UInt64.size then some (UInt64.ofNat n.toNat) else none
  | real x => some x.toCount
  | flag b => some (if b then 1 else 0)
  | text s =>
    if lower s ∈ yesWords then some 1
    else if lower s ∈ noWords then some 0
    else parseCount? s
  | null | compound => none

/-- The setting of a JSON value. Whole numbers that do not fit a signed word are kept as
doubles. -/
def ofJson : Json → Setting
  | .null => null
  | .bool b => flag b
  | .number (.integer n _) => if n < Json.signedLimit then integer n else real (.ofInt n)
  | .number (.real x _) => real x
  | .string s => text s
  | .array _ | .object _ => compound

end Setting

end InferenceEngine
