import InferenceEngine.Text.Quoted

/-!
# Run identifiers

Every pass over a program has an identifier of 128 bits, drawn at random. Log lines show its first
eight hexadecimal digits.
-/

namespace InferenceEngine

/-- The identifier of a run. -/
structure RunId where
  /-- the first sixty-four bits -/
  high : UInt64
  /-- the last sixty-four bits -/
  low : UInt64
deriving DecidableEq

namespace RunId

/-- The identifier made of random bits: the version and variant fields are fixed, the other bits
are kept. -/
def ofRandom (high low : UInt64) : RunId where
  high := (high &&& 0xffffffffffff0fff) ||| 0x4000
  low := (low &&& 0x3fffffffffffffff) ||| 0x8000000000000000

/-- The version field. -/
def version (id : RunId) : Nat := id.high.toNat / 0x1000 % 0x10

/-- The first eight hexadecimal digits. -/
def lead (id : RunId) : String := String.ofList (Text.paddedHex 8 (id.high.toNat / 0x100000000))

/-- All digits, in five groups. -/
def text (id : RunId) : String :=
  let h := Text.paddedHex 16 id.high.toNat
  let l := Text.paddedHex 16 id.low.toNat
  String.ofList (h.take 8 ++ '-' :: (h.drop 8).take 4 ++ '-' :: h.drop 12 ++ '-' :: l.take 4 ++
    '-' :: l.drop 4)

end RunId

end InferenceEngine
