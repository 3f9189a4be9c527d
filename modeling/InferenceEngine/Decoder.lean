import InferenceEngine.Failure
import InferenceEngine.Text.Quoted

/-!
# Decoders of weights

A decoder turns the bytes of a weight file into the flat sequence of weights. Decoders are looked
up by the encoding that a descriptor names.

* `decodeRaw` reads little-endian 32-bit patterns that lie back to back.
* `DecoderRegistry.builtin` knows that one under the name `raw`.
-/

namespace InferenceEngine

/-- The bytes of a file. -/
abbrev Bytes := List UInt8

/-- Turns the bytes of encoded weights into the values of a layout. -/
abbrev Decoder := Bytes → Layout → Outcome (List Single)

/-! ## The raw encoding -/

/-- The value whose pattern is a little-endian word. -/
def Single.ofBytes (a b c d : UInt8) : Single :=
  ⟨a.toUInt32 ||| (b.toUInt32 <<< 8) ||| (c.toUInt32 <<< 16) ||| (d.toUInt32 <<< 24)⟩

/-- The pattern of a value as a little-endian word. -/
def Single.toBytes (x : Single) : Bytes :=
  [x.bits.toUInt8, (x.bits >>> 8).toUInt8, (x.bits >>> 16).toUInt8, (x.bits >>> 24).toUInt8]

/-- The values of a sequence of little-endian words; fewer than four bytes at the end are left
out. -/
def words : Bytes → List Single
  | a :: b :: c :: d :: rest => Single.ofBytes a b c d :: words rest
  | _ => []

/-- Decodes little-endian words, whose number has to be that of the layout's elements. -/
def decodeRaw : Decoder := fun bytes l =>
  if bytes.length % 4 ≠ 0 then .error (.decode (.ragged bytes.length))
  else if bytes.length / 4 ≠ l.totalSize.toNat then
    .error (.decode (.miscounted (bytes.length / 4) l.totalSize.toNat))
  else .ok (words bytes)

/-! ## Other encodings -/

/-- Decodes anything to as many zeros as the layout has elements. -/
def decodeZeros : Decoder := fun _ l => .ok (List.replicate l.totalSize.toNat .zero)

/-- Decodes every byte to the number it spells. -/
def decodeBytes : Decoder := fun bytes _ => .ok (bytes.map fun b => .ofInt b.toNat)

/-- Decodes anything to the same values. -/
def decodeFixed (values : List Single) : Decoder := fun _ _ => .ok values

/-- Refuses everything. -/
def decodeNothing (text : String) : Decoder := fun _ _ => .error (.custom text)

/-! ## Registries -/

/-- The decoders a runner may use, by encoding. -/
structure DecoderRegistry where
  /-- the decoders -/
  decoders : NameMap Decoder

namespace DecoderRegistry

/-- The registry without decoders. -/
def empty : DecoderRegistry := ⟨.empty⟩

/-- Adds a decoder, replacing one of the same encoding. -/
def register (r : DecoderRegistry) (encoding : String) (decoder : Decoder) : DecoderRegistry :=
  ⟨r.decoders.insert encoding decoder⟩

/-- The registry of the decoders that are always there. -/
def builtin : DecoderRegistry := empty.register "raw" decodeRaw

/-- The decoder of an encoding. -/
def find (r : DecoderRegistry) (encoding : String) : Except Failure Decoder :=
  match r.decoders.get? encoding with
  | some decoder => .ok decoder
  | none => .error (.unsupportedEncoding encoding)

/-- The encodings, ascending. -/
def encodings (r : DecoderRegistry) : List String := r.decoders.names

/-- How a registry is shown. -/
def text (r : DecoderRegistry) : String :=
  Text.describe "DecoderRegistry" [("encodings", Text.quoteList r.encodings)]

end DecoderRegistry

end InferenceEngine
