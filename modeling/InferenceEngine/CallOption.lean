import InferenceEngine.Failure

/-!
# Call options

An instruction carries a value that only its kernel understands. A `CallOption` is a canonical JSON
value; the `decode` functions read it as the types that kernels want, and refuse it otherwise.
-/

namespace InferenceEngine

/-- The configuration of one instruction. -/
structure CallOption where
  /-- the value -/
  value : Json
  /-- objects in it are in order -/
  canonical : value.Canonical
deriving DecidableEq

namespace CallOption

/-- The option of an instruction that has none. -/
def default : CallOption := ⟨.null, .null⟩

/-- The option is the one of an instruction that has none. -/
def isDefault (o : CallOption) : Bool := o = default

open Json

/-- Reads an option. -/
def ofTree? (room : Nat) (t : Tree) : Option CallOption :=
  match h : t.value? room with
  | none => none
  | some j => some ⟨j, Tree.canonical_value? room t j h⟩

/-- Reads an option from a text of its own. -/
def ofText? (text : String) : Option CallOption :=
  (Tree.ofText? text).bind (ofTree? nestingLimit)

/-- The member of the option under a name, if the option is an object. -/
def get? (o : CallOption) (name : String) : Option Json := o.value.get? name

/-- The text of an option, without blanks. -/
def text (o : CallOption) : String := String.ofList o.value.tree.compact

end CallOption

namespace Json

/-! ## Values as types -/

/-- A number in single precision. -/
def single? : Json → Option Single
  | .number n => some n.toSingle
  | _ => none

/-- A number in double precision. -/
def double? : Json → Option Double
  | .number n => some n.toDouble
  | _ => none

/-- An integer from `low` to `high`. -/
def integer? (low high : Int) : Json → Option Int
  | .number (.integer n _) => if low ≤ n ∧ n ≤ high then some n else none
  | _ => none

/-- A natural number of at most 64 bits. -/
def count? (j : Json) : Option UInt64 :=
  (j.integer? 0 (UInt64.size - 1)).map fun n => UInt64.ofNat n.toNat

/-- A truth value. -/
def flag? : Json → Option Bool
  | .bool b => some b
  | _ => none

/-- A string. -/
def text? : Json → Option String
  | .string s => some s
  | _ => none

/-- A list of strings. -/
def texts? : Json → Option (List String)
  | .array xs => allSome text? xs
  | _ => none

/-- A value that may be null. -/
def maybe? {α : Type} (item : Json → Option α) : Json → Option (Option α)
  | .null => some none
  | j => (item j).map some

/-- The slots of a record with the given field names. Unknown members do not matter; an array has
to fill every slot. -/
def slots? (names : List String) : Json → Option (List (Option Json))
  | .array xs => if xs.length = names.length then some (xs.map some) else none
  | .object ms => some (names.map fun name => ms.lookup name)
  | _ => none

end Json

/-- A factor and the index of an operand. -/
structure ScaleAxis where
  /-- the factor -/
  scale : Single
  /-- the index -/
  axis : UInt64
deriving DecidableEq

/-- Reads a factor and an index. -/
def ScaleAxis.ofJson? (j : Json) : Option ScaleAxis :=
  match j.slots? ["scale", "axis"] with
  | some [some scale, some axis] => do
    let scale ← scale.single?
    let axis ← axis.count?
    return ⟨scale, axis⟩
  | _ => none

/-- Reads an option as a type, with a reader for the type. -/
def CallOption.decode {α : Type} (o : CallOption) (reader : Json → Option α) :
    Except Failure α :=
  match reader o.value with
  | none => .error (.malformed .callOption)
  | some x => .ok x

end InferenceEngine
