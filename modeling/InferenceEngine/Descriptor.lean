import InferenceEngine.CallOption

/-!
# Descriptors of compiled graphs

A `Descriptor` is what a run is prepared from: the source of the kernels, the instructions in
order, the layouts of weights and variables, and the names of the graph's inputs and outputs.

* `Descriptor.ofText?` reads a descriptor; a record may be an object or the array of its fields.
* `Descriptor.tree` is the tree it is written as, every field in order.
-/

namespace InferenceEngine

/-- One instruction of a program. -/
structure Instruction where
  /-- the entry point to call -/
  entry : String
  /-- the variables it reads -/
  inputs : List String
  /-- the variables it writes -/
  outputs : List String
  /-- the weights it reads -/
  weights : List String
  /-- the configuration of the call -/
  option : CallOption
deriving DecidableEq

/-- The description of a compiled graph. -/
structure Descriptor where
  /-- what the kernels are made from -/
  kernelSource : String
  /-- the instructions in order -/
  instructions : List Instruction
  /-- the layout of the weights -/
  weights : Layout
  /-- the layout of the variables -/
  buffers : Layout
  /-- the variables the graph is given -/
  inputs : List String
  /-- the variables the graph computes -/
  outputs : List String
  /-- the encoding of the weights -/
  encoding : String
deriving DecidableEq

open Json

namespace Instruction

/-- An instruction without operands and option. -/
def ofEntry (entry : String) : Instruction := ⟨entry, [], [], [], .default⟩

/-- The fields of an instruction, in order. -/
def fieldNames : List String :=
  ["entry_func_name", "inputs", "outputs", "weights", "call_option"]

/-- The tree an instruction is written as. -/
def tree (i : Instruction) : Tree :=
  .ofMembers [("entry_func_name", .ofString i.entry), ("inputs", .ofStrings i.inputs),
    ("outputs", .ofStrings i.outputs), ("weights", .ofStrings i.weights),
    ("call_option", i.option.value.tree)]

/-- Reads an instruction: all fields but the entry point may be missing. -/
def ofTree? : Nat → Tree → Option Instruction
  | room + 1, t =>
    match t.fields? fieldNames with
    | some [entry, inputs, outputs, weights, option] => do
      let entry ← Tree.required? Tree.text? entry
      let inputs ← Tree.optional? [] (Tree.texts? room) inputs
      let outputs ← Tree.optional? [] (Tree.texts? room) outputs
      let weights ← Tree.optional? [] (Tree.texts? room) weights
      let option ← Tree.optional? .default (CallOption.ofTree? room) option
      return ⟨entry, inputs, outputs, weights, option⟩
    | _ => none
  | 0, _ => none

end Instruction

namespace Descriptor

/-- The encoding of a descriptor that names none. -/
def defaultEncoding : String := "raw"

/-- The descriptor of the empty graph. -/
def default : Descriptor := ⟨"", [], .empty 0, .empty 0, [], [], defaultEncoding⟩

/-- The fields of a descriptor, in order. -/
def fieldNames : List String :=
  ["kernel_source", "exec_infos", "weight_allocation", "variable_allocation", "inputs", "outputs",
    "weight_encoding"]

/-- The tree a descriptor is written as. -/
def tree (d : Descriptor) : Tree :=
  .ofMembers [("kernel_source", .ofString d.kernelSource),
    ("exec_infos", .array (d.instructions.map Instruction.tree)),
    ("weight_allocation", d.weights.tree), ("variable_allocation", d.buffers.tree),
    ("inputs", .ofStrings d.inputs), ("outputs", .ofStrings d.outputs),
    ("weight_encoding", .ofString d.encoding)]

/-- Reads a descriptor: every field may be missing. -/
def ofTree? : Nat → Tree → Option Descriptor
  | room + 1, t =>
    match t.fields? fieldNames with
    | some [source, instructions, weights, buffers, inputs, outputs, encoding] => do
      let source ← Tree.optional? "" Tree.text? source
      let instructions ← Tree.optional? [] (Tree.list? Instruction.ofTree? room) instructions
      let weights ← Tree.optional? (Layout.empty 0) (Layout.ofTree? room) weights
      let buffers ← Tree.optional? (Layout.empty 0) (Layout.ofTree? room) buffers
      let inputs ← Tree.optional? [] (Tree.texts? room) inputs
      let outputs ← Tree.optional? [] (Tree.texts? room) outputs
      let encoding ← Tree.optional? defaultEncoding Tree.text? encoding
      return ⟨source, instructions, weights, buffers, inputs, outputs, encoding⟩
    | _ => none
  | 0, _ => none

/-- Reads a descriptor from its text. -/
def ofText? (text : String) : Option Descriptor := (Tree.ofText? text).bind (ofTree? nestingLimit)

/-- Reads a descriptor from its text, or says what is wrong. -/
def parse (text : String) : Except Failure Descriptor :=
  match ofText? text with
  | none => .error (.malformed (.descriptor none))
  | some d => .ok d

/-- The text of a descriptor, one item a line. -/
def print (d : Descriptor) : String := String.ofList d.tree.pretty

/-- The text of a descriptor, without blanks. -/
def compact (d : Descriptor) : String := String.ofList d.tree.compact

end Descriptor

end InferenceEngine
