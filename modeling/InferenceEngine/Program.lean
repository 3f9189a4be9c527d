import InferenceEngine.Descriptor
import InferenceEngine.Kernel.Registry
import InferenceEngine.Tensor.Variables
import InferenceEngine.Tensor.Weights

/-!
# Linked programs

Linking replaces every name in a list of instructions by a handle, so that a run looks nothing up.
A name without a handle is kept as it is: linking never fails, and the failure shows when the
instruction is reached, after all earlier ones have run.

* `Program.link` is the linked form of a list of instructions.
* `Program.warnings` lists the names that were not found, in the order in which they stand.
-/

namespace InferenceEngine

/-- A reference after its name was looked up. -/
inductive Slot
  /-- the handle of the name -/
  | bound (handle : Nat)
  /-- the name, which has no handle -/
  | unresolved (name : String)
deriving DecidableEq

namespace Slot

/-- The slot of a name, given what it was looked up to. -/
def bind (name : String) : Option Nat → Slot
  | some handle => bound handle
  | none => unresolved name

/-- The handle of a slot of instruction `index`, where the name plays a role. -/
def resolve (role : Role) (index : Nat) : Slot → Except Failure Nat
  | bound handle => .ok handle
  | unresolved name => .error (.unresolvedReference role name (some index))

/-- What the slots of one role stand for, looked up by handle one after the other; the first slot
without a handle is the failure. -/
def fetchAll {α : Type} (role : Role) (index : Nat) (fetch : Nat → Outcome α) :
    List Slot → Outcome (List α)
  | [] => .ok []
  | s :: rest => do
    -- each slot is resolved and fetched before the next one is looked at
    let handle ← Outcome.ofExcept (s.resolve role index)
    let x ← fetch handle
    let xs ← fetchAll role index fetch rest
    return x :: xs

end Slot

/-- An instruction with its names looked up. -/
structure Step where
  /-- the handle of the entry point -/
  kernel : Option Nat
  /-- the inputs, by handle of the variable -/
  inputs : List Slot
  /-- the outputs, by handle of the variable -/
  outputs : List Slot
  /-- the weights, by handle -/
  weights : List Slot

/-- A list of instructions with all names looked up. -/
abbrev Program := List Step

/-- A name in an instruction that was not found. -/
inductive LinkWarning
  /-- the entry point -/
  | entryPoint (index : Nat) (name : String)
  /-- an operand -/
  | operand (index : Nat) (role : Role) (name : String)
deriving DecidableEq

/-- How a warning is logged. -/
def LinkWarning.text : LinkWarning → String
  | entryPoint index name => s!"instruction {index} calls unknown entry point {name}"
  | operand index role name =>
    s!"instruction {index} references unknown " ++ role.word ++ s!" {name}"

/-- What the names of a program are looked up in. -/
structure Symbols where
  /-- the entry points -/
  kernels : Registry
  /-- the variables -/
  buffers : Variables
  /-- the weights -/
  weights : Weights

namespace Program

/-- Links one instruction. -/
def linkStep (s : Symbols) (i : Instruction) : Step where
  kernel := s.kernels.handle? i.entry
  inputs := i.inputs.map fun name => .bind name (s.buffers.handle? name)
  outputs := i.outputs.map fun name => .bind name (s.buffers.handle? name)
  weights := i.weights.map fun name => .bind name (s.weights.handle? name)

/-- Links a list of instructions. -/
def link (s : Symbols) (instructions : List Instruction) : Program :=
  instructions.map (linkStep s)

/-- The warnings about the slots of one role. -/
def slotWarnings (index : Nat) (role : Role) (slots : List Slot) : List LinkWarning :=
  slots.filterMap fun slot =>
    match slot with
    | .bound _ => none
    | .unresolved name => some (.operand index role name)

/-- The warnings about one instruction: the entry point, the inputs, the outputs, the weights. -/
def stepWarnings (index : Nat) (i : Instruction) (s : Step) : List LinkWarning :=
  (if s.kernel.isNone then [.entryPoint index i.entry] else []) ++
    slotWarnings index .input s.inputs ++ slotWarnings index .output s.outputs ++
    slotWarnings index .weight s.weights

/-- The warnings about a program whose first instruction has the given index. -/
def warningsFrom (s : Symbols) : Nat → List Instruction → List LinkWarning
  | _, [] => []
  | index, i :: rest => stepWarnings index i (linkStep s i) ++ warningsFrom s (index + 1) rest

/-- The warnings about a program. -/
def warnings (s : Symbols) (instructions : List Instruction) : List LinkWarning :=
  warningsFrom s 0 instructions

end Program

/-- The handles of the declared names of a graph, or the failure of the first that has none. -/
def resolveDeclared (role : Role) (v : Variables) : List String → Except Failure (List Nat)
  | [] => .ok []
  | name :: rest =>
    match v.handle? name with
    | none => .error (.unresolvedReference role name none)
    | some handle => (resolveDeclared role v rest).map (handle :: ·)

end InferenceEngine
