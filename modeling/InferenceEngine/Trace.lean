import InferenceEngine.Json.Printer
import InferenceEngine.RunId

/-!
# Traces

A `TraceEvent` records that an instruction was executed.
-/

namespace InferenceEngine

/-- The time a kernel took, cut into milliseconds, microseconds and nanoseconds. -/
structure Timing where
  /-- the time in words; empty when it was not measured -/
  text : String
  /-- whole milliseconds -/
  millis : Nat
  /-- whole microseconds behind the milliseconds -/
  micros : Nat
  /-- nanoseconds behind the microseconds -/
  nanos : Nat
deriving DecidableEq

namespace Timing

/-- The timing of a kernel that was not measured. -/
def none : Timing := ⟨"", 0, 0, 0⟩

/-- The timing of a number of nanoseconds. -/
def ofNanos (total : Nat) : Timing :=
  let ms := total / 1000000
  let us := total / 1000 % 1000
  let ns := total % 1000
  ⟨s!"{ms}ms {us}us {ns}ns", ms, us, ns⟩

end Timing

/-- The record of one executed instruction. -/
structure TraceEvent where
  /-- the run -/
  run : RunId
  /-- the index of the instruction -/
  index : Nat
  /-- the entry point -/
  entry : String
  /-- the names of the inputs -/
  inputs : List String
  /-- the names of the outputs -/
  outputs : List String
  /-- the names of the weights -/
  weights : List String
  /-- the time the kernel took -/
  timing : Timing
deriving DecidableEq

open Json

/-- The tree an event is written as. -/
def TraceEvent.tree (e : TraceEvent) : Tree :=
  .ofMembers [("run_id", .ofString e.run.text), ("index", .ofNat e.index),
    ("entry_func_name", .ofString e.entry), ("inputs", .ofStrings e.inputs),
    ("outputs", .ofStrings e.outputs), ("weights", .ofStrings e.weights),
    ("micros", .array [.ofNat e.timing.millis, .ofNat e.timing.micros, .ofNat e.timing.nanos])]

end InferenceEngine
