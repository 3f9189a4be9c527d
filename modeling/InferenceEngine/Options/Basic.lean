import InferenceEngine.Failure
import InferenceEngine.Text.Quoted

/-!
# Options of a runner

Four knobs, read as a record whose fields may all be missing.
-/

namespace InferenceEngine

/-- The knobs of a runner. -/
structure Options where
  /-- the least time between two progress notifications, in milliseconds -/
  progressIntervalMs : UInt64
  /-- the pause after a progress notification, in milliseconds -/
  yieldIntervalMs : UInt64
  /-- an event is recorded for every executed instruction -/
  traceEvents : Bool
  /-- recorded events carry the time the kernel took -/
  timer : Bool
deriving DecidableEq

namespace Options

open Json

/-- The options of a runner that is given none. -/
def default : Options := ⟨1000, 10, false, false⟩

/-- The fields, in order. -/
def fieldNames : List String :=
  ["progress_interval_ms", "yield_interval_ms", "trace_events", "timer"]

/-- The tree options are written as. -/
def tree (o : Options) : Tree :=
  .ofMembers [("progress_interval_ms", .ofNat o.progressIntervalMs.toNat),
    ("yield_interval_ms", .ofNat o.yieldIntervalMs.toNat), ("trace_events", .bool o.traceEvents),
    ("timer", .bool o.timer)]

/-- The text of options, without blanks. -/
def compact (o : Options) : String := String.ofList o.tree.compact

/-- Reads options: every field may be missing and then has its default. -/
def ofTree? : Nat → Tree → Option Options
  | _ + 1, t =>
    match t.fields? fieldNames with
    | some [progress, pause, events, timer] => do
      let progress ← Tree.optional? default.progressIntervalMs Tree.count? progress
      let pause ← Tree.optional? default.yieldIntervalMs Tree.count? pause
      let events ← Tree.optional? default.traceEvents Tree.flag? events
      let timer ← Tree.optional? default.timer Tree.flag? timer
      return ⟨progress, pause, events, timer⟩
    | _ => none
  | 0, _ => none

/-- Reads options from their text, or says what is wrong. -/
def parse (text : String) : Except Failure Options :=
  match (Tree.ofText? text).bind (ofTree? nestingLimit) with
  | none => .error (.malformed .options)
  | some o => .ok o

/-- How options are shown. -/
def text (o : Options) : String :=
  Text.describe "RunnerOptions"
    [("progress_interval_ms", toString o.progressIntervalMs.toNat),
      ("yield_interval_ms", toString o.yieldIntervalMs.toNat),
      ("trace_events", toString o.traceEvents), ("timer", toString o.timer)]

/-- The least time between two progress notifications, in nanoseconds. -/
def progressInterval (o : Options) : Nat := o.progressIntervalMs.toNat * 1000000

end Options

end InferenceEngine
