import InferenceEngine.Program
import InferenceEngine.Trace

/-!
# Executions: one pass over a program

An `Execution` runs the instructions of a compiled graph in order, each to its end before the next
is dispatched. It is driven from outside, one `Execution.step` at a time; between steps nothing of
it is active but the label on the log.

* A step either gives way once for a progress notification, or dispatches one instruction, or says
  that all have run.
* A step that fails or is broken off leaves the position where it is, so the next one tries the
  same instruction again.
* `Execution.resolve` is the part of a dispatch that can fail without calling a kernel.
-/

namespace InferenceEngine

/-- Everything that is made from a descriptor before it can run. -/
structure Compiled where
  /-- the weights -/
  weights : Weights
  /-- the variables -/
  buffers : Variables
  /-- the entry points -/
  kernels : Registry
  /-- the linked instructions -/
  program : Program
  /-- the handles of the declared inputs -/
  inputs : List Nat
  /-- the handles of the declared outputs -/
  outputs : List Nat

/-- What a step has done. -/
inductive StepOutcome
  /-- an instruction ran -/
  | executed
  /-- nothing ran; the host may pause -/
  | yielded (progress : Progress)
  /-- every instruction has run -/
  | finished (progress : Progress)
deriving DecidableEq

/-- One pass over a program. -/
structure Execution where
  /-- the instructions as written -/
  instructions : List Instruction
  /-- the compiled graph -/
  compiled : Compiled
  /-- the events so far, if events are recorded -/
  trace : Option (List TraceEvent)
  /-- kernels are timed -/
  timed : Bool
  /-- the least time between two notifications, in nanoseconds -/
  interval : Nat
  /-- the reading of the clock at the start -/
  started : Nat
  /-- the reading of the clock at the last notification, or at the start -/
  lastReport : Nat
  /-- the index of the next instruction -/
  position : Nat
  /-- the position at the last notification -/
  reportedAt : Option Nat
  /-- the end has been announced -/
  isFinished : Bool
  /-- the identifier of the run -/
  run : RunId
  /-- the context to put back at the end -/
  outer : Option Context

/-- A call that is ready to be made. -/
structure Call where
  /-- the kernel -/
  kernel : Kernel
  /-- its arguments -/
  args : Args

namespace Execution

/-- The number of instructions. -/
def total (e : Execution) : Nat := e.compiled.program.length

/-- Begins a pass: draws an identifier, starts the clock, and makes the run the active one. -/
def start (instructions : List Instruction) (compiled : Compiled) (traced timed : Bool)
    (interval : Nat) (t : Thread) : Execution × Thread :=
  -- the outer context is the one before the run is entered
  let (run, t) := t.draw
  let (now, t) := t.now
  ({ instructions, compiled, trace := if traced then some [] else none, timed, interval,
     started := now, lastReport := now, position := 0, reportedAt := none, isFinished := false,
     run, outer := t.context }, t.enter run)

/-- Ends a pass, wherever it is: the context in force before it is put back. -/
def close (e : Execution) (t : Thread) : Thread := t.restore e.outer

/-! ## Steps -/

/-- How far the pass has come at a reading of the clock. -/
def progressAt (e : Execution) (now processed : Nat) (finished : Bool) : Progress :=
  ⟨processed, e.total, Progress.millis (now - e.started), finished⟩

/-- Gives way for a notification, at most once for each position, if at least the interval has
passed since the last one. -/
def poll (e : Execution) (t : Thread) : Option Progress × Execution × Thread :=
  if e.reportedAt = some e.position then (none, e, t)
  else
    let (now, t) := t.now
    if now - e.lastReport < e.interval then (none, e, t)
    else
      (some (e.progressAt now e.position false),
        { e with lastReport := now, reportedAt := some e.position }, t)

/-- Looks up what instruction `index` calls: first every input, then every output, then every
weight, then the entry point. -/
def resolve (c : Compiled) (index : Nat) (i : Instruction) (s : Step) : Outcome Call := do
  let inputs ← Slot.fetchAll .input index c.buffers.view s.inputs
  let outputs ← Slot.fetchAll .output index c.buffers.view s.outputs
  let weights ← Slot.fetchAll .weight index c.weights.view s.weights
  match s.kernel with
  | none => .error (.missingEntryPoint i.entry index)
  | some handle =>
    let kernel ← c.kernels.entry handle
    return { kernel, args := { inputs, outputs, weights, option := i.option } }

/-- The line that is logged before a call. -/
def dispatchText (index : Nat) (i : Instruction) : String :=
  let inputs := ",".intercalate i.inputs
  let outputs := ",".intercalate i.outputs
  s!"dispatch {index} {i.entry}({inputs}) >> {outputs}"

/-- Makes a call on the variables, and measures it if kernels are timed. -/
def perform (e : Execution) (call : Call) (t : Thread) :
    Outcome Timing × Execution × Thread :=
  -- the clock is not read at all unless kernels are timed
  let (begun, t) := if e.timed then t.now else (0, t)
  -- what the kernel has written stays, however it ends
  let put (bank : Bank) : Execution :=
    { e with compiled.buffers.bank := bank }
  match (call.kernel call.args).run call.args e.compiled.buffers.bank t with
  | (.ok (), bank, t) =>
    if e.timed then
      let (ended, t) := t.now
      (.ok (.ofNanos (ended - begun)), put bank, t)
    else (.ok .none, put bank, t)
  | (.error f, bank, t) => (.error f, put bank, t)
  | (.panic p, bank, t) => (.panic p, put bank, t)

/-- Appends an event for an executed instruction, if events are recorded. -/
def record (e : Execution) (index : Nat) (i : Instruction) (timing : Timing) : Execution :=
  { e with
    trace := e.trace.map fun events =>
      events ++ [⟨e.run, index, i.entry, i.inputs, i.outputs, i.weights, timing⟩] }

/-- The instruction and the linked step of an index, which both have to be there. -/
def fetch (e : Execution) (index : Nat) : Outcome (Instruction × Step) :=
  match e.compiled.program[index]?, e.instructions[index]? with
  | some s, some i => .ok (i, s)
  | none, _ => .panic (.outOfBounds e.compiled.program.length index)
  | _, none => .panic (.outOfBounds e.instructions.length index)

/-- Makes the call of an instruction and records the event. -/
def execute (e : Execution) (index : Nat) (i : Instruction) (call : Call) (t : Thread) :
    Outcome Unit × Execution × Thread :=
  match e.perform call (t.emit .trace (dispatchText index i)) with
  | (.ok timing, e, t) => (.ok (), e.record index i timing, t)
  | (.error f, e, t) => (.error f, e, t)
  | (.panic p, e, t) => (.panic p, e, t)

/-- What the instruction of an index is about to call. -/
def prepare (e : Execution) (index : Nat) : Outcome (Instruction × Call) := do
  let (i, s) ← e.fetch index
  let call ← resolve e.compiled index i s
  return (i, call)

/-- Dispatches an instruction: looks it up, calls its kernel, records the event. -/
def dispatch (e : Execution) (index : Nat) (t : Thread) : Outcome Unit × Execution × Thread :=
  match e.prepare index with
  | .ok (i, call) => e.execute index i call t
  | .error f => (.error f, e, t)
  | .panic p => (.panic p, e, t)

/-- The line that is logged when an instruction fails. -/
def failureText (index : Nat) (f : Failure) : String :=
  s!"instruction {index} failed: " ++ f.message

/-- Dispatches the next instruction, whose index labels the log meanwhile. A break leaves the label
as it is. -/
def advance (e : Execution) (t : Thread) : Outcome StepOutcome × Execution × Thread :=
  let index := e.position
  match e.dispatch index (t.focus (some index)) with
  | (.ok (), e, t) => (.ok .executed, { e with position := index + 1 }, t.focus none)
  | (.error f, e, t) => (.error f, e, (t.emit .error (failureText index f)).focus none)
  -- nothing is done behind the call any more, so the index stays
  | (.panic p, e, t) => (.panic p, e, t)

/-- Announces the end. -/
def finish (e : Execution) (t : Thread) : Outcome StepOutcome × Execution × Thread :=
  let (now, t) := t.now
  (.ok (.finished (e.progressAt now e.total true)), { e with isFinished := true }, t)

/-- Advances a pass by one step. -/
def step (e : Execution) (t : Thread) : Outcome StepOutcome × Execution × Thread :=
  if e.isFinished then (.error .finished, e, t)
  else if e.position = e.total then e.finish t
  else
    match e.poll t with
    -- giving way takes the whole step: the instruction is left for the next one
    | (some p, e, t) => (.ok (.yielded p), e, t)
    | (none, e, t) => e.advance t

end Execution

end InferenceEngine
