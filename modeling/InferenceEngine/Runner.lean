import InferenceEngine.Decoder
import InferenceEngine.Execution
import InferenceEngine.Kernel.Manifest
import InferenceEngine.Options.Basic

/-!
# Runners

A `Runner` owns the buffers and kernels of one descriptor. It is compiled once, its weights are
loaded at most once, and then it runs any number of times.

* `Runner.build` is what compiling makes, `Runner.decodeWeights` what loading puts into the weights;
  both are functions that fail without changing anything.
* `Runner.start` begins a pass that the caller steps through; `Runner.run` and `Runner.runAsync`
  drive one to its end and tell the progress sink.
* `Runner.setInput`, `Runner.elementsOf` and the views are the ways to the data between runs.
-/

namespace InferenceEngine

/-- Receives the progress of a run; what it does shows in what it writes. -/
structure ProgressSink where
  /-- what is written for a notification -/
  entries : Progress → List Entry

namespace ProgressSink

/-- Prints one line for each notification. -/
def log : ProgressSink := ⟨fun p => [.line p.text]⟩

/-- Keeps the notifications. -/
def recorder : ProgressSink := ⟨fun p => [.report p]⟩

end ProgressSink

/-- Executes the graph of one descriptor. -/
structure Runner where
  /-- the graph -/
  descriptor : Descriptor
  /-- turns the kernel source into entry points -/
  loader : KernelLoader
  /-- the decoders to use in place of those that are always there -/
  decoders : Option DecoderRegistry
  /-- the knobs -/
  options : Options
  /-- receives the progress of runs -/
  sink : ProgressSink
  /-- what compiling made -/
  compiled : Option Compiled
  /-- the weights are loaded -/
  weightsLoaded : Bool
  /-- the events of the latest pass -/
  trace : List TraceEvent

namespace Runner

/-- A runner that is not compiled yet. -/
def ofDescriptor (descriptor : Descriptor) (loader : KernelLoader) : Runner where
  descriptor := descriptor
  loader := loader
  decoders := none
  options := .default
  sink := .log
  compiled := none
  weightsLoaded := false
  trace := []

/-- Uses other options. -/
def withOptions (r : Runner) (options : Options) : Runner := { r with options }

/-- Records events. -/
def withTrace (r : Runner) : Runner := { r with options.traceEvents := true }

/-- Times kernels. -/
def withTimer (r : Runner) : Runner := { r with options.timer := true }

/-- Tells another sink. -/
def withSink (r : Runner) (sink : ProgressSink) : Runner := { r with sink }

/-- Uses other decoders. -/
def withDecoders (r : Runner) (decoders : DecoderRegistry) : Runner :=
  { r with decoders := some decoders }

/-- The runner is compiled. -/
def isCompiled (r : Runner) : Bool := r.compiled.isSome

/-- What compiling made. -/
def requireCompiled (r : Runner) : Outcome Compiled :=
  match r.compiled with
  | none => .error .notCompiled
  | some c => .ok c

/-! ## Compiling -/

/-- What is made from a descriptor: the entry points, the weights, the variables, the declared
inputs and the declared outputs, in this order of failure. Weights and variables may be broken off
as well, when they ask for more than a buffer can hold. -/
def build (loader : KernelLoader) (d : Descriptor) : Outcome Compiled := do
  let kernels ← .ofExcept (loader.materialize d.kernelSource)
  let weights ← Weights.allocate d.weights
  let buffers ← Variables.allocate d.buffers
  let inputs ← .ofExcept (resolveDeclared .input buffers d.inputs)
  let outputs ← .ofExcept (resolveDeclared .output buffers d.outputs)
  return {
    weights, buffers, kernels, inputs, outputs
    program := Program.link ⟨kernels, buffers, weights⟩ d.instructions }

/-- The names in which the references of a compiled graph are looked up. -/
def symbols (c : Compiled) : Symbols := ⟨c.kernels, c.buffers, c.weights⟩

/-- The line that is logged when a graph is compiled. -/
def compiledText (c : Compiled) : String :=
  let instructions := c.program.length
  let kernels := c.kernels.size
  let weights := c.weights.size
  let values := c.weights.totalSize
  let count := c.buffers.size
  s!"compiled {instructions} instructions, {kernels} kernels, {weights} weights ({values} values), {count} variables"

/-- Logs the warnings of a program. -/
def logWarnings (ws : List LinkWarning) (t : Thread) : Thread :=
  ws.foldl (fun t w => t.emit .warning w.text) t

/-- Compiles the runner. -/
def compile (r : Runner) (t : Thread) : Outcome Unit × Runner × Thread :=
  match r.compiled with
  | some _ => (.error .alreadyCompiled, r, t)
  | none =>
    match build r.loader r.descriptor with
    | .error e => (.error e, r, t)
    | .panic p => (.panic p, r, t)
    | .ok c =>
      -- nothing is logged before everything is built
      let t := logWarnings (Program.warnings (symbols c) r.descriptor.instructions) t
      (.ok (), { r with compiled := some c }, t.emit .trace (compiledText c))

/-! ## Loading weights -/

/-- The decoders that are looked into. -/
def registry (r : Runner) : DecoderRegistry := r.decoders.getD .builtin

/-- The line that is logged before weights are decoded. -/
def decodingText (bytes : Bytes) (encoding : String) : String :=
  let count := bytes.length
  s!"decoding {count} weight bytes with {encoding} decoder"

/-- Fills the weights of a compiled graph from encoded bytes. -/
def decodeWeights (decoder : Decoder) (bytes : Bytes) (l : Layout) (w : Weights) :
    Outcome Weights :=
  match decoder bytes l with
  | .error e => .error e
  | .panic p => .panic p
  | .ok values => .ofExcept (w.fill values)

/-- Loads the weights. -/
def loadWeights (r : Runner) (bytes : Bytes) (t : Thread) : Outcome Unit × Runner × Thread :=
  match r.compiled with
  | none => (.error .notCompiled, r, t)
  | some c =>
    if r.weightsLoaded then (.error .alreadyLoaded, r, t)
    else
      match r.registry.find r.descriptor.encoding with
      | .error e => (.error e, r, t)
      | .ok decoder =>
        -- from here on a failure leaves a line in the log
        let t := t.emit .trace (decodingText bytes r.descriptor.encoding)
        match decodeWeights decoder bytes r.descriptor.weights c.weights with
        | .error e => (.error e, r, t)
        | .panic p => (.panic p, r, t)
        | .ok weights =>
          (.ok (), { r with compiled := some { c with weights }, weightsLoaded := true }, t)

/-! ## Passes -/

/-- The warning that weights are missing. -/
def unloadedText : String := "running before weights were loaded; weights read as zero"

/-- Begins a pass. -/
def start (r : Runner) (t : Thread) : Except Failure Execution × Thread :=
  match r.compiled with
  | none => (.error .notCompiled, t)
  | some c =>
    let t :=
      -- a graph without weights has none to miss
      if !r.weightsLoaded && 0 < c.weights.totalSize then t.emit .warning unloadedText else t
    let (e, t) :=
      Execution.start r.descriptor.instructions c r.options.traceEvents r.options.timer
        r.options.progressInterval t
    (.ok e, t)

/-- Takes back what a pass has worked on: its buffers and its events. -/
def absorb (r : Runner) (e : Execution) : Runner :=
  { r with compiled := some e.compiled, trace := e.trace.getD [] }

/-- Steps through a pass to its end and tells the sink. A pass over `n` instructions takes at most
`2 * n + 1` steps, so a budget of that many is not used up before the end. A smaller one may be, and
then the pass is broken off. -/
def drive (sink : ProgressSink) : Nat → Execution → Thread → Outcome Unit × Execution × Thread
  | 0, e, t => (.panic .overrun, e, t)
  | budget + 1, e, t =>
    match e.step t with
    | (.ok .executed, e, t) => drive sink budget e t
    | (.ok (.yielded p), e, t) => drive sink budget e (t.writeAll (sink.entries p))
    | (.ok (.finished p), e, t) => (.ok (), e, t.writeAll (sink.entries p))
    | (.error f, e, t) => (.error f, e, t)
    | (.panic p, e, t) => (.panic p, e, t)

/-- The steps that a pass may take. -/
def budget (e : Execution) : Nat := 2 * e.total + 1

/-- Runs the program to its end. -/
def run (r : Runner) (t : Thread) : Outcome Unit × Runner × Thread :=
  match r.start t with
  | (.error f, t) => (.error f, r, t)
  -- the buffers come back and the label goes, however the pass has ended
  | (.ok e, t) =>
    match drive r.sink (budget e) e t with
    | (o, e, t) => (o, r.absorb e, e.close t)

/-! ### Suspending runs -/

/-- A run that gives its thread back after each notification. -/
structure Task where
  /-- the runner the pass was begun from -/
  runner : Runner
  /-- the pass -/
  execution : Execution

/-- What became of a task that was resumed. -/
inductive Resumed
  /-- it gave way after a notification -/
  | suspended (task : Task)
  /-- it came to its end -/
  | ended (outcome : Outcome Unit) (runner : Runner)

/-- Begins a run that suspends. -/
def begin (r : Runner) (t : Thread) : Except Failure Task × Thread :=
  match r.start t with
  | (.error f, t) => (.error f, t)
  | (.ok e, t) => (.ok ⟨r, e⟩, t)

namespace Task

/-- Steps on until the next notification or the end. -/
def resume : Nat → Task → Thread → Resumed × Thread
  | 0, task, t => (.ended (.panic .overrun) (task.runner.absorb task.execution), t)
  | budget + 1, task, t =>
    match task.execution.step t with
    | (.ok .executed, e, t) => resume budget { task with execution := e } t
    | (.ok (.yielded p), e, t) =>
      (.suspended { task with execution := e }, t.writeAll (task.runner.sink.entries p))
    | (.ok (.finished p), e, t) =>
      (.ended (.ok ()) (task.runner.absorb e),
        e.close (t.writeAll (task.runner.sink.entries p)))
    | (.error f, e, t) => (.ended (.error f) (task.runner.absorb e), e.close t)
    | (.panic p, e, t) => (.ended (.panic p) (task.runner.absorb e), e.close t)

/-- Resumes a task until it ends. -/
def complete : Nat → Task → Thread → Outcome Unit × Runner × Thread
  | 0, task, t => (.panic .overrun, task.runner.absorb task.execution, t)
  | rounds + 1, task, t =>
    match task.resume (budget task.execution) t with
    | (.suspended task, t) => complete rounds task t
    | (.ended o r, t) => (o, r, t)

end Task

/-- Runs the program to its end, giving the thread back after each notification. -/
def runAsync (r : Runner) (t : Thread) : Outcome Unit × Runner × Thread :=
  match r.begin t with
  | (.error f, t) => (.error f, r, t)
  | (.ok task, t) => task.complete (budget task.execution) t

/-! ## Data -/

/-- Views of the declared inputs, in declared order. -/
def inputViews (r : Runner) : Outcome (List View) := do
  let c ← r.requireCompiled
  c.buffers.viewAll c.inputs

/-- Views of the declared outputs, in declared order. -/
def outputViews (r : Runner) : Outcome (List View) := do
  let c ← r.requireCompiled
  c.buffers.viewAll c.outputs

/-- The buffers of a compiled runner. -/
def bank (r : Runner) : Bank := (r.compiled.map fun c => c.buffers.bank).getD []

/-- The runner with other contents in its buffers. -/
def withBank (r : Runner) (bank : Bank) : Runner :=
  { r with compiled := r.compiled.map fun c => { c with buffers.bank := bank } }

/-- The handle that a name was looked up to, if there is one. -/
def requireHandle (role : Role) (name : String) : Option Nat → Outcome Nat
  | some handle => .ok handle
  | none => .error (.unresolvedReference role name none)

/-- The elements of a variable. -/
def elementsOf (r : Runner) (name : String) : Outcome (List Single) := do
  let c ← r.requireCompiled
  let handle ← requireHandle .buffer name (c.buffers.handle? name)
  c.buffers.buffer handle

/-- The elements of a weight. -/
def weightOf (r : Runner) (name : String) : Outcome (Array Single) := do
  let c ← r.requireCompiled
  let handle ← requireHandle .weight name (c.weights.handle? name)
  c.weights.view handle

/-- Copies values into a variable of the same size. -/
def setInput (r : Runner) (name : String) (values : List Single) : Outcome Runner := do
  let c ← r.requireCompiled
  let handle ← requireHandle .buffer name (c.buffers.handle? name)
  let v ← c.buffers.view handle
  if v.size = values.length then return r.withBank (c.buffers.bank.putAll handle 0 values)
  else .error (.wrongSize name v.size values.length)

/-- Sets several inputs one after the other, up to the first that is refused. -/
def setInputs (refuse : String → Failure → Outcome Unit) (r : Runner) :
    List (String × List Single) → Outcome Unit × Runner
  | [] => (.ok (), r)
  | (name, values) :: rest =>
    match r.setInput name values with
    | .ok r => setInputs refuse r rest
    | .error e => (refuse name e, r)
    | .panic p => (.panic p, r)

/-- Sets several inputs; the first refusal is the failure. -/
def tryInsertInputs (r : Runner) (inputs : List (String × List Single)) : Outcome Unit × Runner :=
  setInputs (fun _ e => .error e) r inputs

/-- Sets several inputs; a refusal breaks the caller off. -/
def insertInputs (r : Runner) (inputs : List (String × List Single)) : Outcome Unit × Runner :=
  setInputs (fun name e => .panic (.refusedInput name e)) r inputs

/-- The elements of several variables; a failure breaks the caller off. -/
def fetchOutputs (r : Runner) : List String → Outcome (List (List Single))
  | [] => .ok []
  | name :: rest =>
    match r.elementsOf name with
    | .ok xs => (r.fetchOutputs rest).map (xs :: ·)
    | .error e => .panic (.missingOutput name e)
    | .panic p => .panic p

/-- How a runner is shown. -/
def text (r : Runner) : String :=
  Text.describe "Runner"
    [("instructions", toString r.descriptor.instructions.length),
      ("weight_encoding", Text.quote r.descriptor.encoding), ("compiled", toString r.isCompiled),
      ("weights_loaded", toString r.weightsLoaded), ("options", r.options.text)]

end Runner

end InferenceEngine
