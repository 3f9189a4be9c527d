import InferenceEngine.Kernel.Elementwise
import InferenceEngine.Kernel.Reduction
import InferenceEngine.Model
import InferenceEngine.Options.Layers

/-!
# A small program around the engine

The program runs a graph once and prints its outputs. The graph comes from a model directory; if
none is given, a rectifier and a dense layer on three inputs are run.

* `Demo.prepare` makes a runner that is ready, and `Demo.lines` says what it has computed.
* `Demo.run` is the whole program, as a function of the files, the variables of the environment and
  the thread it runs on.
-/

namespace InferenceEngine.Demo

/-- The kernels that graphs can call. -/
def kernels : LinkedKernels := .ofList [("relu", Kernels.relu), ("dense", Kernels.dense)]

/-- The backend that model directories are opened for. -/
def backend : String := "fallback"

/-! ## The graph that is always there -/

/-- `h = relu(x)` and `y = h * fc_w + fc_b` -/
def descriptor : Descriptor :=
  { Descriptor.default with
    instructions := [
      { Instruction.ofEntry "relu" with inputs := ["x"], outputs := ["h"] },
      { Instruction.ofEntry "dense" with
        inputs := ["h"], outputs := ["y"], weights := ["fc_w", "fc_b"] }]
    weights := .ofList 8 [("fc_w", ⟨0, 6⟩), ("fc_b", ⟨6, 2⟩)]
    buffers := .ofList 8 [("x", ⟨0, 3⟩), ("h", ⟨3, 3⟩), ("y", ⟨6, 2⟩)]
    inputs := ["x"]
    outputs := ["y"] }

/-- The weights `0.5, -1, 1, 1, 2, 0` and `0.1, 0.2`. -/
def weights : List Single :=
  [⟨0x3f000000⟩, .ofInt (-1), .one, .one, .ofInt 2, .zero, ⟨0x3dcccccd⟩, ⟨0x3e4ccccd⟩]

/-- The input `1, -2, 3`. -/
def input : List Single := [.one, .ofInt (-2), .ofInt 3]

/-! ## The program -/

/-- Compiles a runner and loads its weights. -/
def ready (r : Runner) (bytes : Bytes) (t : Thread) : Outcome Runner × Thread :=
  match r.compile t with
  | (.error e, _, t) => (.error e, t)
  | (.panic p, _, t) => (.panic p, t)
  | (.ok (), r, t) =>
    match r.loadWeights bytes t with
    | (.error e, _, t) => (.error e, t)
    | (.panic p, _, t) => (.panic p, t)
    | (.ok (), r, t) => (.ok r, t)

/-- A runner for the graph that is always there, with its input set. -/
def prepareBuiltin (options : Options) (t : Thread) : Outcome Runner × Thread :=
  let r := (Runner.ofDescriptor descriptor kernels.loader).withOptions options
  match ready r (weights.flatMap Single.toBytes) t with
  | (.ok r, t) =>
    let (o, r) := r.insertInputs [("x", input)]
    (o.map fun () => r, t)
  | failed => failed

/-- A runner for the graph of a model directory. -/
def prepareModel (files : Files) (dir : String) (options : Options) (t : Thread) :
    Outcome Runner × Thread :=
  match Model.ofDirectory files dir backend t with
  | (.error e, t) => (.error e, t)
  | (.ok m, t) => ready ((m.runner kernels.loader).withOptions options) m.weights t

/-- A runner that is ready to run, with the options that the environment asks for. -/
def prepare (files : Files) (environment : List (String × String)) (dir : Option String)
    (t : Thread) : Outcome Runner × Thread :=
  match Options.ofVariables environment with
  | .error e => (.error e, t)
  | .panic p => (.panic p, t)
  | .ok options =>
    match dir with
    | none => prepareBuiltin options t
    | some dir => prepareModel files dir options t

/-- The line that shows the elements of a variable. -/
def line (name : String) (xs : List Single) : String :=
  name ++ " = [" ++ ", ".intercalate (xs.map Single.text) ++ "]"

/-- The lines that show what was computed. -/
def lines (dir : Option String) (r : Runner) : Outcome (List String) :=
  match dir with
  | none => (r.fetchOutputs ["y"]).map fun ys => ys.map (line "y")
  | some _ =>
    r.outputViews.map fun vs => vs.map fun v => line v.name (v.elements r.bank)

/-- Prints what was computed. -/
def report (dir : Option String) (r : Runner) (t : Thread) : Outcome Unit × Thread :=
  match lines dir r with
  | .error e => (.error e, t)
  | .panic p => (.panic p, t)
  | .ok ls => (.ok (), ls.foldl Thread.print t)

/-- The whole program. -/
def run (files : Files) (environment : List (String × String)) (dir : Option String)
    (t : Thread) : Outcome Unit × Thread :=
  match prepare files environment dir t with
  | (.error e, t) => (.error e, t)
  | (.panic p, t) => (.panic p, t)
  | (.ok r, t) =>
    match r.run t with
    | (.ok (), r, t) => report dir r t
    | (.error e, _, t) => (.error e, t)
    | (.panic p, _, t) => (.panic p, t)

/-- The exit code of the program. -/
def exitCode : Outcome Unit → UInt8
  | .ok () => 0
  | .error _ => 1
  | .panic _ => 101

/-- How much the environment asks to log. -/
def level (environment : List (String × String)) : Level :=
  .ofSetting ((NameMap.ofList environment).get? "DNNRUNNER_TRACE")

end InferenceEngine.Demo
