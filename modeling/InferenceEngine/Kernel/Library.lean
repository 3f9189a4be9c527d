import InferenceEngine.Kernel.Elementwise
import InferenceEngine.Kernel.Observation
import InferenceEngine.Kernel.Reduction
import InferenceEngine.Runner

/-!
# The kernels that come with the engine

`library` lists them under their symbols. One of them, `nested`, runs a program of its own on the
thread it is called on.
-/

namespace InferenceEngine.Kernels

/-- The program that `nested` runs. -/
def innerDescriptor : Descriptor :=
  { Descriptor.default with instructions := [.ofEntry "noop", .ofEntry "label"] }

/-- The runner of that program. -/
def innerRunner : Runner :=
  (Runner.ofDescriptor innerDescriptor
    (LinkedKernels.ofList [("noop", noop), ("label", label)]).loader).withTrace

/-- Runs another runner on the thread of the call. -/
def onRunner (act : Runner → Thread → Outcome Unit × Runner × Thread) (r : Runner) :
    Routine Runner := do
  let (o, r) ← Routine.onThread fun t => let (o, r, t) := act r t; ((o, r), t)
  let () ← Routine.ofOutcome o
  return r

/-- Notes the run of the first event. -/
def noteRun : List TraceEvent → Routine Unit
  | [] => .done ()
  | e :: _ => .note (.innerRun e.run) (.done ())

/-- Compiles and runs a program, and notes the label before and after. -/
def nested : Kernel := fun args => do
  label args
  let r ← onRunner Runner.compile innerRunner
  let r ← onRunner Runner.run r
  noteRun r.trace
  label args

/-- The kernels under their symbols. -/
def library : List (String × Kernel) :=
  [("copy", copy), ("add_bias", addBias), ("scale", scale), ("increment", increment),
    ("mark", mark), ("noop", noop), ("fail", fail), ("relu", relu), ("dense", dense),
    ("probe", probe), ("label", label), ("nested", nested), ("alias", aliasing),
    ("partial", partialWrite), ("boom", boom), ("axpy", axpy), ("view_copy", viewCopy),
    ("sum", sum)]

/-- The kernel of a symbol. -/
def named? (symbol : String) : Option Kernel := library.lookup symbol

end InferenceEngine.Kernels
