import InferenceEngine.Files
import InferenceEngine.Runner

/-!
# Models: directories with a graph and its weights

A model directory holds a descriptor and, if the graph has weights, a file with them. Their names
tell which backend they are made for, so one directory can serve several backends.

* `Model.ofDirectory` reads both; a missing weight file counts as an empty one.
* `Model.runner` and `Runner.loadWeightsFrom` use what was read.
-/

namespace InferenceEngine

/-- What was read from a model directory. -/
structure Model where
  /-- the directory -/
  dir : String
  /-- the backend it was opened for -/
  backend : String
  /-- the graph -/
  descriptor : Descriptor
  /-- the encoded weights; none if there is no weight file -/
  weights : Bytes

namespace Model

/-- The name of the file with the descriptor. -/
def graphFileName (backend : String) : String := "graph_" ++ backend ++ ".json"

/-- The name of the file with the weights. -/
def weightFileName (backend : String) : String := "weight_" ++ backend ++ ".bin"

/-- Reads a descriptor from a file. -/
def readDescriptor (files : Files) (path : String) : Except Failure Descriptor :=
  match files.readText? path with
  | none => .error (.unreadable .descriptor path)
  | some text =>
    match Descriptor.ofText? text with
    | none => .error (.malformed (.descriptor (some path)))
    | some d => .ok d

/-- The warning that a weight file is missing. -/
def missingText (path : String) : String := s!"no weight file at {path}"

/-- Reads a weight file. If there is none, that is no failure but logged. -/
def readWeights (files : Files) (path : String) (t : Thread) : Except Failure Bytes × Thread :=
  match files.node? path with
  | none => (.ok [], t.emit .warning (missingText path))
  -- only what is not there at all may be missing
  | some .directory => (.error (.unreadable .weights path), t)
  | some (.file content) => (.ok content, t)

/-- Reads a model directory: first the descriptor, then the weights. -/
def ofDirectory (files : Files) (dir backend : String) (t : Thread) : Except Failure Model × Thread :=
  match readDescriptor files (Files.join dir (graphFileName backend)) with
  | .error e => (.error e, t)
  | .ok descriptor =>
    match readWeights files (Files.join dir (weightFileName backend)) t with
    | (.error e, t) => (.error e, t)
    | (.ok weights, t) => (.ok { dir, backend, descriptor, weights }, t)

/-- A runner for the graph of a model. -/
def runner (m : Model) (loader : KernelLoader) : Runner := .ofDescriptor m.descriptor loader

end Model

/-- Loads the weights of a model. -/
def Runner.loadWeightsFrom (r : Runner) (m : Model) (t : Thread) :
    Outcome Unit × Runner × Thread := r.loadWeights m.weights t

end InferenceEngine
