import InferenceEngine.Demo
import Std.Time.DateTime.Timestamp

/-!
# The command line

Runs `Demo` on real files. The only argument is the model directory. What the program writes is
printed after every step of the run, and after a progress notification the program pauses.
-/

namespace InferenceEngine.CommandLine

/-! ## The world outside -/

/-- What stands under a path. Whatever is there and cannot be read counts as a directory. -/
def readNode (path : String) : IO (Option FileNode) := do
  try
    let content ← IO.FS.readBinFile path
    return some (.file content.toList)
  catch
    | .noFileOrDirectory .. => return none
    | _ => return some .directory

/-- The files with the given paths. -/
def readFiles (paths : List String) : IO Files :=
  paths.foldlM (fun files path => do
    match ← readNode path with
    | none => return files
    | some node => return files.add path node) Files.empty

/-- The pieces of a list of bytes between zeros. -/
def pieces (bytes : Bytes) : List Bytes :=
  bytes.foldr (fun b done =>
    match done with
    | [] => [[b]]
    | piece :: rest => if b = 0 then [] :: piece :: rest else (b :: piece) :: rest) [[]]

/-- A variable of the environment, written as its name, an equals sign and its value. -/
def variableOf (piece : Bytes) : Option (String × String) := do
  let cs := (← Files.decodeText? piece).toList
  let name := cs.takeWhile (· ≠ '=')
  return (String.ofList name, String.ofList (cs.drop (name.length + 1)))

/-- The variables of the environment. -/
def environment : IO (List (String × String)) := do
  match ← readNode "/proc/self/environ" with
  | some (.file content) => return (pieces content).filterMap variableOf
  | _ => return []

/-- The nanoseconds since some midnight. -/
def nanos : IO Nat := do
  let now ← Std.Time.Timestamp.now
  return now.toNanosecondsSinceUnixEpoch.val.toNat

/-- The word that bytes spell. -/
def word (bytes : Bytes) : UInt64 := bytes.foldl (fun n b => 256 * n + b.toUInt64) 0

/-- An identifier made of random bytes. -/
def randomId : IO RunId := do
  let bytes ← IO.getRandomBytes 16
  return .ofRandom (word (bytes.toList.take 8)) (word (bytes.toList.drop 8))

/-! ## The run -/

/-- Prints what was written. -/
def print : List Entry → IO Unit
  | [] => return
  | .log line :: rest => do
    IO.println line.render
    print rest
  | .line text :: rest => do
    IO.println text
    print rest
  | _ :: rest => print rest

/-- Prints what was written on a thread, and sets its clock. -/
def flush (t : Thread) : IO Thread := do
  print t.journal
  let now ← nanos
  return { t with journal := [], clock := fun _ => now }

/-- Steps through a pass to its end. -/
def drive (sink : ProgressSink) (pause : UInt32) :
    Nat → Execution → Thread → IO (Outcome Unit × Execution × Thread)
  | 0, e, t => return (.panic .overrun, e, t)
  | budget + 1, e, t => do
    match e.step t with
    | (.ok .executed, e, t) => drive sink pause budget e (← flush t)
    | (.ok (.yielded p), e, t) => do
      let t ← flush (t.writeAll (sink.entries p))
      IO.sleep pause
      drive sink pause budget e t
    | (.ok (.finished p), e, t) => return (.ok (), e, t.writeAll (sink.entries p))
    | (.error f, e, t) => return (.error f, e, t)
    | (.panic p, e, t) => return (.panic p, e, t)

/-- Runs a runner. -/
def run (r : Runner) (t : Thread) : IO (Outcome Unit × Runner × Thread) := do
  match r.start t with
  | (.error f, t) => return (.error f, r, t)
  | (.ok e, t) => do
    let pause := UInt32.ofNat (min r.options.yieldIntervalMs.toNat (UInt32.size - 1))
    let (o, e, t) ← drive r.sink pause (Runner.budget e) e (← flush t)
    return (o, r.absorb e, e.close t)

/-- The program up to its end. -/
def program (environment : List (String × String)) (dir : Option String) (t : Thread) :
    IO (Outcome Unit × Thread) := do
  let files ← readFiles (match dir with
    | none => []
    | some dir => [Files.join dir (Model.graphFileName Demo.backend),
        Files.join dir (Model.weightFileName Demo.backend)])
  match Demo.prepare files environment dir t with
  | (.error f, t) => return (.error f, t)
  | (.panic p, t) => return (.panic p, t)
  | (.ok r, t) => do
    match ← run r t with
    | (.ok (), r, t) => return Demo.report dir r t
    | (.error f, _, t) => return (.error f, t)
    | (.panic p, _, t) => return (.panic p, t)

/-- Says on the error output why the program has failed. -/
def complain : Outcome Unit → IO Unit
  | .ok () => return
  | .error f => IO.eprintln ("Error: " ++ f.message)
  | .panic p => IO.eprintln p.message

/-- Runs the demonstration on the real world and gives its exit code. -/
def start (args : List String) : IO UInt32 := do
  let environment ← environment
  let now ← nanos
  let id ← randomId
  let (o, t) ← program environment args.head? {
    level := Demo.level environment
    context := none
    journal := []
    clock := fun _ => now
    readings := 0
    ids := fun _ => id
    drawn := 0 }
  print t.journal
  complain o
  return (Demo.exitCode o).toUInt32

end InferenceEngine.CommandLine

/-- The program. -/
def main (args : List String) : IO UInt32 := InferenceEngine.CommandLine.start args
