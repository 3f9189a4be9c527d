import InferenceEngine.Json.Value
import InferenceEngine.Progress
import InferenceEngine.RunId
import InferenceEngine.Text.Blank

/-!
# The thread that runs happen on

Whatever several runs on one thread share is a `Thread`: how much is logged, which run the next
log line belongs to, what has been written so far, the clock, and the supply of run identifiers.

* `Thread.emit` appends a log line, if the level lets it through.
* `Thread.enter`, `Thread.focus` and `Thread.restore` change the `Context` that labels log lines.
* `Thread.now` and `Thread.draw` read the clock and draw an identifier. Both come from sequences
  that are given with the thread, so a run is a function of the thread it starts on.
-/

namespace InferenceEngine

/-! ## Levels and severities -/

/-- How much is logged. -/
inductive Level
  | off
  | basic
  | full
deriving DecidableEq

/-- The level a setting asks for: `1` is basic, `full` in any case is full, blanks around either do
not matter, and anything else is off. -/
def Level.ofSetting : Option String → Level
  | none => off
  | some value =>
    -- only `full` has letters, so the lower case of ASCII is enough
    let word := (Text.trim value).map Char.toLower
    if word = "1" then basic else if word = "full" then full else off

/-- The kinds of log lines. -/
inductive Severity
  | warning
  | error
  | trace
deriving DecidableEq

namespace Severity

/-- The word for a kind. -/
def word : Severity → String
  | warning => "WARNING"
  | error => "ERROR"
  | trace => "TRACE"

/-- The terminal colour of a kind. -/
def colour : Severity → String
  | warning => "33"
  | error => "91"
  | trace => "34"

/-- Warnings are let through at the full level only, the other kinds at the basic level too. -/
def passes (s : Severity) : Level → Bool
  | .off => false
  | .basic => s ≠ warning
  | .full => true

end Severity

/-! ## Entries of the journal -/

/-- The run, and within it the instruction, that is active on a thread. -/
structure Context where
  /-- the active run -/
  run : RunId
  /-- the instruction being dispatched -/
  instruction : Option Nat
deriving DecidableEq

/-- How a context is shown. -/
def Context.label (c : Context) : String :=
  match c.instruction with
  | none => "run " ++ c.run.lead
  | some index => "run " ++ c.run.lead ++ s!" #{index}"

/-- A line of the log. -/
structure LogLine where
  /-- the second of the day -/
  second : Nat
  /-- the kind of the line -/
  severity : Severity
  /-- the run the line belongs to -/
  context : Option Context
  /-- what is logged -/
  text : String
deriving DecidableEq

namespace LogLine

/-- Two digits of a number below one hundred. -/
def twoDigits (n : Nat) : String := if n < 10 then s!"0{n}" else s!"{n}"

/-- The time of day. -/
def clockText (second : Nat) : String :=
  let s := second % 86400
  twoDigits (s / 3600) ++ ":" ++ twoDigits (s % 3600 / 60) ++ ":" ++ twoDigits (s % 60)

/-- The escape character that starts a change of colour. -/
def escape : String := "\x1b"

/-- A log line as it is printed. -/
def render (l : LogLine) : String :=
  clockText l.second ++ " [" ++ escape ++ "[" ++ l.severity.colour ++ "m" ++ l.severity.word ++
    escape ++ "[0m] " ++
    (match l.context with
      | none => ""
      | some c => c.label ++ " ") ++ "-- " ++ l.text

end LogLine

/-- What a kernel lets an observer know. -/
inductive Note
  /-- everything the kernel was called with -/
  | probe (inputs outputs : List (String × List Single)) (weights : List (List Single))
      (option : Json)
  /-- the label of the active run -/
  | label (text : Option String)
  /-- a run inside the kernel has ended -/
  | innerRun (run : RunId)
  /-- for every input, which outputs cover the same buffer -/
  | aliases (matrix : List (List Bool))

/-- One thing written on a thread. -/
inductive Entry
  /-- a line of the log -/
  | log (line : LogLine)
  /-- a line printed as it is -/
  | line (text : String)
  /-- a note of a kernel -/
  | note (content : Note)
  /-- a notification kept by a recording sink -/
  | report (progress : Progress)

/-! ## Threads -/

/-- The state that runs on one thread share. -/
structure Thread where
  /-- how much is logged -/
  level : Level
  /-- the run that log lines belong to -/
  context : Option Context
  /-- everything written so far -/
  journal : List Entry
  /-- the clock in nanoseconds since midnight, by the number of readings before -/
  clock : Nat → Nat
  /-- the readings taken so far -/
  readings : Nat
  /-- the identifiers of runs, by the number drawn before -/
  ids : Nat → RunId
  /-- the identifiers drawn so far -/
  drawn : Nat

namespace Thread

/-- Appends an entry to the journal. -/
def write (t : Thread) (e : Entry) : Thread := { t with journal := t.journal ++ [e] }

/-- Appends several entries to the journal. -/
def writeAll (t : Thread) (es : List Entry) : Thread := { t with journal := t.journal ++ es }

/-- Prints a line as it is. -/
def print (t : Thread) (text : String) : Thread := t.write (.line text)

/-- Logs a line, if the level lets its kind through. -/
def emit (t : Thread) (s : Severity) (text : String) : Thread :=
  if s.passes t.level then
    -- the time of a line is no reading of the clock that runs measure with
    t.write (.log ⟨t.clock t.readings / 1000000000, s, t.context, text⟩)
  else t

/-- Takes a reading of the clock. -/
def now (t : Thread) : Nat × Thread := (t.clock t.readings, { t with readings := t.readings + 1 })

/-- Draws the identifier of a new run. -/
def draw (t : Thread) : RunId × Thread := (t.ids t.drawn, { t with drawn := t.drawn + 1 })

/-- The label of the active run. -/
def label (t : Thread) : Option String := t.context.map Context.label

/-- Makes a run the active one. -/
def enter (t : Thread) (run : RunId) : Thread := { t with context := some ⟨run, none⟩ }

/-- Sets or clears the instruction of the active run, if one is active. -/
def focus (t : Thread) (instruction : Option Nat) : Thread :=
  { t with context := t.context.map fun c => { c with instruction } }

/-- Puts an earlier context back. -/
def restore (t : Thread) (context : Option Context) : Thread := { t with context }

end Thread

end InferenceEngine
