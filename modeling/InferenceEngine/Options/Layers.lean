import InferenceEngine.Files
import InferenceEngine.Options.Basic
import InferenceEngine.Options.Toml

/-!
# Layers of options

Options come in three layers: the defaults, a file, and variables. For every option the highest
layer that sets it wins, and only the winning setting is converted; if one of the four cannot be
converted, there are no options at all.

A layer comes out of a hash map, so the order of its entries is any. It is chosen here: ascending by
key, for a file of one kind and for variables, and as they are written for one of the other.

* `Layer.value?` is what a layer sets an option to.
* `Options.ofLayers?` takes the winning settings of two layers over the defaults.
* `Layer.ofVariables` and `Layer.ofFile?` make layers.
* `Options.ofLayers` is what loading comes to, which is broken off by a key that leads to a position
  where nothing can be.
-/

namespace InferenceEngine

/-- Settings by key, in the order in which they are made. -/
abbrev Layer := List (String × Setting)

namespace Layer

/-! ## Keys -/

/-- A character of a name inside a key. -/
def isNameChar (c : Char) : Bool := c.isAlphanum || c = '_' || c = '-' || c = ' '

/-- The position between two brackets: a whole number that fits a signed word, with an optional
minus sign, and blanks around it. -/
def position? (cs : List Char) : Option Int := do
  -- blanks go at both ends
  let cs := (Toml.skip (Toml.skip cs).reverse).reverse
  let (negative, ds) := match cs with
    | '-' :: ds => (true, ds)
    | ds => (false, ds)
  if ds.isEmpty then none else
    let ds ← Json.allSome Digit.ofChar? ds
    let n : Int := if negative then -Digits.value ds else Digits.value ds
    if -Json.signedLimit ≤ n ∧ n < Json.signedLimit then some n else none

/-- The positions along a chain of steps into a value, each a dot and a name, or a position between
brackets; nothing, if the characters are no such chain. Every step takes at least one character. -/
def positions? : Nat → List Char → Option (List Int)
  | _, [] => some []
  | 0, _ => none
  | rounds + 1, '.' :: rest =>
    let name := rest.takeWhile isNameChar
    if name.isEmpty then none else positions? rounds (rest.drop name.length)
  -- the first bracket that closes ends the position, whatever stands before it
  | rounds + 1, '[' :: rest =>
    match rest.span (· ≠ ']') with
    | (inside, ']' :: rest) => do
      let position ← position? inside
      let positions ← positions? rounds rest
      return position :: positions
    | _ => none
  | _, _ => none

/-- A key as a path: the name that it starts with, and the positions behind the name. A key that is
no path is a name as it stands. -/
def path? (key : String) : Option (String × List Int) := do
  let cs := key.toList
  let name := cs.takeWhile isNameChar
  let rest := cs.drop name.length
  -- a name with nothing behind it is no path but the name itself
  if name.isEmpty ∨ rest.isEmpty then none else
    let positions ← positions? rest.length rest
    return (String.ofList name, positions)

/-- The option a key sets, and whether it sets the whole option or a part inside it. The case of
names does not matter. -/
def target (key : String) : String × Bool :=
  match path? key with
  | none => (Setting.lower key, true)
  | some (name, _) => (Setting.lower name, false)

/-- The positions on the way that a key leads. -/
def positions (key : String) : List Int := ((path? key).map (·.2)).getD []

/-- No list has this many items or more: there is no room for them in any memory. -/
def positionLimit : Int := 0x100000000000000

/-- How making a list with something at a position is broken off. A negative position is counted
from the end of the list, and before it is made a list has no items. -/
def breach? (position : Int) : Option Panic :=
  if position < 0 then some .beforeFront
  else if positionLimit ≤ position then some .capacityOverflow
  else none

/-- How setting the entries of a layer one after the other is broken off. -/
def breaks? (l : Layer) : Option Panic := l.findSome? fun e => (positions e.1).findSome? breach?

/-- What one entry sets an option to. An entry for a part makes the option a compound. -/
def entryValue? (option : String) (e : String × Setting) : Option Setting :=
  let (name, whole) := target e.1
  if name = option then some (if whole then e.2 else .compound) else none

/-- What a layer sets an option to: the last entry for it counts. Entries for one option can have
different keys, as the case of a name does not matter and there are keys for parts. -/
def value? (l : Layer) (option : String) : Option Setting :=
  l.reverse.findSome? (entryValue? option)

/-! ## Variables -/

/-- What the names of variables start with, in lower case. -/
def variableStart : List Char := "dnnrunner_".toList

/-- The key of a variable, if its name starts as it should; case does not matter. -/
def variableKey? (name : String) : Option String :=
  let cs := (Setting.lower name).toList
  if variableStart.isPrefixOf cs then some (String.ofList (cs.drop variableStart.length)) else none

/-- The layer of variables. A name that is listed again replaces the earlier value, and an empty
value counts as none. -/
def ofVariables (vars : List (String × String)) : Layer :=
  (NameMap.ofList vars).entries.filterMap fun v =>
    if v.2 = "" then none else (variableKey? v.1).map fun key => (key, .text v.2)

/-! ## Files -/

/-- What a member of a configuration object sets. An empty object is merged into the value that the
option has, which changes nothing; as a part it makes the option a compound. -/
def ofMember (m : String × Json) : Layer :=
  if m.2 = .object [] ∧ (target m.1).2 then [] else [(m.1, .ofJson m.2)]

/-- The layer of a JSON text, which has to be an object. -/
def ofJsonText? (text : String) : Option Layer :=
  match Json.ofText? text with
  | some (.object members) => some (members.flatMap ofMember)
  | _ => none

/-- Readers of configuration files, by extension. -/
abbrev Readers := List (String × (String → Option Layer))

/-- The readers that are described here. -/
def readers : Readers := [("json", ofJsonText?), ("toml", Toml.settings?)]

/-- The layer of a configuration file. Where no regular file has the given path, the known
extensions are tried in turn. -/
def readFile? (readers : Readers) (files : Files) (path : String) : Option Layer :=
  match files.read? path with
  -- a file that is there is not looked for elsewhere, even if nobody can read it
  | some _ => do
    let reader ← readers.lookup (Files.extension path)
    reader (← files.readText? path)
  | none => do
    let (path, reader) ← readers.findSome? fun (extension, reader) => do
      let path ← Files.withExtension? path extension
      let _ ← files.read? path
      return (path, reader)
    reader (← files.readText? path)

end Layer

namespace Options

/-- The value of an option: the default, unless it is set. -/
def settle {α : Type} (default : α) (convert : Setting → Option α) : Option Setting → Option α
  | none => some default
  | some s => convert s

/-- The setting of an option that wins: that of the variables, else that of the file. -/
def winner (file vars : Layer) (option : String) : Option Setting :=
  (vars.value? option).orElse fun _ => file.value? option

/-- The options of two layers over the defaults. -/
def ofLayers? (file vars : Layer) : Option Options := do
  let win := winner file vars
  let progress ← settle default.progressIntervalMs Setting.count? (win "progress_interval_ms")
  let pause ← settle default.yieldIntervalMs Setting.count? (win "yield_interval_ms")
  let events ← settle default.traceEvents Setting.flag? (win "trace_events")
  let timer ← settle default.timer Setting.flag? (win "timer")
  return ⟨progress, pause, events, timer⟩

/-- Options, or the failure of loading them. -/
def loaded : Option Options → Outcome Options
  | some o => .ok o
  | none => .error .badOptions

/-- What loading two layers over the defaults comes to. The entries of the file are set before those
of the variables, and whatever they set, each of them can break loading off. -/
def ofLayers (file vars : Layer) : Outcome Options :=
  match Layer.breaks? (file ++ vars) with
  | some p => .panic p
  | none => loaded (ofLayers? file vars)

/-- Options from variables over the defaults. -/
def ofVariables (vars : List (String × String)) : Outcome Options :=
  ofLayers [] (.ofVariables vars)

/-- Options from variables over a file, of a kind that there is a reader for, over the defaults. -/
def ofFileWith (readers : Layer.Readers) (files : Files) (path : String)
    (vars : List (String × String)) : Outcome Options :=
  match Layer.readFile? readers files path with
  | none => .error .badOptions
  | some file => ofLayers file (.ofVariables vars)

/-- Options from variables over a file over the defaults. -/
def ofFile (files : Files) (path : String) (vars : List (String × String)) : Outcome Options :=
  ofFileWith Layer.readers files path vars

end Options

end InferenceEngine
