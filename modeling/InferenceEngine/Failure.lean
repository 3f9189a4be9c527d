import InferenceEngine.Layout

/-!
# Failures

Everything that an operation of the engine can refuse with, as causes. `Failure.message` is the
wording. An operation ends in an `Outcome`: it succeeds, fails, or is broken off by a `Panic`, a
fault of the code that was running rather than of its input.
-/

namespace InferenceEngine

/-- The part a name plays where it is looked up. -/
inductive Role
  /-- an input of an instruction or of the graph -/
  | input
  /-- an output of an instruction or of the graph -/
  | output
  /-- a weight -/
  | weight
  /-- a variable asked for by its name -/
  | buffer
deriving DecidableEq

/-- The word for a role. -/
def Role.word : Role → String
  | input => "input"
  | output => "output"
  | weight => "weight"
  | buffer => "variable"

/-- A document that is read from JSON text. -/
inductive Document
  /-- a layout on its own -/
  | layout
  /-- the descriptor of a graph, with the file it was read from -/
  | descriptor (path : Option String)
  /-- the options of a runner -/
  | options
  /-- the option of an instruction, read as the type a kernel wants -/
  | callOption
deriving DecidableEq

/-- What was being done when a document could not be read. -/
def Document.task : Document → String
  | layout => ""
  | descriptor none => "parse descriptor json"
  | descriptor (some path) => s!"load descriptor {path}: parse descriptor json"
  | options => "parse runner options"
  | callOption => "decode call option"

/-- What was being done to a file that could not be read. -/
inductive FileTask
  /-- reading the text of a descriptor -/
  | descriptor
  /-- mapping a weight file -/
  | weights
deriving DecidableEq

/-- The words for a task. -/
def FileTask.words : FileTask → String
  | descriptor => "read descriptor"
  | weights => "mmap weight file"

/-- What is wrong with encoded or decoded weights. -/
inductive WeightFault
  /-- the bytes are not a whole number of values -/
  | ragged (bytes : Nat)
  /-- the bytes hold another number of values than the layout -/
  | miscounted (held total : Nat)
  /-- a decoder gave another number of values than the layout has -/
  | misfit (decoded total : Nat)
deriving DecidableEq

/-- How a weight fault is reported. -/
def WeightFault.text : WeightFault → String
  | ragged bytes => s!"raw weight blob of {bytes} bytes is not a whole number of f32 values"
  | miscounted held total => s!"raw weight blob holds {held} values, weight total_size is {total}"
  | misfit decoded total => s!"decoded {decoded} values, weight total_size is {total}"

/-- What is wrong with a kernel source. -/
inductive SourceFault
  /-- the source is no manifest -/
  | invalid
  /-- the manifest names a symbol that is not linked -/
  | undefined (symbol : String)
deriving DecidableEq

/-- How a fault of a kernel source is reported. -/
def SourceFault.text : SourceFault → String
  | invalid => "invalid kernel manifest"
  | undefined symbol => s!"undefined kernel symbol {symbol}"

/-- What an operation can refuse with. -/
inductive Failure
  /-- a layout does not fit its buffer -/
  | layout (table : String) (fault : Layout.Fault)
  /-- weights do not match their layout -/
  | decode (fault : WeightFault)
  /-- no decoder for an encoding -/
  | unsupportedEncoding (encoding : String)
  /-- a kernel source cannot be turned into entry points -/
  | kernelCompilation (fault : SourceFault)
  /-- an instruction calls an entry point that is not there -/
  | missingEntryPoint (name : String) (index : Nat)
  /-- a name has no buffer; the index is that of the instruction, if one is running -/
  | unresolvedReference (role : Role) (name : String) (index : Option Nat)
  /-- a runner is compiled twice -/
  | alreadyCompiled
  /-- a runner is used before it is compiled -/
  | notCompiled
  /-- weights are loaded twice -/
  | alreadyLoaded
  /-- a text is not the document it should be -/
  | malformed (document : Document)
  /-- a file cannot be read -/
  | unreadable (task : FileTask) (path : String)
  /-- the layers of options do not give a value for every option -/
  | badOptions
  /-- a step after the last one -/
  | finished
  /-- a variable is given another number of values than it holds -/
  | wrongSize (name : String) (holds given : Nat)
  /-- a kernel wants an operand that the instruction does not name -/
  | missingOperand (role : Role) (index : Nat)
  /-- any other refusal, in the words of whoever refuses -/
  | custom (text : String)
deriving DecidableEq

namespace Failure

/-- Where in the program a reference failed. -/
def location : Option Nat → String
  | none => ""
  | some index => s!" (instruction {index})"

/-- The wording of a failure. -/
def message : Failure → String
  | layout table fault => s!"layout error in {table} allocation: " ++ fault.text
  | decode fault => "weight decode error: " ++ fault.text
  | unsupportedEncoding encoding => s!"unsupported weight encoding: {encoding}"
  | kernelCompilation fault => "kernel compilation failed: " ++ fault.text
  | missingEntryPoint name index => s!"missing kernel entry point {name}" ++ location (some index)
  | unresolvedReference role name index =>
    "unresolved " ++ role.word ++ s!" reference {name}" ++ location index
  | alreadyCompiled => "runner is already compiled"
  | notCompiled => "runner is not compiled"
  | alreadyLoaded => "weights are already loaded"
  | malformed document => document.task
  | unreadable task path => task.words ++ s!" {path}"
  | badOptions => "load runner options"
  | finished => "execution has finished running"
  | wrongSize name holds given => s!"variable {name} holds {holds} values, got {given}"
  | missingOperand role index => "kernel expects " ++ role.word ++ s!" {index}"
  | custom text => text

end Failure

namespace Layout

/-- The answer of a check, as the failure of the layout called `table`. -/
def report (table : String) : Except Fault Unit → Except Failure Unit
  | .ok () => .ok ()
  | .error fault => .error (.layout table fault)

/-- Checks that every region of the layout called `table` lies inside the buffer. -/
def validateBounds (l : Layout) (table : String) : Except Failure Unit :=
  report table l.checkBounds

/-- Checks besides that no two regions share an element. -/
def validate (l : Layout) (table : String) : Except Failure Unit := report table l.check

end Layout

/-- What breaks an operation off. -/
inductive Panic
  /-- a list is indexed at or behind its end -/
  | outOfBounds (length index : Nat)
  /-- a range ends behind the end of its list -/
  | badRange (length stop : Nat)
  /-- a view is filled from a list of another length -/
  | wrongLength (view : String) (holds given : Nat)
  /-- an input that had to be accepted is refused -/
  | refusedInput (name : String) (failure : Failure)
  /-- an output that had to be there is not -/
  | missingOutput (name : String) (failure : Failure)
  /-- a list gets longer than a list can be -/
  | capacityOverflow
  /-- a position is counted from the end of a list that has not as many items -/
  | beforeFront
  /-- a pass goes on behind the last step it can have -/
  | overrun
  /-- any other break, in the words of whoever breaks off -/
  | custom (text : String)
deriving DecidableEq

/-- The wording of a panic. -/
def Panic.message : Panic → String
  | outOfBounds length index =>
    s!"index out of bounds: the len is {length} but the index is {index}"
  | badRange length stop =>
    s!"range end index {stop} out of range for slice of length {length}"
  | wrongLength view holds given =>
    "assertion `left == right` failed: " ++
      s!"view {view} has {holds} elements, source has {given}\n" ++
      s!"  left: {holds}\n right: {given}"
  | refusedInput name failure => s!"insert_inputs failed for {name}: " ++ failure.message
  | missingOutput name failure => s!"fetch_outputs failed for {name}: " ++ failure.message
  | capacityOverflow => "capacity overflow"
  | beforeFront => "attempt to subtract with overflow"
  | overrun => "the pass has run out of steps"
  | custom text => text

/-- How an operation ends. -/
inductive Outcome (α : Type)
  /-- with a value -/
  | ok (value : α)
  /-- refused -/
  | error (failure : Failure)
  /-- broken off -/
  | panic (cause : Panic)
deriving DecidableEq

namespace Outcome

variable {α β : Type}

/-- Changes the value of a success. -/
def map (f : α → β) : Outcome α → Outcome β
  | ok x => ok (f x)
  | error e => error e
  | panic p => panic p

/-- Goes on with the value of a success. -/
protected def bind : Outcome α → (α → Outcome β) → Outcome β
  | ok x, f => f x
  | error e, _ => error e
  | panic p, _ => panic p

instance : Monad Outcome where
  pure := ok
  bind := Outcome.bind

@[simp] theorem ok_bind (x : α) (f : α → Outcome β) : (ok x >>= f) = f x := rfl

@[simp] theorem error_bind (e : Failure) (f : α → Outcome β) : (error e >>= f) = error e := rfl

@[simp] theorem panic_bind (p : Panic) (f : α → Outcome β) : (panic p >>= f) = panic p := rfl

/-- An outcome that cannot be broken off. -/
def ofExcept : Except Failure α → Outcome α
  | .ok x => ok x
  | .error e => error e

/-! ### How compound operations end -/

variable {o : Outcome α} {f : α → Outcome β} {g : α → β} {y : β} {e : Failure} {p : Panic}

/-- Two operations in a row succeed just if both do. -/
theorem bind_eq_ok : (o >>= f) = ok y ↔ ∃ x, o = ok x ∧ f x = ok y := by
  rcases o with x | e | p
  · rw [ok_bind]
    exact ⟨fun h => ⟨x, rfl, h⟩, fun ⟨x', hx, h⟩ => Outcome.ok.inj hx ▸ h⟩
  · exact ⟨nofun, fun ⟨_, h, _⟩ => nomatch h⟩
  · exact ⟨nofun, fun ⟨_, h, _⟩ => nomatch h⟩

/-- They are broken off just if the first is, or if it succeeds and the second is. -/
theorem bind_eq_panic :
    (o >>= f) = panic p ↔ o = panic p ∨ ∃ x, o = ok x ∧ f x = panic p := by
  rcases o with x | e | q
  · rw [ok_bind]
    exact ⟨fun h => .inr ⟨x, rfl, h⟩, fun
      | .inr ⟨x', hx, h⟩ => Outcome.ok.inj hx ▸ h⟩
  · exact ⟨nofun, fun
      | .inr ⟨_, h, _⟩ => nomatch h⟩
  · exact ⟨fun h => .inl (congrArg panic (Outcome.panic.inj h)), fun
      | .inl h => congrArg panic (Outcome.panic.inj h)⟩

/-- Changing the value of a success does not change how an operation ends. -/
theorem map_eq_ok : o.map g = ok y ↔ ∃ x, o = ok x ∧ g x = y := by
  cases o <;> simp [map]

theorem map_eq_error : o.map g = error e ↔ o = error e := by
  cases o <;> simp [map]

theorem map_eq_panic : o.map g = panic p ↔ o = panic p := by
  cases o <;> simp [map]

theorem ofExcept_eq_ok {r : Except Failure α} {x : α} : ofExcept r = ok x ↔ r = .ok x := by
  cases r <;> simp [ofExcept]

/-- What can only be refused is never broken off. -/
theorem ofExcept_ne_panic (r : Except Failure α) : ofExcept r ≠ panic p := by
  cases r <;> exact nofun

end Outcome

end InferenceEngine
