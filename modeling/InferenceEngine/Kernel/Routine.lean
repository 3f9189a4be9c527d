import InferenceEngine.CallOption
import InferenceEngine.Tensor.Bank
import InferenceEngine.Thread

/-!
# Routines: what a kernel does

A kernel is called with `Args`: views of the variables that the instruction names, the slices of
its weights, and its option. It answers with a `Routine`, the syntax of what it does next, and
`Routine.run` carries that out on a bank and a thread.

What is *absent* is the point. A routine reads and writes elements through the *pins* of its call
and has no constructor that reaches another buffer, a weight, or the length of anything, so a
kernel changes nothing but elements of the variables it was given.

* `done`, `fail`, `panic` end a routine.
* `read`, `write` are its access to elements; behind the end of a view they break the call off.
* `note` leaves something for an observer and cannot be read back.
* `look`, `become` give access to the thread, for kernels that log or run programs of their own.
-/

namespace InferenceEngine

/-! ## Arguments -/

/-- What a kernel is called with. -/
structure Args where
  /-- views of the inputs, in the order the instruction lists them -/
  inputs : List View
  /-- views of the outputs, in the order the instruction lists them -/
  outputs : List View
  /-- the elements of the weights, in the order the instruction lists them -/
  weights : List (Array Single)
  /-- the option of the instruction -/
  option : CallOption

/-- A view of a call, by its place among the inputs or the outputs. -/
inductive Pin
  /-- the view of an input -/
  | input (index : Nat)
  /-- the view of an output -/
  | output (index : Nat)
deriving DecidableEq

namespace Pin

/-- The views that a pin picks from. -/
def pool (args : Args) : Pin → List View
  | input _ => args.inputs
  | output _ => args.outputs

/-- The place of a pin in its pool. -/
def index : Pin → Nat
  | input index => index
  | output index => index

/-- The view behind a pin. -/
def view? (args : Args) (p : Pin) : Option View := (p.pool args)[p.index]?

end Pin

/-! ## Syntax -/

/-- What a kernel does, up to a result in `α`. -/
inductive Routine (α : Type) : Type
  /-- ends with a result -/
  | done (value : α)
  /-- refuses -/
  | fail (failure : Failure)
  /-- is broken off -/
  | panic (cause : Panic)
  /-- reads an element -/
  | read (pin : Pin) (index : Nat) (next : Single → Routine α)
  /-- writes an element -/
  | write (pin : Pin) (index : Nat) (x : Single) (next : Routine α)
  /-- leaves a note -/
  | note (content : Note) (next : Routine α)
  /-- looks at the thread -/
  | look (next : Thread → Routine α)
  /-- changes the thread -/
  | become (thread : Thread) (next : Routine α)

namespace Routine

variable {α β : Type}

/-- Grafts a continuation onto every result. -/
protected def bind : Routine α → (α → Routine β) → Routine β
  | done x, f => f x
  | fail e, _ => fail e
  | panic p, _ => panic p
  | read pin i k, f => read pin i fun x => (k x).bind f
  | write pin i x k, f => write pin i x (k.bind f)
  | note n k, f => note n (k.bind f)
  | look k, f => look fun t => (k t).bind f
  | become t k, f => become t (k.bind f)

instance : Monad Routine where
  pure := done
  bind := Routine.bind

/-- The reply of an operation that may fail. -/
def ofExcept : Except Failure α → Routine α
  | .ok x => done x
  | .error e => fail e

/-- The reply of an operation that may fail or be broken off. -/
def ofOutcome : Outcome α → Routine α
  | .ok x => done x
  | .error e => fail e
  | .panic p => panic p

/-- Carries out an operation on the thread. -/
def onThread (act : Thread → α × Thread) : Routine α :=
  look fun t => become (act t).2 (done (act t).1)

/-- Does something for `count` indices from `start` on, in ascending order. -/
def sweep (body : Nat → Routine Unit) : Nat → Nat → Routine Unit
  | 0, _ => done ()
  | count + 1, start => (body start).bind fun _ => sweep body count (start + 1)

/-! ## Interpretation -/

/-- The end of a routine that uses a pin its call does not have. -/
def noPin (args : Args) (pin : Pin) : Outcome α :=
  .panic (.outOfBounds (pin.pool args).length pin.index)

/-- Carries a routine out on the buffers its views lie in. What was written before it fails or is
broken off stays written. -/
def run (args : Args) : Routine α → Bank → Thread → Outcome α × Bank × Thread
  | done x, b, t => (.ok x, b, t)
  | fail e, b, t => (.error e, b, t)
  | panic p, b, t => (.panic p, b, t)
  | read pin i k, b, t =>
    match pin.view? args with
    | none => (noPin args pin, b, t)
    | some v =>
      match b.get? v.cell i with
      | none => (.panic (.outOfBounds (b.size v.cell) i), b, t)
      | some x => run args (k x) b t
  | write pin i x k, b, t =>
    match pin.view? args with
    | none => (noPin args pin, b, t)
    | some v =>
      if i < b.size v.cell then run args k (b.put v.cell i x) t
      else (.panic (.outOfBounds (b.size v.cell) i), b, t)
  | note n k, b, t => run args k b (t.write (.note n))
  | look k, b, t => run args (k t) b t
  | become t k, b, _ => run args k b t

/-- A sequence of two routines stops where the first one stops, or goes on where it ended. -/
theorem run_bind (args : Args) (r : Routine α) (f : α → Routine β) (b : Bank) (t : Thread) :
    (r.bind f).run args b t =
      match r.run args b t with
      | (.ok x, b, t) => (f x).run args b t
      | (.error e, b, t) => (.error e, b, t)
      | (.panic p, b, t) => (.panic p, b, t) := by
  induction r generalizing b t with
  | done x => rfl
  | fail e => rfl
  | panic p => rfl
  | read pin i k ih =>
    simp only [Routine.bind, run]
    cases pin.view? args with
    | none => rfl
    | some v =>
      dsimp only
      cases b.get? v.cell i with
      | none => rfl
      -- what is read decides how the routine goes on, so the hypothesis is for every element
      | some x => exact ih x b t
  | write pin i x k ih =>
    simp only [Routine.bind, run]
    cases pin.view? args with
    | none => rfl
    | some v =>
      dsimp only
      split
      · exact ih _ t
      · rfl
  | note n k ih => exact ih b _
  | look k ih => exact ih t b t
  | become t' k ih => exact ih b t'

end Routine

/-! ## Kernels -/

/-- A callable entry point. -/
abbrev Kernel := Args → Routine Unit

/-- A view of a call together with its pin. -/
structure Operand where
  /-- the pin of the view -/
  pin : Pin
  /-- the view -/
  view : View

namespace Args

/-- The input of a given place, which the call has to have. -/
def input (args : Args) (index : Nat) : Routine Operand :=
  match args.inputs[index]? with
  | some view => .done ⟨.input index, view⟩
  | none => .fail (.missingOperand .input index)

/-- The output of a given place, which the call has to have. -/
def output (args : Args) (index : Nat) : Routine Operand :=
  match args.outputs[index]? with
  | some view => .done ⟨.output index, view⟩
  | none => .fail (.missingOperand .output index)

/-- The weight of a given place, which the call has to have. -/
def weight (args : Args) (index : Nat) : Routine (Array Single) :=
  match args.weights[index]? with
  | some w => .done w
  | none => .fail (.missingOperand .weight index)

end Args

namespace Operand

/-- The number of elements. -/
def size (o : Operand) : Nat := o.view.size

/-- Reads an element. -/
def get (o : Operand) (index : Nat) : Routine Single := .read o.pin index .done

/-- Writes an element. -/
def set (o : Operand) (index : Nat) (x : Single) : Routine Unit := .write o.pin index x (.done ())

/-- Reads `count` elements from `start` on. -/
def slice (o : Operand) : Nat → Nat → Routine (List Single)
  | 0, _ => .done []
  | count + 1, start => do
    let x ← o.get start
    let xs ← o.slice count (start + 1)
    return x :: xs

/-- Reads all elements. -/
def elements (o : Operand) : Routine (List Single) := o.slice o.size 0

/-- Writes the elements from `index` on. -/
def setAll (o : Operand) : Nat → List Single → Routine Unit
  | _, [] => .done ()
  | index, x :: xs => (o.set index x).bind fun _ => o.setAll (index + 1) xs

/-- Sets every element. -/
def fill (o : Operand) (x : Single) : Routine Unit := o.setAll 0 (List.replicate o.size x)

/-- Copies a list of the same length. -/
def copyFrom (o : Operand) (xs : List Single) : Routine Unit :=
  if o.size = xs.length then o.setAll 0 xs
  else .panic (.wrongLength o.view.name o.size xs.length)

end Operand

/-- Reads an element of a weight, or is broken off behind the end. -/
def weightAt (w : Array Single) (index : Nat) : Routine Single :=
  match w[index]? with
  | some x => .done x
  | none => .panic (.outOfBounds w.size index)

end InferenceEngine
