import InferenceEngine.Tensor.Bank

/-!
# Weights

All weights share one buffer, and each name of the layout is a window over it. Filling the buffer
once gives every weight its values.

`Weights.allocate` fails on a layout that is not sound, and is broken off by one that asks for a
buffer beyond `Buffer.capacity`.
-/

namespace InferenceEngine

/-- The weights of a layout. -/
structure Weights where
  /-- the names, ascending -/
  names : List String
  /-- the first position and the position after the last, in the order of the names -/
  windows : List (Nat × Nat)
  /-- the buffer -/
  data : Array Single

namespace Weights

/-- The buffer that a layout asks for, all zeros. -/
def allocate (l : Layout) : Outcome Weights :=
  match l.validate "weight" with
  | .error e => .error e
  | .ok () =>
    -- only the total counts here: a window takes no room of its own
    (Buffer.zeros l.totalSize.toNat).map fun data => {
      names := l.regions.names
      windows := l.regions.values.map fun r => (r.start, r.stop)
      data }

/-- The number of elements of the buffer. -/
def totalSize (w : Weights) : Nat := w.data.size

/-- The number of weights. -/
def size (w : Weights) : Nat := w.names.length

/-- There are no weights. -/
def isEmpty (w : Weights) : Bool := w.names.isEmpty

/-- The handle of a name. -/
def handle? (w : Weights) (name : String) : Option Nat := w.names.idxOf? name

/-- The name of a handle, which has to be in range. -/
def name (w : Weights) (handle : Nat) : Outcome String :=
  match w.names[handle]? with
  | some name => .ok name
  | none => .panic (.outOfBounds w.names.length handle)

/-- The elements between two positions of the buffer. -/
def window (w : Weights) (range : Nat × Nat) : Array Single := w.data.extract range.1 range.2

/-- The elements of the weight of a handle. The handle has to be in range, and its window has to
lie inside the buffer. -/
def view (w : Weights) (handle : Nat) : Outcome (Array Single) :=
  match w.windows[handle]? with
  | some range =>
    if range.2 ≤ w.data.size then .ok (w.window range)
    else .panic (.badRange w.data.size range.2)
  | none => .panic (.outOfBounds w.windows.length handle)

/-- The elements of a weight by its name. -/
def get? (w : Weights) (name : String) : Option (Array Single) :=
  ((w.handle? name).bind fun handle => w.windows[handle]?).map w.window

/-- The elements of all weights, by handle. -/
def views (w : Weights) : List (Array Single) := w.windows.map w.window

/-- Fills the buffer with a sequence of the same length. -/
def fill (w : Weights) (decoded : List Single) : Except Failure Weights :=
  if decoded.length = w.data.size then .ok { w with data := decoded.toArray }
  else .error (.decode (.misfit decoded.length w.data.size))

end Weights

end InferenceEngine
