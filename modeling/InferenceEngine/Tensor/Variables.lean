import InferenceEngine.Tensor.Bank

/-!
# Variables

Every variable of a layout has a buffer of its own, zero at first. Their handles number the names
in ascending order. Regions of the layout only have to lie inside the total: two that overlap still
have two buffers. So the sizes may add up to more than the total, and it is each size for itself
that must not be beyond `Buffer.capacity`.
-/

namespace InferenceEngine

/-- The buffers of the variables, by handle. -/
structure Variables where
  /-- the names, ascending -/
  names : List String
  /-- the buffers, in the order of the names -/
  bank : Bank

namespace Variables

/-- The buffers that a layout asks for. -/
def allocate (l : Layout) : Outcome Variables :=
  match l.validateBounds "variable" with
  | .error e => .error e
  | .ok () => (Bank.zeros (l.regions.values.map fun r => r.size.toNat)).map fun bank => {
      names := l.regions.names
      bank }

/-- The number of variables. -/
def size (v : Variables) : Nat := v.names.length

/-- There are no variables. -/
def isEmpty (v : Variables) : Bool := v.names.isEmpty

/-- The handle of a name. -/
def handle? (v : Variables) (name : String) : Option Nat := v.names.idxOf? name

/-- The name of a handle, which has to be in range. -/
def name (v : Variables) (handle : Nat) : Outcome String :=
  match v.names[handle]? with
  | some name => .ok name
  | none => .panic (.outOfBounds v.names.length handle)

/-- The elements of the variable of a handle, which has to be in range. -/
def buffer (v : Variables) (handle : Nat) : Outcome (List Single) :=
  match v.bank[handle]? with
  | some buffer => .ok buffer.toList
  | none => .panic (.outOfBounds v.bank.length handle)

/-- The elements of a variable by its name. -/
def get? (v : Variables) (name : String) : Option (List Single) :=
  (v.handle? name).map v.bank.elements

/-- Writes one element of the variable of a handle. -/
def set (v : Variables) (handle index : Nat) (x : Single) : Outcome Variables :=
  if handle < v.bank.length then
    (v.bank.write handle index x).map fun bank => { v with bank }
  else .panic (.outOfBounds v.bank.length handle)

/-- The view of a handle, which has to be in range. -/
def view (v : Variables) (handle : Nat) : Outcome View :=
  match v.names[handle]? with
  | some name => .ok ⟨name, handle, v.bank.size handle⟩
  | none => .panic (.outOfBounds v.names.length handle)

/-- A view of every variable, by handle. -/
def views (v : Variables) : List View :=
  v.names.mapIdx fun handle name => ⟨name, handle, v.bank.size handle⟩

/-- The views of a list of handles, which all have to be in range. -/
def viewAll (v : Variables) : List Nat → Outcome (List View)
  | [] => .ok []
  | handle :: rest => do
    let x ← v.view handle
    let xs ← v.viewAll rest
    return x :: xs

end Variables

end InferenceEngine
