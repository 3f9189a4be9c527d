import InferenceEngine.Kernel.Routine

/-!
# Registries of entry points

A `Registry` lists entry points in the order in which their names were first inserted. The place in
that list is the *handle*: inserting a name again replaces its kernel and moves nothing, so a
handle once given out stays good.
-/

namespace InferenceEngine

/-- Named entry points, by handle. -/
structure Registry where
  /-- the entry points -/
  entries : List (String × Kernel)

namespace Registry

/-- The registry without entry points. -/
def empty : Registry := ⟨[]⟩

/-- Replaces the kernel of a listed name, or appends a new entry point. -/
def insertEntry (name : String) (kernel : Kernel) :
    List (String × Kernel) → List (String × Kernel)
  | [] => [(name, kernel)]
  | e :: rest =>
    if e.1 = name then (name, kernel) :: rest else e :: insertEntry name kernel rest

/-- Inserts an entry point under a name, replacing an earlier one. -/
def insert (r : Registry) (name : String) (kernel : Kernel) : Registry :=
  ⟨insertEntry name kernel r.entries⟩

/-- The registry after a list of insertions. -/
def ofList (entries : List (String × Kernel)) : Registry :=
  entries.foldl (fun r e => r.insert e.1 e.2) empty

/-- The names, by handle. -/
def names (r : Registry) : List String := r.entries.map (·.1)

/-- The handle of a name. -/
def handle? (r : Registry) (name : String) : Option Nat := r.names.idxOf? name

/-- The kernel of a handle. -/
def entry? (r : Registry) (handle : Nat) : Option Kernel := (r.entries[handle]?).map (·.2)

/-- The kernel of a handle, which has to be in range. -/
def entry (r : Registry) (handle : Nat) : Outcome Kernel :=
  match r.entry? handle with
  | some kernel => .ok kernel
  | none => .panic (.outOfBounds r.entries.length handle)

/-- The kernel of a name. -/
def get? (r : Registry) (name : String) : Option Kernel := (r.handle? name).bind r.entry?

/-- The name has an entry point. -/
def contains (r : Registry) (name : String) : Bool := (r.handle? name).isSome

/-- The number of entry points. -/
def size (r : Registry) : Nat := r.entries.length

/-- There are no entry points. -/
def isEmpty (r : Registry) : Bool := r.entries.isEmpty

/-- How a registry is shown. -/
def text (r : Registry) : String :=
  Text.describe "KernelRegistry" [("entries", Text.quoteList r.names)]

end Registry

end InferenceEngine
