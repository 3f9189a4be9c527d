import InferenceEngine.Failure
import InferenceEngine.Text.Quoted

/-!
# Banks of buffers and views of them

A `Bank` is a list of buffers, each addressed by its position, its *cell*. Buffers are changed one
element at a time through `Bank.put`, which keeps the number of buffers and every length.

A `View` names a cell. Any number of views may name the same one; all of them see what is written
through any of them, because an element lives in the bank only.
-/

namespace InferenceEngine

/-! ## Buffers -/

namespace Buffer

/-- No buffer has this many elements or more, `2 ^ 61`: one takes four bytes, and no list of bytes
is longer than a signed word can say. -/
def capacity : Nat := 0x2000000000000000

/-- A new buffer of a number of elements, all zero. -/
def zeros (size : Nat) : Outcome (Array Single) :=
  if size < capacity then .ok (Array.replicate size Single.zero) else .panic .capacityOverflow

theorem zeros_of_lt {size : Nat} (h : size < capacity) :
    zeros size = .ok (Array.replicate size Single.zero) := if_pos h

theorem zeros_of_le {size : Nat} (h : capacity ≤ size) : zeros size = .panic .capacityOverflow :=
  if_neg (Nat.not_lt_of_le h)

end Buffer

/-! ## Banks -/

/-- The buffers of a store, by cell. -/
abbrev Bank := List (Array Single)

namespace Bank

/-- New buffers of several sizes, made one after the other. -/
def zeros : List Nat → Outcome Bank
  | [] => .ok []
  | size :: rest => do
    let buffer ← Buffer.zeros size
    let buffers ← zeros rest
    return buffer :: buffers

/-- An element of a buffer. -/
def get? (b : Bank) (cell index : Nat) : Option Single := b[cell]?.bind (·[index]?)

/-- The length of a buffer; a cell that is not there counts as empty. -/
def size (b : Bank) (cell : Nat) : Nat := (b[cell]?.map Array.size).getD 0

/-- The elements of a buffer. -/
def elements (b : Bank) (cell : Nat) : List Single := (b[cell]?.map Array.toList).getD []

/-- Changes one element; an index behind the end changes nothing. -/
def put (b : Bank) (cell index : Nat) (x : Single) : Bank :=
  b.modify cell fun buffer => buffer.setIfInBounds index x

/-- Changes the elements from `index` on, one after the other. -/
def putAll (b : Bank) (cell : Nat) : Nat → List Single → Bank
  | _, [] => b
  | index, x :: xs => (b.put cell index x).putAll cell (index + 1) xs

/-- Reads an element, or is broken off behind the end. -/
def read (b : Bank) (cell index : Nat) : Outcome Single :=
  match b.get? cell index with
  | some x => .ok x
  | none => .panic (.outOfBounds (b.size cell) index)

/-- Writes an element, or is broken off behind the end. -/
def write (b : Bank) (cell index : Nat) (x : Single) : Outcome Bank :=
  if index < b.size cell then .ok (b.put cell index x)
  else .panic (.outOfBounds (b.size cell) index)

/-! ## New buffers -/

/-- Sizes below the capacity all have their buffers. -/
theorem zeros_of_lt {sizes : List Nat} (h : ∀ size ∈ sizes, size < Buffer.capacity) :
    zeros sizes = .ok (sizes.map fun size => Array.replicate size Single.zero) := by
  induction sizes with
  | nil => rfl
  | cons size rest ih =>
    obtain ⟨hsize, hrest⟩ := List.forall_mem_cons.mp h
    rw [zeros, Buffer.zeros_of_lt hsize, ih hrest]
    rfl

/-- A single size beyond it breaks them all off. -/
theorem zeros_of_le {sizes : List Nat} {size : Nat} (hmem : size ∈ sizes)
    (h : Buffer.capacity ≤ size) : zeros sizes = .panic .capacityOverflow := by
  induction sizes with
  | nil => cases hmem
  | cons first rest ih =>
    rw [zeros]
    by_cases hfirst : Buffer.capacity ≤ first
    · rw [Buffer.zeros_of_le hfirst]
      rfl
    · have hrest : size ∈ rest := by
        refine (List.mem_cons.mp hmem).resolve_left ?_
        rintro rfl
        exact hfirst h
      rw [Buffer.zeros_of_lt (Nat.lt_of_not_le hfirst), ih hrest]
      rfl

/-! ## What a change leaves alone -/

@[simp] theorem size_put (b : Bank) (cell index : Nat) (x : Single) (other : Nat) :
    (b.put cell index x).size other = b.size other := by
  simp only [size, put, List.getElem?_modify]
  split <;> cases b[other]? <;> simp

/-- A change leaves every other element alone, -/
theorem get?_put_other (b : Bank) {cell other index i : Nat} (x : Single)
    (h : cell ≠ other ∨ index ≠ i) : (b.put cell index x).get? other i = b.get? other i := by
  simp only [get?, put, List.getElem?_modify]
  split
  · rename_i e
    subst e
    have h : index ≠ i := h.resolve_left (fun h => h rfl)
    cases b[cell]? with
    | none => rfl
    | some buffer => simp [h]
  · cases b[other]? <;> simp

/-- and makes the changed one what it should be. -/
theorem get?_put_self (b : Bank) {cell index : Nat} (x : Single) (h : index < b.size cell) :
    (b.put cell index x).get? cell index = some x := by
  simp only [get?, put, List.getElem?_modify, size] at *
  cases hb : b[cell]? with
  | none => simp [hb] at h
  | some buffer =>
    simp only [hb, Option.map_some, Option.getD_some] at h
    simp [h]

end Bank

/-- A window over one buffer of a bank. -/
structure View where
  /-- the name of the buffer -/
  name : String
  /-- the cell of the buffer -/
  cell : Nat
  /-- the length of the buffer -/
  size : Nat
deriving DecidableEq

namespace View

/-- There are no elements. -/
def isEmpty (v : View) : Bool := v.size = 0

/-- Two views of one bank cover the same elements: they name the same cell, or there are none. -/
def aliases (v w : View) : Bool := v.cell = w.cell || (v.size = 0 && w.size = 0)

/-- The elements of a view. -/
def elements (v : View) (b : Bank) : List Single := b.elements v.cell

/-- Sets every element. -/
def fill (v : View) (b : Bank) (x : Single) : Bank :=
  b.putAll v.cell 0 (List.replicate v.size x)

/-- Copies a list of the same length into the view. -/
def copyFrom (v : View) (b : Bank) (xs : List Single) : Outcome Bank :=
  if v.size = xs.length then .ok (b.putAll v.cell 0 xs)
  else .panic (.wrongLength v.name v.size xs.length)

/-- How a view is shown. -/
def text (v : View) : String :=
  Text.describe "TensorView" [("name", Text.quote v.name), ("len", toString v.size)]

end View

end InferenceEngine
