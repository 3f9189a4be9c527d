import InferenceEngine.Json.Decode
import InferenceEngine.Json.Printer

/-!
# Layouts: named regions of a flat buffer

A `Layout` divides a buffer of `totalSize` elements into named regions, listed in ascending order
of their names. Positions are 64-bit words; where two of them are added, the sum is taken as a
natural number, so that nothing wraps around.

* `Layout.spans` succeeds when every region lies inside the buffer.
* `Layout.check` asks besides that no two regions share an element.
-/

namespace InferenceEngine

/-- One region of a flat buffer, in elements. -/
structure Region where
  /-- the position of the first element -/
  offset : UInt64
  /-- the number of elements -/
  size : UInt64
deriving DecidableEq

namespace Region

/-- The position of the first element. -/
def start (r : Region) : Nat := r.offset.toNat

/-- The position after the last element. -/
def stop (r : Region) : Nat := r.offset.toNat + r.size.toNat

end Region

/-- A flat buffer divided into named regions. -/
structure Layout where
  /-- the number of elements of the buffer -/
  totalSize : UInt64
  /-- the regions -/
  regions : NameMap Region
deriving DecidableEq

namespace Layout

/-- What is wrong with a layout. -/
inductive Fault
  /-- the end of a region is not a 64-bit word -/
  | overflow (name : String)
  /-- a region ends behind the buffer -/
  | exceeds (name : String) (start stop total : Nat)
  /-- two regions share an element -/
  | overlap (first second : String)
deriving DecidableEq

/-- How a fault is reported. -/
def Fault.text : Fault → String
  | overflow name => s!"{name}: offset + size overflows"
  | exceeds name start stop total => s!"{name}: region {start}..{stop} exceeds total_size {total}"
  | overlap first second => s!"{first} overlaps {second}"

/-- A region with its name and its end computed. -/
structure Span where
  /-- the position of the first element -/
  start : Nat
  /-- the position after the last element -/
  stop : Nat
  /-- the name of the region -/
  name : String
deriving DecidableEq

/-- The layout without regions. -/
def empty (totalSize : UInt64) : Layout := ⟨totalSize, .empty⟩

/-- Adds a region, replacing one of the same name. -/
def insert (l : Layout) (name : String) (region : Region) : Layout :=
  { l with regions := l.regions.insert name region }

/-- The layout with the listed regions, inserted one after the other. -/
def ofList (totalSize : UInt64) (regions : List (String × Region)) : Layout :=
  ⟨totalSize, .ofList regions⟩

/-- The region of a name. -/
def get? (l : Layout) (name : String) : Option Region := l.regions.get? name

/-! ## Checks -/

/-- The span of a named region inside a buffer of `total` elements. -/
def span? (total : UInt64) (name : String) (r : Region) : Except Fault Span :=
  -- the end is computed first, so a region that wraps around is not said to exceed the buffer
  if UInt64.size ≤ r.stop then .error (.overflow name)
  else if total.toNat < r.stop then .error (.exceeds name r.start r.stop total.toNat)
  else .ok ⟨r.start, r.stop, name⟩

/-- The spans of a list of named regions, or the first fault. -/
def spansOf (total : UInt64) : List (String × Region) → Except Fault (List Span)
  | [] => .ok []
  | (name, r) :: rest =>
    match span? total name r with
    | .error fault => .error fault
    | .ok s => (spansOf total rest).map (s :: ·)

/-- The spans of all regions in the order of their names, if each lies inside the buffer; the fault
of the first one that does not otherwise. -/
def spans (l : Layout) : Except Fault (List Span) := spansOf l.totalSize l.regions.entries

/-- Every region lies inside the buffer. -/
def checkBounds (l : Layout) : Except Fault Unit := l.spans.map fun _ => ()

/-- Spans in order of position: by start, then by end, then by name. -/
def Span.le (a b : Span) : Bool :=
  a.start < b.start ||
    (a.start = b.start && (a.stop < b.stop || (a.stop = b.stop && a.name ≤ b.name)))

/-- The first two neighbours of which the second starts before the first ends. -/
def collision? : List Span → Option (Span × Span)
  | a :: b :: rest => if b.start < a.stop then some (a, b) else collision? (b :: rest)
  | _ => none

/-- Every region lies inside the buffer and no two share an element. Empty regions share nothing,
and once the others are in order of position only neighbours can meet first. -/
def check (l : Layout) : Except Fault Unit :=
  match l.spans with
  | .error fault => .error fault
  | .ok spans =>
    match collision? ((spans.filter fun s => s.start < s.stop).mergeSort Span.le) with
    | some (a, b) => .error (.overlap a.name b.name)
    | none => .ok ()

/-! ## Text form -/

open Json

/-- The tree a region is written as. -/
def regionTree (r : Region) : Tree :=
  .ofMembers [("offset", .ofNat r.offset.toNat), ("size", .ofNat r.size.toNat)]

/-- The tree a layout is written as. -/
def tree (l : Layout) : Tree :=
  .ofMembers [("total_size", .ofNat l.totalSize.toNat),
    ("allocation", .ofMembers (l.regions.entries.map fun e => (e.1, regionTree e.2)))]

/-- Reads a region: a record with two required fields. -/
def region? : Nat → Tree → Option Region
  | _ + 1, t =>
    match t.fields? ["offset", "size"] with
    | some [offset, size] => do
      let offset ← Tree.required? Tree.count? offset
      let size ← Tree.required? Tree.count? size
      return ⟨offset, size⟩
    | _ => none
  | 0, _ => none

/-- Reads a layout: a record with a required total and a map of regions that may be missing. -/
def ofTree? : Nat → Tree → Option Layout
  | room + 1, t =>
    match t.fields? ["total_size", "allocation"] with
    | some [total, regions] => do
      let total ← Tree.required? Tree.count? total
      let regions ← Tree.optional? NameMap.empty (Tree.map? region? room) regions
      return ⟨total, regions⟩
    | _ => none
  | 0, _ => none

/-- Reads a layout from its text. -/
def ofText? (text : String) : Option Layout := (Tree.ofText? text).bind (ofTree? nestingLimit)

/-- The text of a layout, without blanks. -/
def text (l : Layout) : String := String.ofList l.tree.compact

end Layout

end InferenceEngine
