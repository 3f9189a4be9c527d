import InferenceEngine.Proofs.Arenas
import InferenceEngine.Proofs.Handles

/-!
# Arenas in containers that are filled side by side

An arena keeps what it lists in three containers: the names and the items by handle, and the handles
by name. `Weights` and `Variables` leave the third one out and search the names instead. Here the
containers are filled by a loop over the regions of a layout, and give the same answers.

* `Shelf.push_of_holds` — one round of the loop keeps the containers in agreement, if the name is
  new, and `Shelf.fill_of_made` carries that along the loop.
* `Weights.Columns.allocate_exact` and `Variables.Columns.allocate_exact` — the two arenas.
-/

namespace InferenceEngine

/-! ## The loop -/

/-- Named items in three containers. -/
structure Shelf (α : Type) where
  /-- the names, by handle -/
  names : List String
  /-- the items, by handle -/
  items : List α
  /-- the handles -/
  index : NameMap Nat

namespace Shelf

variable {α : Type}

/-- Nothing yet. -/
def empty : Shelf α := ⟨[], [], .empty⟩

/-- One round: the handle of the new name is the number of names so far. -/
def push (s : Shelf α) (name : String) (item : α) : Shelf α where
  names := s.names ++ [name]
  items := s.items ++ [item]
  index := s.index.insert name s.names.length

/-- A round for each region, whose item is made in it. -/
def fill (make : Region → Outcome α) (s : Shelf α) : List (String × Region) → Outcome (Shelf α)
  | [] => .ok s
  | (name, r) :: rest => do
    let item ← make r
    fill make (s.push name item) rest

/-- The handle of a name. -/
def handle? (s : Shelf α) (name : String) : Option Nat := s.index.get? name

/-- The name of a handle, which has to be in range. -/
def name (s : Shelf α) (handle : Nat) : Outcome String :=
  match s.names[handle]? with
  | some name => .ok name
  | none => .panic (.outOfBounds s.names.length handle)

/-- The item of a handle, likewise. -/
def item (s : Shelf α) (handle : Nat) : Outcome α :=
  match s.items[handle]? with
  | some item => .ok item
  | none => .panic (.outOfBounds s.items.length handle)

/-- The containers hold what is listed. -/
structure Holds (s : Shelf α) (entries : List (String × α)) : Prop where
  /-- the names -/
  names : s.names = entries.map (·.1)
  /-- the items -/
  items : s.items = entries.map (·.2)
  /-- a name is indexed with its place -/
  index : ∀ name, s.index.get? name = (entries.map (·.1)).idxOf? name

variable {s : Shelf α} {entries : List (String × α)} {regions : List (String × Region)}
  {make : Region → Outcome α}

theorem holds_empty : (empty : Shelf α).Holds [] := ⟨rfl, rfl, fun _ => rfl⟩

/-- **What one round preserves.** A new name is put at the end of all three. Were it listed before,
the index would lead behind its first place. -/
theorem push_of_holds (h : s.Holds entries) {name : String} (hnew : name ∉ entries.map (·.1))
    (item : α) : (s.push name item).Holds (entries ++ [(name, item)]) := by
  refine ⟨?_, ?_, fun other => ?_⟩
  · rw [push, h.names, List.map_append]
    rfl
  · rw [push, h.items, List.map_append]
    rfl
  · have hindexed : (s.push name item).index.get? other =
        if other = name then some s.names.length else s.index.get? other :=
      NameMap.get?_insert s.index name s.names.length other
    rw [hindexed, List.map_append, Registry.idxOf?_append, h.index, h.names]
    by_cases hother : other = name
    · subst hother
      rw [if_pos rfl, List.idxOf?_eq_none_iff.mpr hnew]
      simp
    · rw [if_neg hother]
      simp [Ne.symm hother]

/-- **What the loop preserves.** If the names are all different and every item can be made, the
containers hold them in the order of the regions. -/
theorem fill_of_made (h : s.Holds entries) (made : Region → α)
    (hmade : ∀ e ∈ regions, make e.2 = .ok (made e.2))
    (hnodup : (entries.map (·.1) ++ regions.map (·.1)).Nodup) :
    ∃ s', s.fill make regions = .ok s' ∧
      s'.Holds (entries ++ regions.map fun e => (e.1, made e.2)) := by
  induction regions generalizing s entries with
  | nil => exact ⟨s, rfl, by simpa using h⟩
  | cons e rest ih =>
    obtain ⟨name, r⟩ := e
    obtain ⟨hitem, hrest⟩ := List.forall_mem_cons.mp hmade
    rw [List.map_cons] at hnodup
    have hnew : name ∉ entries.map (·.1) := fun hmem =>
      (List.nodup_append.mp hnodup).2.2 name hmem name (.head _) rfl
    obtain ⟨s', hfill, hholds⟩ := ih (push_of_holds h hnew (made r)) hrest (by simpa using hnodup)
    refine ⟨s', ?_, by simpa using hholds⟩
    rw [fill, hitem]
    exact hfill

/-- The loop is broken off if an item is and nothing else goes wrong before it. -/
theorem fill_of_broken {p : Panic}
    (hmake : ∀ e ∈ regions, make e.2 = .panic p ∨ ∃ item, make e.2 = .ok item)
    (hbroken : ∃ e ∈ regions, make e.2 = .panic p) : s.fill make regions = .panic p := by
  induction regions generalizing s with
  | nil =>
    obtain ⟨_, hmem, -⟩ := hbroken
    cases hmem
  | cons e rest ih =>
    obtain ⟨name, r⟩ := e
    obtain ⟨hfirst, hrest⟩ := List.forall_mem_cons.mp hmake
    rcases hfirst with hitem | ⟨item, hitem⟩
    · rw [fill, hitem]
      rfl
    · have hlater : ∃ e ∈ rest, make e.2 = .panic p := by
        obtain ⟨e, hmem, hp⟩ := hbroken
        obtain rfl | hmem := List.mem_cons.mp hmem
        · cases hitem.symm.trans hp
        · exact ⟨e, hmem, hp⟩
      rw [fill, hitem]
      exact ih hrest hlater

/-! ### Reading -/

/-- Names and items are as many as there are handles. -/
theorem Holds.length_items (h : s.Holds entries) : s.items.length = s.names.length := by
  rw [h.items, h.names, List.length_map, List.length_map]

theorem Holds.size_index (h : s.Holds entries) (hnodup : (entries.map (·.1)).Nodup) :
    s.index.size = s.names.length := by
  rw [h.names]
  exact Registry.size_of_places hnodup h.index

/-- The index finds what a search of the names finds. -/
theorem Holds.handle? (h : s.Holds entries) (name : String) :
    s.handle? name = s.names.idxOf? name := by
  rw [Shelf.handle?, h.index, h.names]

/-- Where the index leads, the item of the name is listed. -/
theorem Holds.item_of_handle? (h : s.Holds entries) {name : String} {handle : Nat}
    (hhandle : s.handle? name = some handle) :
    ∃ item, (name, item) ∈ entries ∧ s.items[handle]? = some item := by
  rw [Shelf.handle?, h.index] at hhandle
  obtain ⟨hnone, -⟩ | ⟨place, item, hplace, hentry, -⟩ := lookup_cases entries name
  · cases hnone.symm.trans hhandle
  · obtain rfl := Option.some.inj (hplace.symm.trans hhandle)
    refine ⟨item, List.mem_of_getElem? hentry, ?_⟩
    rw [h.items, List.getElem?_map, hentry]
    rfl

end Shelf

/-! ## Weights -/

/-- The positions between which a region lies, added with a check for overflow. -/
def Region.checkedRange (r : Region) : Outcome (Nat × Nat) :=
  if r.stop < UInt64.size then .ok (r.start, r.stop)
  else .panic (.custom "attempt to add with overflow")

/-- The elements between two positions, which have to lie inside a buffer. -/
def Buffer.slice (data : Array Single) (range : Nat × Nat) : Outcome (Array Single) :=
  if range.2 ≤ data.size then .ok (data.extract range.1 range.2)
  else .panic (.badRange data.size range.2)

/-- The elements between several such positions. -/
def Buffer.slices (data : Array Single) : List (Nat × Nat) → Outcome (List (Array Single))
  | [] => .ok []
  | range :: rest => do
    let window ← slice data range
    let windows ← slices data rest
    return window :: windows

/-- Windows that all lie inside the buffer are all read. -/
theorem Buffer.slices_of_inside {data : Array Single} {ranges : List (Nat × Nat)}
    (h : ∀ range ∈ ranges, range.2 ≤ data.size) :
    slices data ranges = .ok (ranges.map fun range => data.extract range.1 range.2) := by
  induction ranges with
  | nil => rfl
  | cons range rest ih =>
    obtain ⟨hfirst, hrest⟩ := List.forall_mem_cons.mp h
    rw [slices, slice, if_pos hfirst, ih hrest]
    rfl

/-- The weights in their containers: windows by handle, over one buffer. -/
structure Weights.Columns where
  /-- the windows -/
  shelf : Shelf (Nat × Nat)
  /-- the buffer -/
  data : Array Single

namespace Weights.Columns

/-- Fills the containers and then makes the buffer. -/
def allocate (l : Layout) : Outcome Columns :=
  match l.validate "weight" with
  | .error e => .error e
  | .ok () => do
    let shelf ← Shelf.empty.fill Region.checkedRange l.regions.entries
    let data ← Buffer.zeros l.totalSize.toNat
    return ⟨shelf, data⟩

/-- The elements of the weight of a handle. -/
def view (c : Columns) (handle : Nat) : Outcome (Array Single) := do
  let range ← c.shelf.item handle
  Buffer.slice c.data range

/-- The elements of a weight by its name. -/
def get? (c : Columns) (name : String) : Outcome (Option (Array Single)) :=
  match c.shelf.handle? name with
  | none => .ok none
  | some handle => (c.view handle).map some

/-- The elements of all weights, by handle. -/
def views (c : Columns) : Outcome (List (Array Single)) := Buffer.slices c.data c.shelf.items

/-- The arena without its index. -/
def arena (c : Columns) : Weights := ⟨c.shelf.names, c.shelf.items, c.data⟩

variable {l : Layout}

/-- In a sound layout no end of a region is lost to overflow. -/
theorem checkedRange_of_fits (h : l.Fits) {e : String × Region} (hmem : e ∈ l.regions.entries) :
    e.2.checkedRange = .ok (e.2.start, e.2.stop) := by
  refine if_pos ?_
  have hstop : e.2.stop ≤ l.totalSize.toNat := h e.1 e.2 (NameMap.get?_eq_some_iff.mpr hmem)
  exact hstop.trans_lt l.totalSize.toNat_lt

/-- The windows of a layout, by name. -/
abbrev windowsOf (l : Layout) : List (String × Nat × Nat) :=
  l.regions.entries.map fun e => (e.1, e.2.start, e.2.stop)

/-- The loop comes to its end for a sound layout. -/
theorem fill_windows (h : l.Fits) : ∃ shelf : Shelf (Nat × Nat),
    Shelf.empty.fill Region.checkedRange l.regions.entries = .ok shelf ∧ shelf.Holds (windowsOf l) :=
  Shelf.fill_of_made Shelf.holds_empty (fun r => (r.start, r.stop))
    (fun _ hmem => checkedRange_of_fits h hmem) (nodup_of_ascending l.regions.ascending)

/-- After the loop only the buffer can be too long. -/
theorem allocate_of_valid (h : l.validate "weight" = .ok ()) :
    ∃ shelf : Shelf (Nat × Nat), shelf.Holds (windowsOf l) ∧
      allocate l = (Buffer.zeros l.totalSize.toNat).map fun data => ⟨shelf, data⟩ := by
  obtain ⟨shelf, hfill, hholds⟩ := fill_windows (Layout.fits_of_validate h)
  refine ⟨shelf, hholds, ?_⟩
  rw [allocate, h]
  dsimp only
  rw [hfill, Outcome.ok_bind]
  cases Buffer.zeros l.totalSize.toNat <;> rfl

/-- Forgetting the index of what was allocated leaves the arena. -/
theorem map_allocate (l : Layout) : (allocate l).map arena = Weights.allocate l := by
  cases hvalid : l.validate "weight" with
  | error f =>
    rw [allocate, Weights.allocate, hvalid]
    rfl
  | ok u =>
    obtain ⟨shelf, hholds, hallocate⟩ := allocate_of_valid hvalid
    have hnames : shelf.names = l.regions.names := by simp [hholds.names, NameMap.names]
    have hwindows : shelf.items = l.regions.values.map fun r => (r.start, r.stop) := by
      simp [hholds.items, NameMap.values]
    rw [hallocate, Weights.allocate, hvalid]
    dsimp only
    rw [← hnames, ← hwindows]
    cases Buffer.zeros l.totalSize.toNat <;> rfl

/-- What is in the containers, and that every window lies inside the buffer. -/
theorem allocate_spec {c : Columns} (h : allocate l = .ok c) :
    c.shelf.Holds (windowsOf l) ∧ ∀ range ∈ c.shelf.items, range.2 ≤ c.data.size := by
  have harena : Weights.allocate l = .ok c.arena := by rw [← map_allocate, h]; rfl
  obtain ⟨hfits, -, hwindows, htotal⟩ := Weights.allocate_spec harena
  cases hvalid : l.validate "weight" with
  | error f => simp [allocate, hvalid] at h
  | ok u =>
    obtain ⟨shelf, hholds, hallocate⟩ := allocate_of_valid hvalid
    obtain ⟨data, -, rfl⟩ := Outcome.map_eq_ok.mp (hallocate.symm.trans h)
    refine ⟨hholds, fun range hmem => ?_⟩
    rw [hholds.items, List.map_map] at hmem
    obtain ⟨e, hentry, rfl⟩ := List.mem_map.mp hmem
    exact (hfits e.1 e.2 (NameMap.get?_eq_some_iff.mpr hentry)).trans_eq htotal.symm

/-! ### Reading -/

variable {c : Columns} {entries : List (String × Nat × Nat)}

theorem view_eq (c : Columns) (handle : Nat) : c.view handle = c.arena.view handle := by
  rw [view, Shelf.item, Weights.view, arena]
  cases c.shelf.items[handle]? <;> rfl

/-- By name, the index leads to a window that is there and lies inside the buffer. -/
theorem get?_eq (h : c.shelf.Holds entries)
    (hinside : ∀ range ∈ c.shelf.items, range.2 ≤ c.data.size) (name : String) :
    c.get? name = .ok (c.arena.get? name) := by
  have hsearch : c.arena.handle? name = c.shelf.handle? name := (h.handle? name).symm
  rw [get?, Weights.get?, hsearch]
  cases hhandle : c.shelf.handle? name with
  | none => rfl
  | some handle =>
    obtain ⟨range, -, hitem⟩ := h.item_of_handle? hhandle
    have hwindow : c.arena.windows[handle]? = some range := hitem
    have hslice : Buffer.slice c.data range = .ok (c.arena.window range) :=
      if_pos (hinside range (List.mem_of_getElem? hitem))
    rw [Option.bind_some, hwindow]
    simp only [view, Shelf.item, hitem, Outcome.ok_bind, hslice]
    rfl

/-- **The containers of the weights hold the arena.** Filling them ends as allocating the arena
does, and no end of a region is lost to overflow on the way. Whatever the buffer holds later, there
are as many windows and handles as names, the index has the handle that a search of the names has,
and a window read by handle, by name or among all windows is that of the arena. By name and among
all windows, nothing is out of range. -/
theorem allocate_exact (l : Layout) :
    (allocate l).map arena = Weights.allocate l ∧
    ∀ c, allocate l = .ok c → ∀ data : Array Single, data.size = c.data.size →
      let c : Columns := { c with data }
      let w := c.arena
      (c.shelf.index.size = w.size ∧ c.shelf.items.length = w.size) ∧
      (∀ name, c.shelf.handle? name = w.handle? name) ∧
      (∀ handle, c.shelf.name handle = w.name handle) ∧
      (∀ handle, c.view handle = w.view handle) ∧
      (∀ name, c.get? name = .ok (w.get? name)) ∧ c.views = .ok w.views := by
  refine ⟨map_allocate l, fun c hc data hdata => ?_⟩
  obtain ⟨hholds, hinside⟩ := allocate_spec hc
  rw [← hdata] at hinside
  have hnodup : ((windowsOf l).map (·.1)).Nodup := by
    rw [List.map_map]
    exact nodup_of_ascending l.regions.ascending
  exact ⟨⟨hholds.size_index hnodup, hholds.length_items⟩, hholds.handle?, fun _ => rfl,
    view_eq _, get?_eq hholds hinside, Buffer.slices_of_inside hinside⟩

end Weights.Columns

/-! ## Variables -/

/-- The variables in their containers: a buffer of its own for each handle. -/
abbrev Variables.Columns := Shelf (Array Single)

namespace Variables.Columns

/-- Fills the containers, each buffer being made in its round. -/
def allocate (l : Layout) : Outcome Columns :=
  match l.validateBounds "variable" with
  | .error e => .error e
  | .ok () => Shelf.empty.fill (fun r => Buffer.zeros r.size.toNat) l.regions.entries

/-- The elements of the variable of a handle. -/
def buffer (c : Columns) (handle : Nat) : Outcome (List Single) :=
  (Shelf.item c handle).map Array.toList

/-- The elements of a variable by its name. -/
def get? (c : Columns) (name : String) : Outcome (Option (List Single)) :=
  match Shelf.handle? c name with
  | none => .ok none
  | some handle => (buffer c handle).map some

/-- A view of every buffer, with the name that is listed beside it. -/
def views (c : Columns) : List View :=
  (c.items.zip c.names).mapIdx fun handle b => ⟨b.2, handle, b.1.size⟩

/-- The arena without its index. -/
def arena (c : Columns) : Variables := ⟨c.names, c.items⟩

variable {l : Layout}

/-- New buffers for the regions of a layout, by name. -/
abbrev buffersOf (l : Layout) : List (String × Array Single) :=
  l.regions.entries.map fun e => (e.1, Array.replicate e.2.size.toNat .zero)

/-- The loop comes to its end if no region is too long. -/
theorem fill_buffers (h : l.SizesHeld) : ∃ c : Columns,
    Shelf.empty.fill (fun r => Buffer.zeros r.size.toNat) l.regions.entries = .ok c ∧
      c.Holds (buffersOf l) := by
  refine Shelf.fill_of_made Shelf.holds_empty (fun r => Array.replicate r.size.toNat Single.zero)
    (fun e hmem => ?_) (nodup_of_ascending l.regions.ascending)
  exact Buffer.zeros_of_lt (h _ (List.mem_map_of_mem (List.mem_map_of_mem hmem)))

/-- A region that is too long breaks it off. -/
theorem fill_overflow (s : Columns) (h : ¬ l.SizesHeld) :
    s.fill (fun r => Buffer.zeros r.size.toNat) l.regions.entries = .panic .capacityOverflow := by
  refine Shelf.fill_of_broken (fun e _ => ?_) ?_
  · rcases Nat.lt_or_ge e.2.size.toNat Buffer.capacity with hsize | hsize
    · exact .inr ⟨_, Buffer.zeros_of_lt hsize⟩
    · exact .inl (Buffer.zeros_of_le hsize)
  · obtain ⟨size, hmem, hlong⟩ : ∃ size ∈ l.regions.values.map (·.size.toNat),
        ¬ size < Buffer.capacity := by
      simpa only [Layout.SizesHeld, not_forall, exists_prop] using h
    rw [NameMap.values, List.map_map] at hmem
    obtain ⟨e, hentry, rfl⟩ := List.mem_map.mp hmem
    exact ⟨e, hentry, Buffer.zeros_of_le (Nat.le_of_not_lt hlong)⟩

theorem map_allocate (l : Layout) : (allocate l).map arena = Variables.allocate l := by
  cases hvalid : l.validateBounds "variable" with
  | error f =>
    rw [allocate, Variables.allocate, hvalid]
    rfl
  | ok u =>
    rw [Variables.allocate_of_valid hvalid, allocate, hvalid]
    dsimp only
    split
    next hheld =>
      obtain ⟨c, hfill, hholds⟩ := fill_buffers hheld
      rw [hfill, Outcome.map, arena, hholds.names, hholds.items, List.map_map, List.map_map,
        Variables.blank, NameMap.values, List.map_map, List.map_map]
      rfl
    next hheld =>
      rw [fill_overflow _ hheld]
      rfl

theorem allocate_spec {c : Columns} (h : allocate l = .ok c) : c.Holds (buffersOf l) := by
  cases hvalid : l.validateBounds "variable" with
  | error f => simp [allocate, hvalid] at h
  | ok u =>
    rw [allocate, hvalid] at h
    by_cases hheld : l.SizesHeld
    · obtain ⟨c', hfill, hholds⟩ := fill_buffers hheld
      obtain rfl := Outcome.ok.inj (hfill.symm.trans h)
      exact hholds
    · cases (fill_overflow _ hheld).symm.trans h

/-! ### Reading -/

variable {c : Columns} {entries : List (String × Array Single)}

theorem buffer_eq (c : Columns) (handle : Nat) : c.buffer handle = c.arena.buffer handle := by
  rw [buffer, Shelf.item, Variables.buffer, arena]
  cases c.items[handle]? <;> rfl

/-- By name, the index leads to a buffer that is there. -/
theorem get?_eq (h : c.Holds entries) (name : String) : c.get? name = .ok (c.arena.get? name) := by
  have hsearch : c.arena.handle? name = c.handle? name := (h.handle? name).symm
  rw [get?, Variables.get?, hsearch]
  cases hhandle : c.handle? name with
  | none => rfl
  | some handle =>
    obtain ⟨b, -, hitem⟩ := h.item_of_handle? hhandle
    have helements : c.arena.bank.elements handle = b.toList := by
      rw [Bank.elements, arena, hitem]
      rfl
    have hbuffer : c.buffer handle = .ok b.toList := by
      rw [buffer, Shelf.item, hitem]
      rfl
    rw [Option.map_some, helements]
    exact Outcome.map_eq_ok.mpr ⟨_, hbuffer, rfl⟩

/-- Listing buffers with their names side by side makes a view for each name. -/
theorem views_eq (h : c.items.length = c.names.length) : c.views = c.arena.views := by
  refine List.ext_getElem ?_ fun handle hleft hright => ?_
  · simp [views, Variables.views, arena, h]
  · rw [views, List.length_mapIdx, List.length_zip, lt_min_iff] at hleft
    have hsize : Bank.size c.items handle = (c.items.get ⟨handle, hleft.1⟩).size := by
      rw [Bank.size, List.getElem?_eq_getElem hleft.1]
      rfl
    simp [views, Variables.views, arena, hsize]

/-- **The containers of the variables hold the arena.** Filling them ends as allocating the arena
does: refused, broken off by a buffer that would be too long, or with the same names and buffers.
Whatever the buffers hold later, there are as many of them and as many handles as names, the index
has the handle that a search of the names has, and a buffer read by handle or by name and the views
are those of the arena. By name, nothing is out of range. -/
theorem allocate_exact (l : Layout) :
    (allocate l).map arena = Variables.allocate l ∧
    ∀ c, allocate l = .ok c → ∀ bank : Bank, bank.shape = Bank.shape c.items →
      let c : Columns := { c with items := bank }
      let v := c.arena
      (c.index.size = v.size ∧ c.items.length = v.size) ∧
      (∀ name, c.handle? name = v.handle? name) ∧ (∀ handle, c.name handle = v.name handle) ∧
      (∀ handle, c.buffer handle = v.buffer handle) ∧
      (∀ name, c.get? name = .ok (v.get? name)) ∧ c.views = v.views := by
  refine ⟨map_allocate l, fun c hc bank hshape => ?_⟩
  have hholds := allocate_spec hc
  have hnodup : ((buffersOf l).map (·.1)).Nodup := by
    rw [List.map_map]
    exact nodup_of_ascending l.regions.ascending
  have hlength : bank.length = c.names.length := by
    rw [← hholds.length_items]
    simpa [Bank.shape] using congrArg List.length hshape
  -- other contents are other items under the same names
  have hrefilled : ({ c with items := bank } : Columns).Holds (c.names.zip bank) := by
    have hnames : (c.names.zip bank).map (·.1) = c.names := List.map_fst_zip hlength.ge
    refine ⟨hnames.symm, (List.map_snd_zip hlength.le).symm, fun name => ?_⟩
    rw [hnames]
    exact hholds.handle? name
  exact ⟨⟨hholds.size_index hnodup, hlength⟩, hholds.handle?, fun _ => rfl, buffer_eq _,
    get?_eq hrefilled, views_eq hlength⟩

end Variables.Columns

end InferenceEngine
