import InferenceEngine.Proofs.Regions
import InferenceEngine.Runner
import Mathlib.Data.List.Forall2

/-!
# What linked references stand for

Linking replaces names by handles into three tables: the entry points in the order of their first
insertion, the variables and the weights in ascending order of their names. Here the tables are read
by name instead. `Tables.call` looks up what an instruction calls in the tables themselves, the
layouts of the graph and the listed entry points, and `Execution.resolve_linkStep` says that the
handles lead to the same call or the same failure, whatever the variables hold.

* `lookup_eq_idxOf?` — finding a name is finding its place and taking what stands there; the three
  tables have it in common.
* `Slot.fetchAll_bind` — the references of one role, for any table whose handles and names agree.
* `Runner.build_spec` — what compiling makes, as far as references are concerned.
-/

namespace InferenceEngine

/-! ## Names and places -/

/-- Looking a name up is looking for its first place, and taking what stands there. -/
theorem lookup_eq_idxOf? {α : Type} (entries : List (String × α)) (name : String) :
    entries.lookup name =
      ((entries.map (·.1)).idxOf? name).bind fun place => (entries[place]?).map (·.2) := by
  induction entries with
  | nil => rfl
  | cons e rest ih =>
    rw [List.lookup_cons, List.map_cons, List.idxOf?_cons]
    by_cases h : name = e.1
    · subst h
      simp
    · rw [beq_false_of_ne h, beq_false_of_ne (Ne.symm h), ih]
      cases (rest.map (·.1)).idxOf? name <;> rfl

/-- In a list without repeats, a name is found where it is listed. -/
theorem idxOf?_eq_some_iff_of_nodup {names : List String} (h : names.Nodup) {name : String}
    {place : Nat} : names.idxOf? name = some place ↔ names[place]? = some name := by
  constructor
  · intro hplace
    obtain ⟨hlt, hname, -⟩ := List.idxOf?_eq_some_iff.mp hplace
    rw [List.getElem?_eq_getElem hlt, hname]
  · intro hname
    obtain ⟨hlt, hname⟩ := List.getElem?_eq_some_iff.mp hname
    refine List.idxOf?_eq_some_iff.mpr ⟨hlt, hname, fun other hother heq => ?_⟩
    exact List.pairwise_iff_getElem.mp h other place _ hlt hother (heq.trans hname.symm)

/-- A name is listed at the place where it is found, with what it is looked up to. -/
theorem lookup_cases {α : Type} (entries : List (String × α)) (name : String) :
    ((entries.map (·.1)).idxOf? name = none ∧ entries.lookup name = none) ∨
      ∃ place x, (entries.map (·.1)).idxOf? name = some place ∧
        entries[place]? = some (name, x) ∧ entries.lookup name = some x := by
  have hlookup := lookup_eq_idxOf? entries name
  rcases hplace : (entries.map (·.1)).idxOf? name with _ | place
  · rw [hplace] at hlookup
    exact .inl ⟨hplace, hlookup⟩
  · obtain ⟨hlt, hname, -⟩ := List.idxOf?_eq_some_iff.mp hplace
    rw [List.length_map] at hlt
    rw [List.getElem_map] at hname
    have hentry : entries[place]? = some (name, entries[place].2) := by
      rw [List.getElem?_eq_getElem hlt, ← hname]
    rw [hplace, Option.bind_some, hentry] at hlookup
    exact .inr ⟨place, entries[place].2, hplace, hentry, hlookup⟩

/-! ## Tables -/

/-- What the names in instructions stand for. -/
structure Tables where
  /-- the entry points -/
  kernels : Registry
  /-- the variables -/
  buffers : Layout
  /-- the weights -/
  weights : Layout
  /-- the values of all weights -/
  data : Array Single

/-- What the names of one role stand for; the first unknown one is the failure. -/
def lookupAll {α : Type} (role : Role) (index : Nat) (find : String → Option α) :
    List String → Except Failure (List α)
  | [] => .ok []
  | name :: rest =>
    match find name with
    | none => .error (.unresolvedReference role name (some index))
    | some x => (lookupAll role index find rest).map (x :: ·)

namespace Tables

/-- The entry point of a name. -/
def kernel? (tb : Tables) (name : String) : Option Kernel := tb.kernels.entries.lookup name

/-- The variable of a name; its cell is the place of the name in the layout. -/
def buffer? (tb : Tables) (name : String) : Option View :=
  (tb.buffers.get? name).bind fun r =>
    (tb.buffers.regions.names.idxOf? name).map fun cell => ⟨name, cell, r.size.toNat⟩

/-- The elements of the weight of a name. -/
def weight? (tb : Tables) (name : String) : Option (Array Single) :=
  (tb.weights.get? name).map fun r => tb.data.extract r.start r.stop

/-- What an instruction calls: its inputs are looked up first, then its outputs, then its weights,
and then the entry point. -/
def call (tb : Tables) (index : Nat) (i : Instruction) : Except Failure Call := do
  let inputs ← lookupAll .input index tb.buffer? i.inputs
  let outputs ← lookupAll .output index tb.buffer? i.outputs
  let weights ← lookupAll .weight index tb.weight? i.weights
  match tb.kernel? i.entry with
  | none => .error (.missingEntryPoint i.entry index)
  | some kernel => return { kernel, args := { inputs, outputs, weights, option := i.option } }

/-- What a call is made with, if all names stand for something. -/
theorem call_eq_ok {tb : Tables} {index : Nat} {i : Instruction} {call : Call}
    (h : tb.call index i = .ok call) :
    lookupAll .input index tb.buffer? i.inputs = .ok call.args.inputs ∧
      lookupAll .output index tb.buffer? i.outputs = .ok call.args.outputs ∧
      lookupAll .weight index tb.weight? i.weights = .ok call.args.weights ∧
      tb.kernel? i.entry = some call.kernel := by
  rw [Tables.call] at h
  -- the lookups in the order of the code: one that fails would leave no call
  rcases hi : lookupAll .input index tb.buffer? i.inputs with e | inputs
  · rw [hi] at h
    cases h
  rcases ho : lookupAll .output index tb.buffer? i.outputs with e | outputs
  · rw [hi, ho] at h
    cases h
  rcases hw : lookupAll .weight index tb.weight? i.weights with e | weights
  · rw [hi, ho, hw] at h
    cases h
  rw [hi, ho, hw] at h
  rcases hk : tb.kernel? i.entry with _ | k
  · rw [hk] at h
    cases h
  · rw [hk] at h
    obtain rfl := Except.ok.inj h
    exact ⟨rfl, rfl, rfl, rfl⟩

end Tables

/-- What is found stands name by name for what is looked up. -/
theorem forall₂_of_lookupAll {α : Type} {role : Role} {index : Nat} {find : String → Option α}
    {names : List String} {xs : List α} (h : lookupAll role index find names = .ok xs) :
    List.Forall₂ (fun name x => find name = some x) names xs := by
  induction names generalizing xs with
  | nil =>
    obtain rfl := Except.ok.inj h
    exact .nil
  | cons name rest ih =>
    rw [lookupAll] at h
    cases hname : find name with
    | none =>
      rw [hname] at h
      cases h
    | some x =>
      cases hrest : lookupAll role index find rest with
      | error f =>
        rw [hname, hrest] at h
        cases h
      | ok xs' =>
        rw [hname, hrest] at h
        obtain rfl := Except.ok.inj h
        exact .cons hname (ih hrest)

/-! ## References -/

/-- A handle, if there is one, leads to what was found under the name. -/
def Leads {α : Type} (handle : Option Nat) (fetch : Nat → Outcome α) (found : Option α) : Prop :=
  (handle = none ∧ found = none) ∨
    ∃ place x, handle = some place ∧ fetch place = .ok x ∧ found = some x

/-- If handles lead to what is found under the names, the slots of linked names stand for what the
names stand for. -/
theorem Slot.fetchAll_bind {α : Type} {handle? : String → Option Nat} {fetch : Nat → Outcome α}
    {find : String → Option α} (hleads : ∀ name, Leads (handle? name) fetch (find name))
    (role : Role) (index : Nat) (names : List String) :
    Slot.fetchAll role index fetch (names.map fun name => .bind name (handle? name)) =
      .ofExcept (lookupAll role index find names) := by
  induction names with
  | nil => rfl
  | cons name rest ih =>
    rw [List.map_cons, fetchAll, ih, lookupAll]
    rcases hleads name with ⟨hh, hf⟩ | ⟨place, x, hh, hx, hf⟩
    · rw [hh, hf]
      rfl
    · rw [hh, hf, Slot.bind, Slot.resolve, Outcome.ofExcept, Outcome.ok_bind, hx, Outcome.ok_bind]
      rcases lookupAll role index find rest with e | xs <;> rfl

/-- The numbers of elements of the buffers. -/
def Bank.shape (b : Bank) : List Nat := b.map Array.size

theorem Bank.size_eq (b : Bank) (cell : Nat) : b.size cell = (b.shape[cell]?).getD 0 := by
  rw [Bank.size, Bank.shape, List.getElem?_map]

theorem Bank.shape_put (b : Bank) (cell index : Nat) (x : Single) :
    (b.put cell index x).shape = b.shape := by
  rw [shape, shape, put]
  apply List.ext_getElem?
  intro j
  rw [List.getElem?_map, List.getElem?_map, List.getElem?_modify]
  rcases b[j]? with _ | buffer
  · rfl
  · by_cases h : cell = j <;> simp [h]

/-- Changing elements changes no length. -/
theorem Bank.shape_putAll (b : Bank) (cell index : Nat) (xs : List Single) :
    (b.putAll cell index xs).shape = b.shape := by
  induction xs generalizing b index with
  | nil => rfl
  | cons x xs ih =>
    rw [putAll, ih, shape_put]

/-- The references of a compiled graph are those of the tables. -/
structure Compiled.Serves (c : Compiled) (tb : Tables) : Prop where
  /-- the entry points -/
  kernels : c.kernels = tb.kernels
  /-- the names of the variables -/
  names : c.buffers.names = tb.buffers.regions.names
  /-- the lengths of the variables -/
  shape : c.buffers.bank.shape = tb.buffers.regions.values.map fun r => r.size.toNat
  /-- the names of the weights -/
  weightNames : c.weights.names = tb.weights.regions.names
  /-- the windows of the weights -/
  windows : c.weights.windows = tb.weights.regions.values.map fun r => (r.start, r.stop)
  /-- the values of the weights -/
  data : c.weights.data = tb.data
  /-- every weight lies inside the buffer -/
  fits : ∀ name r, tb.weights.get? name = some r → r.stop ≤ tb.data.size

namespace Compiled.Serves

variable {c : Compiled} {tb : Tables}

/-- The handle of an entry point leads to the kernel of that name, -/
theorem kernel (h : c.Serves tb) (name : String) :
    Leads (c.kernels.handle? name) c.kernels.entry (tb.kernel? name) := by
  rw [h.kernels, Registry.handle?, Registry.names, Tables.kernel?]
  rcases lookup_cases tb.kernels.entries name with ⟨hi, hl⟩ | ⟨place, k, hi, hp, hl⟩
  · exact .inl ⟨hi, hl⟩
  · refine .inr ⟨place, k, hi, ?_, hl⟩
    rw [Registry.entry, Registry.entry?, hp]
    rfl

/-- that of a variable to its view, -/
theorem buffer (h : c.Serves tb) (name : String) :
    Leads (c.buffers.handle? name) c.buffers.view (tb.buffer? name) := by
  rw [Variables.handle?, h.names, Tables.buffer?, Layout.get?, NameMap.get?, NameMap.names]
  rcases lookup_cases tb.buffers.regions.entries name with ⟨hi, hl⟩ | ⟨place, r, hi, hp, hl⟩
  · rw [hl]
    exact .inl ⟨hi, rfl⟩
  · have hname : c.buffers.names[place]? = some name := by
      rw [h.names, NameMap.names, List.getElem?_map, hp]
      rfl
    have hsize : c.buffers.bank.size place = r.size.toNat := by
      rw [Bank.size_eq, h.shape, NameMap.values, List.getElem?_map, List.getElem?_map, hp]
      rfl
    rw [hi, hl]
    refine .inr ⟨place, ⟨name, place, r.size.toNat⟩, rfl, ?_, rfl⟩
    rw [Variables.view, hname, hsize]

theorem length_bank (h : c.Serves tb) : c.buffers.bank.length = c.buffers.names.length := by
  have hlength := congrArg List.length h.shape
  rw [Bank.shape, NameMap.values, List.length_map, List.length_map, List.length_map] at hlength
  rw [h.names, NameMap.names, List.length_map, hlength]

/-- What is read by handle is what is seen through the view. -/
theorem buffer_of_view (h : c.Serves tb) {place : Nat} {v : View}
    (hv : c.buffers.view place = .ok v) :
    c.buffers.buffer place = .ok (v.elements c.buffers.bank) := by
  rw [Variables.view] at hv
  rcases hname : c.buffers.names[place]? with _ | name
  · rw [hname] at hv
    cases hv
  · rw [hname] at hv
    obtain rfl := Outcome.ok.inj hv
    have hlt : place < c.buffers.bank.length := by
      rw [h.length_bank]
      exact (List.getElem?_eq_some_iff.mp hname).1
    rw [Variables.buffer, View.elements, Bank.elements, List.getElem?_eq_getElem hlt]
    rfl

/-- and that of a weight to its elements, which are all there because its window ends inside the
buffer. -/
theorem weight (h : c.Serves tb) (name : String) :
    Leads (c.weights.handle? name) c.weights.view (tb.weight? name) := by
  have hfits := h.fits name
  rw [Layout.get?, NameMap.get?] at hfits
  rw [Weights.handle?, h.weightNames, Tables.weight?, Layout.get?, NameMap.get?, NameMap.names]
  rcases lookup_cases tb.weights.regions.entries name with ⟨hi, hl⟩ | ⟨place, r, hi, hp, hl⟩
  · rw [hl]
    exact .inl ⟨hi, rfl⟩
  · -- the window lies inside the buffer, or the view would be broken off
    have hwindow : c.weights.windows[place]? = some (r.start, r.stop) := by
      rw [h.windows, NameMap.values, List.getElem?_map, List.getElem?_map, hp]
      rfl
    have hle : r.stop ≤ c.weights.data.size := by
      rw [h.data]
      exact hfits r hl
    rw [hi, hl]
    refine .inr ⟨place, tb.data.extract r.start r.stop, rfl, ?_, rfl⟩
    rw [Weights.view, hwindow]
    simp only [if_pos hle, Weights.window]
    rw [h.data]

end Compiled.Serves

namespace Execution

/-- **Linked references stand for their names.** What a linked instruction resolves to is what its
names stand for in the tables: the same call, or the same failure. -/
theorem resolve_linkStep {c : Compiled} {tb : Tables} (h : c.Serves tb) (index : Nat)
    (i : Instruction) :
    resolve c index i (Program.linkStep (Runner.symbols c) i) = .ofExcept (tb.call index i) := by
  rw [resolve, Program.linkStep, Runner.symbols, Slot.fetchAll_bind h.buffer,
    Slot.fetchAll_bind h.buffer, Slot.fetchAll_bind h.weight, Tables.call]
  rcases lookupAll .input index tb.buffer? i.inputs with e | inputs
  · rfl
  rcases lookupAll .output index tb.buffer? i.outputs with e | outputs
  · rfl
  rcases lookupAll .weight index tb.weight? i.weights with e | weights
  · rfl
  rcases h.kernel i.entry with ⟨hh, hf⟩ | ⟨place, k, hh, hk, hf⟩
  · rw [hh, hf]
    rfl
  · rw [hh, hf]
    simp only [Outcome.ofExcept, Outcome.ok_bind, hk]
    rfl

end Execution

/-! ## Compiled graphs -/

/-- A layout that passes the check has all of its regions inside its buffer. -/
theorem Layout.fits_of_validate {l : Layout} {table : String} (h : l.validate table = .ok ()) :
    l.Fits := by
  rcases check_cases l with ⟨name, r, -, -, hcheck⟩ | ⟨hfits, -⟩ | ⟨hfits, -⟩
  · rw [validate, hcheck] at h
    cases h
  · exact hfits
  · exact hfits

/-- A buffer without regions is sound, however long it is. -/
theorem Layout.validate_empty (totalSize : UInt64) (table : String) :
    (empty totalSize).validate table = .ok () := by
  simp [validate, check, empty, NameMap.empty, spans, spansOf, report, collision?]

/-! ### Allocating -/

/-- The total of a layout is within the capacity of a buffer. -/
def Layout.TotalHeld (l : Layout) : Prop := l.totalSize.toNat < Buffer.capacity

/-- Every region of a layout is small enough for a buffer of its own. -/
def Layout.SizesHeld (l : Layout) : Prop :=
  ∀ size ∈ l.regions.values.map (·.size.toNat), size < Buffer.capacity

instance (l : Layout) : Decidable l.TotalHeld := inferInstanceAs (Decidable (_ < _))

instance (l : Layout) : Decidable l.SizesHeld := inferInstanceAs (Decidable (∀ _ ∈ _, _))

/-- The weights of a layout before any are loaded. -/
def Weights.blank (l : Layout) : Weights where
  names := l.regions.names
  windows := l.regions.values.map fun r => (r.start, r.stop)
  data := Array.replicate l.totalSize.toNat .zero

/-- The variables of a layout before anything is written to them. -/
def Variables.blank (l : Layout) : Variables where
  names := l.regions.names
  bank := (l.regions.values.map (·.size.toNat)).map fun size => Array.replicate size .zero

/-- **How allocating the weights ends.** A layout that passes the check has its weights, unless the
total is beyond the capacity. -/
theorem Weights.allocate_of_valid {l : Layout} (h : l.validate "weight" = .ok ()) :
    allocate l = if l.TotalHeld then .ok (blank l) else .panic .capacityOverflow := by
  rw [allocate, h]
  dsimp only
  split
  · rw [Buffer.zeros_of_lt ‹_›]
    rfl
  · rw [Buffer.zeros_of_le (Nat.le_of_not_lt ‹_›)]
    rfl

/-- A layout that does not pass the check is refused before anything is made for it. -/
theorem Weights.allocate_of_error {l : Layout} {f : Failure} (h : l.validate "weight" = .error f) :
    allocate l = .error f := by
  rw [allocate, h]

/-- Whatever is allocated is blank. -/
theorem Weights.allocate_eq_ok {l : Layout} {w : Weights} :
    allocate l = .ok w ↔ l.validate "weight" = .ok () ∧ l.TotalHeld ∧ w = blank l := by
  cases hvalid : l.validate "weight" with
  | error f => simp [allocate_of_error hvalid]
  | ok u =>
    rw [allocate_of_valid hvalid]
    split <;> simp [*, eq_comm]

/-- Nothing but the total breaks allocating off. -/
theorem Weights.allocate_eq_panic {l : Layout} {p : Panic} (h : allocate l = .panic p) :
    p = .capacityOverflow ∧ ¬ l.TotalHeld := by
  cases hvalid : l.validate "weight" with
  | error f => simp [allocate_of_error hvalid] at h
  | ok u =>
    rw [allocate_of_valid hvalid] at h
    split at h
    · cases h
    · exact ⟨(Outcome.panic.inj h).symm, ‹_›⟩

/-- **How allocating the variables ends.** There the sizes count, each for itself. -/
theorem Variables.allocate_of_valid {l : Layout} (h : l.validateBounds "variable" = .ok ()) :
    allocate l = if l.SizesHeld then .ok (blank l) else .panic .capacityOverflow := by
  rw [allocate, h]
  dsimp only
  split
  next hheld =>
    rw [Bank.zeros_of_lt hheld]
    rfl
  next hheld =>
    obtain ⟨size, hmem, hlong⟩ : ∃ size ∈ l.regions.values.map (·.size.toNat),
        ¬ size < Buffer.capacity := by
      simpa only [Layout.SizesHeld, not_forall, exists_prop] using hheld
    rw [Bank.zeros_of_le hmem (Nat.le_of_not_lt hlong)]
    rfl

theorem Variables.allocate_of_error {l : Layout} {f : Failure}
    (h : l.validateBounds "variable" = .error f) : allocate l = .error f := by
  rw [allocate, h]

/-- Here too, whatever is allocated is blank, -/
theorem Variables.allocate_eq_ok {l : Layout} {v : Variables} :
    allocate l = .ok v ↔ l.validateBounds "variable" = .ok () ∧ l.SizesHeld ∧ v = blank l := by
  cases hvalid : l.validateBounds "variable" with
  | error f => simp [allocate_of_error hvalid]
  | ok u =>
    rw [allocate_of_valid hvalid]
    split <;> simp [*, eq_comm]

/-- and nothing but a size breaks allocating off. -/
theorem Variables.allocate_eq_panic {l : Layout} {p : Panic} (h : allocate l = .panic p) :
    p = .capacityOverflow ∧ ¬ l.SizesHeld := by
  cases hvalid : l.validateBounds "variable" with
  | error f => simp [allocate_of_error hvalid] at h
  | ok u =>
    rw [allocate_of_valid hvalid] at h
    split at h
    · cases h
    · exact ⟨(Outcome.panic.inj h).symm, ‹_›⟩

/-- What is known of the weights, whatever they come to hold: their names and windows are those of
the layout, and all of these lie inside the buffer. -/
theorem Weights.allocate_spec {l : Layout} {w : Weights} (h : allocate l = .ok w) :
    l.Fits ∧ w.names = l.regions.names ∧
      w.windows = l.regions.values.map (fun r => (r.start, r.stop)) ∧
      w.data.size = l.totalSize.toNat := by
  obtain ⟨hvalid, -, rfl⟩ := allocate_eq_ok.mp h
  exact ⟨Layout.fits_of_validate hvalid, rfl, rfl, Array.size_replicate⟩

/-- Without weights there is nothing to allocate. -/
theorem Weights.allocate_empty : Weights.allocate (.empty 0) = .ok ⟨[], [], #[]⟩ := by
  rw [allocate_of_valid (Layout.validate_empty 0 _), if_pos (by decide)]
  rfl

/-- What is known of the variables: each has the size of its region. -/
theorem Variables.allocate_spec {l : Layout} {v : Variables} (h : allocate l = .ok v) :
    v.names = l.regions.names ∧ v.bank.shape = l.regions.values.map fun r => r.size.toNat := by
  obtain ⟨-, -, rfl⟩ := allocate_eq_ok.mp h
  refine ⟨rfl, ?_⟩
  rw [Bank.shape, blank, List.map_map]
  exact List.map_id'' (fun size => Array.size_replicate) _

/-- Everything that a graph asks for is within the capacity of a buffer. -/
def Descriptor.Held (d : Descriptor) : Prop := d.weights.TotalHeld ∧ d.buffers.SizesHeld

instance (d : Descriptor) : Decidable d.Held := inferInstanceAs (Decidable (_ ∧ _))

/-- What compiling makes: the entry points, the weights, the variables and the linked program. -/
theorem Runner.build_spec {loader : KernelLoader} {d : Descriptor} {c : Compiled}
    (h : build loader d = .ok c) :
    loader.materialize d.kernelSource = .ok c.kernels ∧ Weights.allocate d.weights = .ok c.weights ∧
      Variables.allocate d.buffers = .ok c.buffers ∧
      c.program = Program.link (symbols c) d.instructions := by
  rw [build] at h
  -- one part after the other has succeeded
  obtain ⟨kernels, hkernels, h⟩ := Outcome.bind_eq_ok.mp h
  obtain ⟨weights, hweights, h⟩ := Outcome.bind_eq_ok.mp h
  obtain ⟨buffers, hbuffers, h⟩ := Outcome.bind_eq_ok.mp h
  obtain ⟨inputs, -, h⟩ := Outcome.bind_eq_ok.mp h
  obtain ⟨outputs, -, h⟩ := Outcome.bind_eq_ok.mp h
  obtain rfl := Outcome.ok.inj h
  exact ⟨Outcome.ofExcept_eq_ok.mp hkernels, hweights, hbuffers, rfl⟩

/-- Compiling is broken off by nothing but a buffer that would be too long. -/
theorem Runner.build_eq_panic {loader : KernelLoader} {d : Descriptor} {p : Panic}
    (h : build loader d = .panic p) : p = .capacityOverflow ∧ ¬ d.Held := by
  rw [build] at h
  -- only the two allocations can be broken off; all else comes from an `Except`
  obtain h | ⟨kernels, -, h⟩ := Outcome.bind_eq_panic.mp h
  · exact absurd h (Outcome.ofExcept_ne_panic _)
  obtain h | ⟨weights, -, h⟩ := Outcome.bind_eq_panic.mp h
  · obtain ⟨hp, hlong⟩ := Weights.allocate_eq_panic h
    exact ⟨hp, fun hheld => hlong hheld.1⟩
  obtain h | ⟨buffers, -, h⟩ := Outcome.bind_eq_panic.mp h
  · obtain ⟨hp, hlong⟩ := Variables.allocate_eq_panic h
    exact ⟨hp, fun hheld => hlong hheld.2⟩
  obtain h | ⟨inputs, -, h⟩ := Outcome.bind_eq_panic.mp h
  · exact absurd h (Outcome.ofExcept_ne_panic _)
  obtain h | ⟨outputs, -, h⟩ := Outcome.bind_eq_panic.mp h
  · exact absurd h (Outcome.ofExcept_ne_panic _)
  · cases h

namespace Compiled

/-- The graph with other contents in its variables and its weights. -/
def refill (c : Compiled) (b : Bank) (data : Array Single) : Compiled :=
  { c with buffers.bank := b, weights.data := data }

/-- A compiled graph serves the tables of its descriptor, whatever its variables and its weights
hold. -/
theorem serves_refill {loader : KernelLoader} {d : Descriptor} {c : Compiled}
    (h : Runner.build loader d = .ok c) {b : Bank} {data : Array Single}
    (hshape : b.shape = c.buffers.bank.shape) (hsize : data.size = c.weights.data.size) :
    (c.refill b data).Serves ⟨c.kernels, d.buffers, d.weights, data⟩ := by
  obtain ⟨-, hw, hb, -⟩ := Runner.build_spec h
  obtain ⟨hfits, hweightNames, hwindows, htotal⟩ := Weights.allocate_spec hw
  obtain ⟨hnames, hlengths⟩ := Variables.allocate_spec hb
  refine ⟨rfl, hnames, hshape.trans hlengths, hweightNames, hwindows, rfl, fun name r hr => ?_⟩
  rw [hsize, htotal]
  exact hfits name r hr

end Compiled

end InferenceEngine
