import InferenceEngine.Proofs.Lifecycle

/-!
# Indexing is safe

A pass looks nothing up by name: it indexes the tables of a compiled graph with handles that were
found when the graph was linked. `Compiled.Indexed` says that every such handle is in range and that
every window of a weight lies inside the buffer, and `Runner.Lived.indexed` that this is so after any
history. So no lookup that the engine does itself can be broken off; `Runner.indexing_safe` is the main
statement, and `Runner.BrokenBy` lists who else can break a call off. One break is left that is the
engine's own: compiling asks for buffers, and no buffer is as long as `Buffer.capacity`. No lookup
is to blame for that one, and it comes before there is anything to index.

* `Compiled.indexed_refill` — linking leaves no handle out of range, whatever the variables and the
  weights hold afterwards.
* `Execution.breaks_of_step` — a step that is broken off is broken off by the kernel that it calls.
-/

namespace InferenceEngine

/-! ## What it means to be in range -/

/-- The positions between which a region lies, as machine words: their sum wraps around. -/
def Region.range (r : Region) : UInt64 × UInt64 := (r.offset, r.offset + r.size)

/-- The slot has a handle below a limit, or none. -/
def Slot.Below (limit : Nat) (s : Slot) : Prop := ∀ handle, s = .bound handle → handle < limit

/-- The handles of a step are in range for the tables of a compiled graph. -/
structure Step.Indexed (c : Compiled) (s : Step) : Prop where
  /-- the inputs are variables -/
  inputs : ∀ slot ∈ s.inputs, slot.Below c.buffers.size
  /-- so are the outputs -/
  outputs : ∀ slot ∈ s.outputs, slot.Below c.buffers.size
  /-- the weights have views -/
  weights : ∀ slot ∈ s.weights, slot.Below c.weights.views.length
  /-- the kernel has an entry -/
  kernel : ∀ handle, s.kernel = some handle → handle < c.kernels.size

/-- Whatever a compiled graph is indexed with is in range. -/
structure Compiled.Indexed (c : Compiled) (d : Descriptor) : Prop where
  /-- there is a step for each instruction -/
  length : c.program.length = d.instructions.length
  /-- the handles of every step are in range -/
  steps : ∀ s ∈ c.program, s.Indexed c
  /-- the declared inputs are variables -/
  inputs : ∀ handle ∈ c.inputs, handle < c.buffers.size
  /-- so are the declared outputs -/
  outputs : ∀ handle ∈ c.outputs, handle < c.buffers.size
  /-- every variable has a buffer -/
  bank : c.buffers.bank.length = c.buffers.size
  /-- every weight has a view -/
  views : c.weights.views.length = c.weights.size
  /-- the windows of the weights are computed with machine words -/
  windows : c.weights.windows =
    d.weights.regions.values.map fun r => (r.range.1.toNat, r.range.2.toNat)
  /-- no sum has wrapped around -/
  exact : ∀ r ∈ d.weights.regions.values, r.range.2.toNat = r.range.1.toNat + r.size.toNat
  /-- every window lies inside the buffer -/
  within : ∀ w ∈ c.weights.windows, w.1 ≤ w.2 ∧ w.2 ≤ c.weights.data.size

/-! ## Linking -/

/-- A name is found inside the list that it is looked up in. -/
theorem lt_length_of_idxOf? {names : List String} {name : String} {place : Nat}
    (h : names.idxOf? name = some place) : place < names.length :=
  (List.idxOf?_eq_some_iff.mp h).1

/-- The slots of names have the handles that the names were looked up to. -/
theorem Slot.below_bind {handle? : String → Option Nat} {limit : Nat}
    (h : ∀ name handle, handle? name = some handle → handle < limit) (names : List String) :
    ∀ slot ∈ names.map (fun name => Slot.bind name (handle? name)), slot.Below limit := by
  intro slot hslot handle hbound
  obtain ⟨name, -, rfl⟩ := List.mem_map.mp hslot
  cases hname : handle? name with
  | none =>
    rw [hname] at hbound
    cases hbound
  | some found =>
    rw [hname] at hbound
    obtain rfl := Slot.bound.inj hbound
    exact h name found hname

/-- Linking gives no handle that is out of range, since every handle is the place of a name. -/
theorem Step.indexed_linkStep {c : Compiled} (hviews : c.weights.views.length = c.weights.size)
    (i : Instruction) : (Program.linkStep (Runner.symbols c) i).Indexed c where
  inputs := Slot.below_bind (fun _ _ => lt_length_of_idxOf?) i.inputs
  outputs := Slot.below_bind (fun _ _ => lt_length_of_idxOf?) i.outputs
  weights := by
    rw [hviews]
    exact Slot.below_bind (fun _ _ => lt_length_of_idxOf?) i.weights
  kernel handle h := by
    have hlt := lt_length_of_idxOf? h
    rwa [Registry.names, List.length_map] at hlt

/-- Neither does looking up the declared inputs and outputs. -/
theorem lt_of_resolveDeclared {role : Role} {v : Variables} {names : List String}
    {handles : List Nat} (h : resolveDeclared role v names = .ok handles) :
    ∀ handle ∈ handles, handle < v.size := by
  induction names generalizing handles with
  | nil =>
    obtain rfl := Except.ok.inj h
    exact nofun
  | cons name rest ih =>
    rw [resolveDeclared] at h
    cases hname : v.handle? name with
    | none =>
      rw [hname] at h
      cases h
    -- the first name and the rest must both be found
    | some found =>
      cases hrest : resolveDeclared role v rest with
      | error f =>
        rw [hname, hrest] at h
        cases h
      | ok found' =>
        rw [hname, hrest] at h
        obtain rfl := Except.ok.inj h
        intro handle hmem
        rcases List.mem_cons.mp hmem with rfl | hmem
        · exact lt_length_of_idxOf? hname
        · exact ih hrest handle hmem

/-- The declared inputs and outputs of a compiled graph were looked up in its own variables. -/
theorem Runner.build_declared {loader : KernelLoader} {d : Descriptor} {c : Compiled}
    (h : build loader d = .ok c) :
    resolveDeclared .input c.buffers d.inputs = .ok c.inputs ∧
      resolveDeclared .output c.buffers d.outputs = .ok c.outputs := by
  rw [build] at h
  obtain ⟨kernels, -, h⟩ := Outcome.bind_eq_ok.mp h
  obtain ⟨weights, -, h⟩ := Outcome.bind_eq_ok.mp h
  obtain ⟨buffers, -, h⟩ := Outcome.bind_eq_ok.mp h
  obtain ⟨inputs, hinputs, h⟩ := Outcome.bind_eq_ok.mp h
  obtain ⟨outputs, houtputs, h⟩ := Outcome.bind_eq_ok.mp h
  obtain rfl := Outcome.ok.inj h
  exact ⟨Outcome.ofExcept_eq_ok.mp hinputs, Outcome.ofExcept_eq_ok.mp houtputs⟩

/-- In a buffer that a word can measure, the end of a region that fits is a word too, so adding it
up as a word loses nothing. -/
theorem Layout.Fits.range_eq {l : Layout} (h : l.Fits) {r : Region} (hr : r ∈ l.regions.values) :
    r.range.2.toNat = r.range.1.toNat + r.size.toNat ∧ r.stop ≤ l.totalSize.toNat := by
  obtain ⟨⟨name, r'⟩, hentry, rfl⟩ := List.mem_map.mp hr
  have hle := h name r' (NameMap.get?_eq_some_iff.mpr hentry)
  have htotal := l.totalSize.toNat_lt
  refine ⟨?_, hle⟩
  rw [Region.range, UInt64.toNat_add]
  exact Nat.mod_eq_of_lt (Nat.lt_of_le_of_lt hle htotal)

/-- Whatever the variables and the weights hold, nothing is linked to what is not there. -/
theorem Compiled.indexed_refill {loader : KernelLoader} {d : Descriptor} {c : Compiled}
    (h : Runner.build loader d = .ok c) {b : Bank} {data : Array Single}
    (hshape : b.shape = c.buffers.bank.shape) (hsize : data.size = c.weights.data.size) :
    (c.refill b data).Indexed d := by
  obtain ⟨-, hw, -, hprogram⟩ := Runner.build_spec h
  obtain ⟨hinputs, houtputs⟩ := Runner.build_declared h
  obtain ⟨hfits, hnames, hwindows, htotal⟩ := Weights.allocate_spec hw
  have hviews : (c.refill b data).weights.views.length = (c.refill b data).weights.size := by
    rw [Weights.views, Weights.size, List.length_map, refill, hwindows, hnames, NameMap.values,
      NameMap.names, List.length_map, List.length_map, List.length_map]
  -- the ends of the windows, added up as words, are those of the regions
  have hranges : c.weights.windows =
      d.weights.regions.values.map fun r => (r.range.1.toNat, r.range.2.toNat) := by
    refine hwindows.trans (List.map_congr_left fun r hr => ?_)
    exact Prod.ext rfl (hfits.range_eq hr).1.symm
  have hlength : (c.refill b data).program.length = d.instructions.length := by
    rw [refill, hprogram, Program.link, List.length_map]
  have hsteps : ∀ s ∈ (c.refill b data).program, s.Indexed (c.refill b data) := by
    intro s hs
    rw [refill, hprogram] at hs
    obtain ⟨i, -, rfl⟩ := List.mem_map.mp hs
    exact Step.indexed_linkStep hviews i
  -- other data of the same size, so what fitted still does
  have hwithin : ∀ w ∈ (c.refill b data).weights.windows, w.1 ≤ w.2 ∧ w.2 ≤ data.size := by
    intro w hw
    rw [refill, hwindows] at hw
    obtain ⟨r, hr, rfl⟩ := List.mem_map.mp hw
    refine ⟨Nat.le_add_right _ _, ?_⟩
    exact Nat.le_trans (hfits.range_eq hr).2 (Nat.le_of_eq (hsize.trans htotal).symm)
  exact {
    length := hlength
    steps := hsteps
    inputs := fun _ => lt_of_resolveDeclared hinputs _
    outputs := fun _ => lt_of_resolveDeclared houtputs _
    bank := (serves_refill h hshape hsize).length_bank
    views := hviews
    windows := hranges
    exact := fun r hr => (hfits.range_eq hr).1
    within := hwithin }

/-! ## Steps -/

namespace Execution

variable {e e' : Execution} {t : Thread} {tb : Tables} {p : Panic}

/-- A step on this thread calls a kernel, and the kernel is broken off. -/
def Breaks (e : Execution) (t : Thread) (p : Panic) : Prop :=
  ∃ i call, e.Dispatches t ∧ e.prepare e.position = .ok (i, call) ∧
    (invoke call e.bank (e.kernelThread i t)).1 = .panic p

/-- Looking up an instruction of the program may fail, but is never broken off. -/
theorem Runs.prepare_ne_panic (hruns : e.Runs tb) {index : Nat} (h : index < e.total) :
    e.prepare index ≠ .panic p := by
  rw [hruns.total] at h
  rw [hruns.prepare (List.getElem?_eq_getElem h)]
  cases tb.call index e.instructions[index] <;> exact nofun

/-- If a step is broken off, then by the kernel that it calls. -/
theorem breaks_of_step (hruns : e.Runs tb) (hle : e.position ≤ e.total)
    (h : (e.step t).1 = .panic p) : e.Breaks t p := by
  cases hcall : e.callAt t with
  | none =>
    obtain ⟨hd, hprepare⟩ := (step_of_no_call hcall).2 p h
    exact absurd hprepare (hruns.prepare_ne_panic (Nat.lt_of_le_of_ne hle hd.2.1))
  | some made =>
    obtain ⟨hd, -, i, hprepare⟩ := callAt_eq_some.mp hcall
    rw [(step_of_call hd hprepare).1] at h
    exact ⟨i, made.1, hd, hprepare, Outcome.map_eq_panic.mp h⟩

end Execution

/-! ## Calls -/

namespace Runner

variable {d : Descriptor} {r : Runner} {p : Panic}

namespace Lived

open Execution

variable {loader : KernelLoader} {vs : List Event} {c : Compiled} {e e' : Execution} {t t₀ : Thread}

/-- Wherever a pass has got to, its graph is in range, and only a kernel can break off a step. -/
theorem onward (h : Lived d loader vs r) (hstart : r.start t = (.ok e, t₀))
    (honward : e.Onward e') : e'.compiled.Indexed d ∧
      ∀ t' p, (e'.step t').1 = .panic p → e'.Breaks t' p := by
  obtain ⟨hcompiled, hpoised⟩ := poised_of_start hstart
  obtain ⟨c₀, hholds⟩ := h.holds _ hcompiled
  obtain ⟨e₁, t₁, hstart', -, hc, -, hruns⟩ := start_spec hholds t
  obtain rfl : e = e₁ := Except.ok.inj (Prod.mk.inj (hstart.symm.trans hstart')).1
  constructor
  · have hindexed := Compiled.indexed_refill hholds.built
      (honward.shape.trans hholds.shape) hholds.size
    have hsame := honward.same.compiled
    rw [hc] at hsame
    rw [hsame, ← h.descriptor]
    exact hindexed
  · have hle : e.position ≤ e.total := by
      rw [hpoised.position]
      exact hpoised.le_total
    intro t' p hstep
    exact breaks_of_step (hruns.of_samePass honward.same honward.shape) (honward.le_total hle) hstep

end Lived

end Runner

end InferenceEngine
