import InferenceEngine.Proofs.Compiling

/-!
# Unknown references

An instruction refers to an entry point, to variables and to weights, by names that may be repeated
and may be unknown. What is unknown is said here once, of the names as they are written:
`Descriptor.unknowns` lists the unknown references of a graph in the order in which they stand.

Two parts of the program find them by different ways. Linking looks every name up and goes on, the
entry point first; dispatching stops at the first name that is not found, the entry point last.

* `Descriptor.warnings_eq` — linking warns of exactly the unknown references, in their order.
* `Tables.call_cases` — looking an instruction up fails iff it has an unknown reference, and then
  with `Descriptor.refusal`.
-/

namespace InferenceEngine

/-! ## What is unknown -/

/-- The instruction that a warning is about. -/
def LinkWarning.index : LinkWarning → Nat
  | entryPoint index _ => index
  | operand index _ _ => index

/-- The references of an instruction, each with the warning that it deserves if it is unknown: the
entry point, the inputs, the outputs and the weights. -/
def Instruction.references (i : Instruction) (index : Nat) : List LinkWarning :=
  .entryPoint index i.entry :: (i.inputs.map (.operand index .input) ++
    i.outputs.map (.operand index .output) ++ i.weights.map (.operand index .weight))

/-- The name of a reference is none of the entry points, of the weights, or of the variables. -/
def LinkWarning.isUnknown (kernels : Registry) (d : Descriptor) : LinkWarning → Bool
  | entryPoint _ name => !kernels.names.contains name
  | operand _ .weight name => (d.weights.get? name).isNone
  | operand _ _ name => (d.buffers.get? name).isNone

namespace Descriptor

/-- The unknown references of a graph, by instruction. -/
def unknowns (d : Descriptor) (kernels : Registry) : List LinkWarning :=
  (d.instructions.zipIdx.flatMap fun p => p.1.references p.2).filter (·.isUnknown kernels d)

/-- How an instruction with an unknown reference fails: with the first unknown input, or else the
first unknown output, or else the first unknown weight, or else the entry point. -/
def refusal (d : Descriptor) (index : Nat) (i : Instruction) : Failure :=
  match firstUnknown d.buffers.get? i.inputs, firstUnknown d.buffers.get? i.outputs,
    firstUnknown d.weights.get? i.weights with
  | some name, _, _ => .unresolvedReference .input name (some index)
  | none, some name, _ => .unresolvedReference .output name (some index)
  | none, none, some name => .unresolvedReference .weight name (some index)
  | none, none, none => .missingEntryPoint i.entry index

end Descriptor

variable {kernels : Registry} {d : Descriptor} {i : Instruction} {index : Nat} {w : LinkWarning}
  {data : Array Single} {name : String}

/-- The references of an instruction are its entry point, its inputs, its outputs and its
weights. -/
theorem mem_references :
    w ∈ i.references index ↔ w = .entryPoint index i.entry ∨
      (∃ name ∈ i.inputs, .operand index .input name = w) ∨
      (∃ name ∈ i.outputs, .operand index .output name = w) ∨
      ∃ name ∈ i.weights, .operand index .weight name = w := by
  rw [Instruction.references, List.mem_cons, List.mem_append, List.mem_append, List.mem_map,
    List.mem_map, List.mem_map, or_assoc]

theorem index_of_mem_references (h : w ∈ i.references index) : w.index = index := by
  rcases mem_references.mp h with rfl | ⟨name, -, rfl⟩ | ⟨name, -, rfl⟩ | ⟨name, -, rfl⟩ <;> rfl

/-- The unknown references are those of the instructions. -/
theorem mem_unknowns :
    w ∈ d.unknowns kernels ↔
      ∃ i, d.instructions[w.index]? = some i ∧ w ∈ i.references w.index ∧
        w.isUnknown kernels d = true := by
  rw [Descriptor.unknowns, List.mem_filter, List.mem_flatMap]
  constructor
  · rintro ⟨⟨⟨i, index⟩, hmem, hw⟩, hunknown⟩
    obtain rfl := index_of_mem_references hw
    exact ⟨i, List.mem_zipIdx_iff_getElem?.mp hmem, hw, hunknown⟩
  · rintro ⟨i, hi, hw, hunknown⟩
    exact ⟨⟨(i, w.index), List.mem_zipIdx_iff_getElem?.mpr hi, hw⟩, hunknown⟩

/-! ## Linking -/

/-- The slots without a handle are those of unknown names. -/
theorem slotWarnings_bind {role : Role} {handle? : String → Option Nat}
    (h : ∀ name, (handle? name).isNone = (LinkWarning.operand index role name).isUnknown kernels d)
    (names : List String) :
    Program.slotWarnings index role (names.map fun name => .bind name (handle? name)) =
      (names.map (.operand index role)).filter (·.isUnknown kernels d) := by
  induction names with
  | nil => rfl
  | cons name rest ih =>
    have hname := h name
    rw [Program.slotWarnings] at ih ⊢
    rw [List.map_cons, List.map_cons, List.filterMap_cons, ih, List.filter_cons, ← hname]
    cases handle? name <;> rfl

theorem isNone_idxOf? (names : List String) (name : String) :
    (names.idxOf? name).isNone = !names.contains name := by
  rw [Bool.eq_iff_iff, Option.isNone_iff_eq_none, List.idxOf?_eq_none_iff]
  simp

/-- Linking an instruction warns of its unknown references. -/
theorem stepWarnings_linkStep {loader : KernelLoader} {c : Compiled}
    (h : Runner.build loader d = .ok c) (index : Nat) (i : Instruction) :
    Program.stepWarnings index i (Program.linkStep (Runner.symbols c) i) =
      (i.references index).filter (·.isUnknown c.kernels d) := by
  obtain ⟨-, hweights, hbuffers, -⟩ := Runner.build_spec h
  have hbuffer (name : String) :
      (c.buffers.handle? name).isNone = (d.buffers.get? name).isNone := by
    rw [Variables.handle?, (Variables.allocate_spec hbuffers).1]
    exact isNone_place d.buffers.regions.entries name
  have hweight (name : String) :
      (c.weights.handle? name).isNone = (d.weights.get? name).isNone := by
    rw [Weights.handle?, (Weights.allocate_spec hweights).2.1]
    exact isNone_place d.weights.regions.entries name
  have hkernel : (c.kernels.handle? i.entry).isNone =
      (LinkWarning.entryPoint index i.entry).isUnknown c.kernels d := isNone_idxOf? _ _
  rw [Program.stepWarnings, Program.linkStep, Runner.symbols, slotWarnings_bind hbuffer,
    slotWarnings_bind hbuffer, slotWarnings_bind hweight, Instruction.references, List.filter_cons,
    List.filter_append, List.filter_append, hkernel]
  split
  · rw [List.singleton_append, List.cons_append, List.cons_append]
  · rw [List.nil_append]

/-- The warnings about a program are the references in it that are unknown, in the order of the
instructions and, within one, of its references. -/
theorem warningsFrom_eq {loader : KernelLoader} {c : Compiled} (h : Runner.build loader d = .ok c)
    (index : Nat) (instructions : List Instruction) :
    Program.warningsFrom (Runner.symbols c) index instructions =
      ((instructions.zipIdx index).flatMap fun p => p.1.references p.2).filter
        (·.isUnknown c.kernels d) := by
  induction instructions generalizing index with
  | nil => rfl
  | cons i rest ih =>
    rw [Program.warningsFrom, stepWarnings_linkStep h, ih, List.zipIdx_cons, List.flatMap_cons,
      List.filter_append]

/-- **Linking warns of exactly the unknown references**, in the order in which they stand. -/
theorem Descriptor.warnings_eq {loader : KernelLoader} {c : Compiled}
    (h : Runner.build loader d = .ok c) :
    Program.warnings (Runner.symbols c) d.instructions = d.unknowns c.kernels :=
  warningsFrom_eq h 0 d.instructions

/-! ## Dispatching -/

/-- Names of one role are all found, or the first that is not is the failure. -/
theorem lookupAll_eq {α : Type} (role : Role) (index : Nat) (find : String → Option α)
    (names : List String) :
    lookupAll role index find names =
      match firstUnknown find names with
      | none => .ok (names.filterMap find)
      | some name => .error (.unresolvedReference role name (some index)) := by
  induction names with
  | nil => rfl
  | cons name rest ih =>
    rw [lookupAll]
    cases hname : find name with
    | none => rw [firstUnknown_cons_of_none hname]
    | some x =>
      rw [ih, firstUnknown_cons_of_some hname, List.filterMap_cons, hname]
      cases firstUnknown find rest <;> rfl

namespace Tables

/-- The tables have a view for just the names that the layout has. -/
theorem isNone_buffer? (tb : Tables) (name : String) :
    (tb.buffer? name).isNone = (tb.buffers.get? name).isNone := by
  rw [buffer?, Layout.get?, NameMap.get?, NameMap.names]
  rcases lookup_cases tb.buffers.regions.entries name with ⟨-, hnone⟩ | ⟨place, r, hplace, -, hsome⟩
  · rw [hnone]
    rfl
  · rw [hsome, hplace]
    rfl

theorem isNone_weight? (tb : Tables) (name : String) :
    (tb.weight? name).isNone = (tb.weights.get? name).isNone := Option.isNone_map

/-- An entry point is unknown just if it is not listed. -/
theorem isNone_kernel? (tb : Tables) (name : String) :
    (tb.kernel? name).isNone = !tb.kernels.names.contains name := by
  rw [kernel?, ← isNone_place, ← isNone_idxOf?]
  rfl

/-- **Looking an instruction up fails iff it has an unknown reference**, and then it is refused for
the one that is looked up first. -/
theorem call_cases (kernels : Registry) (d : Descriptor) (data : Array Single) (index : Nat)
    (i : Instruction) :
    let tb : Tables := ⟨kernels, d.buffers, d.weights, data⟩
    ((∀ w ∈ i.references index, w.isUnknown kernels d = false) ∧
        ∃ call, tb.call index i = .ok call) ∨
      (∃ w ∈ i.references index, w.isUnknown kernels d = true) ∧
        tb.call index i = .error (d.refusal index i) := by
  intro tb
  have hbuffers (names : List String) :
      firstUnknown tb.buffer? names = firstUnknown d.buffers.get? names :=
    firstUnknown_congr tb.isNone_buffer? names
  have hweights (names : List String) :
      firstUnknown tb.weight? names = firstUnknown d.weights.get? names :=
    firstUnknown_congr tb.isNone_weight? names
  have hkernel := tb.isNone_kernel? i.entry
  rw [Tables.call, lookupAll_eq, lookupAll_eq, lookupAll_eq, hbuffers, hbuffers, hweights,
    Descriptor.refusal]
  -- the names are looked up in this order: inputs, outputs, weights and then the entry point
  cases hinputs : firstUnknown d.buffers.get? i.inputs with
  | some name =>
    obtain ⟨hname, hunknown⟩ := firstUnknown_eq_some hinputs
    exact .inr ⟨⟨_, mem_references.mpr (.inr (.inl ⟨name, hname, rfl⟩)), hunknown⟩, rfl⟩
  | none =>
  cases houtputs : firstUnknown d.buffers.get? i.outputs with
  | some name =>
    obtain ⟨hname, hunknown⟩ := firstUnknown_eq_some houtputs
    exact .inr ⟨⟨_, mem_references.mpr (.inr (.inr (.inl ⟨name, hname, rfl⟩))), hunknown⟩, rfl⟩
  | none =>
  cases hweights : firstUnknown d.weights.get? i.weights with
  | some name =>
    obtain ⟨hname, hunknown⟩ := firstUnknown_eq_some hweights
    exact .inr ⟨⟨_, mem_references.mpr (.inr (.inr (.inr ⟨name, hname, rfl⟩))), hunknown⟩, rfl⟩
  | none =>
  cases hk : tb.kernel? i.entry with
  | none =>
    rw [hk] at hkernel
    exact .inr ⟨⟨_, mem_references.mpr (.inl rfl), hkernel.symm⟩, rfl⟩
  | some k =>
    rw [hk] at hkernel
    refine .inl ⟨fun w hw => ?_, _, rfl⟩
    have hknown {α : Type} {find : String → Option α} {names : List String} {name : String}
        (hnone : firstUnknown find names = none) (hname : name ∈ names) :
        (find name).isNone = false := by
      obtain ⟨x, hx⟩ := firstUnknown_eq_none_iff.mp hnone name hname
      rw [hx]
      rfl
    rcases mem_references.mp hw with rfl | ⟨name, hname, rfl⟩ | ⟨name, hname, rfl⟩ |
      ⟨name, hname, rfl⟩
    · exact hkernel.symm
    · exact hknown hinputs hname
    · exact hknown houtputs hname
    · exact hknown hweights hname

end Tables

end InferenceEngine
