import InferenceEngine.Descriptor
import InferenceEngine.Proofs.Decoding

/-!
# Descriptors survive being written

The text a descriptor is printed as is read as that descriptor (`Descriptor.parse_print`), unless it
nests more deeply than a reader follows. The proof climbs the records a descriptor is made of:
regions, layouts, options, instructions. For each of them

* what it is written as can be written down (`proper_tree`),
* what it is written as is read back where the reader may open that many arrays and objects
  (`ofTree?_tree`).

Only an option can nest as deeply as it likes, and one that was read has stayed below the limit
(`Descriptor.depth_of_parse`).
-/

namespace InferenceEngine

open Json

/-! ## Layouts -/

namespace Layout

variable {room : Nat}

theorem proper_regionTree (r : Region) : (regionTree r).Proper :=
  Tree.proper_ofMembers (by simp [Tree.proper_ofNat])

/-- The tree that a layout is written as is one that its text spells. -/
theorem proper_tree (l : Layout) : l.tree.Proper := by
  have hregions : (Tree.ofMembers (l.regions.entries.map fun e => (e.1, regionTree e.2))).Proper :=
    Tree.proper_ofMembers (List.forall_mem_map.mpr fun e _ => proper_regionTree e.2)
  exact Tree.proper_ofMembers (by simp [Tree.proper_ofNat, hregions])

/-- A layout opens three objects: itself, the map of its regions and a region. -/
theorem depth_tree_le (l : Layout) : l.tree.depth ≤ 3 := by
  have hregion (r : Region) : (regionTree r).depth ≤ 1 :=
    Tree.depth_ofMembers_le_iff.mpr (by simp)
  have hregions :
      (Tree.ofMembers (l.regions.entries.map fun e => (e.1, regionTree e.2))).depth ≤ 2 :=
    Tree.depth_ofMembers_le_iff.mpr (List.forall_mem_map.mpr fun e _ => hregion e.2)
  exact Tree.depth_ofMembers_le_iff.mpr (by simp [hregions])

/-- A region is read back from its tree. -/
theorem region?_regionTree (r : Region) (h : (regionTree r).depth ≤ room) :
    region? room (regionTree r) = some r := by
  obtain ⟨inner, rfl, -⟩ := Tree.exists_room_of_ofMembers h
  have hfields : (regionTree r).fields? ["offset", "size"] =
      some [some (.ofNat r.offset.toNat), some (.ofNat r.size.toNat)] :=
    Tree.fields?_ofMembers rfl (by decide)
  simp [region?, hfields, Tree.required?, Tree.count?_ofNat]

/-- A layout is read back from what it is written as. -/
theorem ofTree?_tree (l : Layout) (h : l.tree.depth ≤ room) : ofTree? room l.tree = some l := by
  obtain ⟨inner, rfl, hdepth⟩ := Tree.exists_room_of_ofMembers h
  have hfields : l.tree.fields? ["total_size", "allocation"] =
      some [some (.ofNat l.totalSize.toNat),
        some (.ofMembers (l.regions.entries.map fun e => (e.1, regionTree e.2)))] :=
    Tree.fields?_ofMembers rfl (by decide)
  simp only [List.forall_mem_cons] at hdepth
  have hregions := Tree.map?_ofMembers hdepth.2.1 fun _ => region?_regionTree
  simp [ofTree?, hfields, Tree.required?, Tree.optional?, Tree.count?_ofNat, hregions]

end Layout

/-! ## Options -/

namespace CallOption

variable {room : Nat}

/-- An option is read back from what it is written as. -/
theorem ofTree?_tree (o : CallOption) (hdepth : o.value.tree.depth ≤ room)
    (hreals : ReadBack o.value.reals) : ofTree? room o.value.tree = some o := by
  have hvalue := Tree.value?_tree room o.value o.canonical hdepth hreals
  rw [ofTree?]
  split
  · rename_i hnone
    rw [hvalue] at hnone
    cases hnone
  · rename_i j hj
    obtain rfl := Option.some.inj (hvalue.symm.trans hj)
    rfl

/-- An option that was read nests no more deeply than there was room for. -/
theorem depth_of_ofTree? {t : Tree} {o : CallOption} (h : ofTree? room t = some o) :
    o.value.tree.depth ≤ room := by
  rw [ofTree?] at h
  split at h
  · cases h
  · rename_i j hj
    obtain rfl := Option.some.inj h
    exact Tree.depth_of_value? room t j hj

end CallOption

/-! ## Instructions -/

namespace Instruction

variable {room : Nat}

theorem proper_tree (i : Instruction) : i.tree.Proper :=
  Tree.proper_ofMembers (by simp [Tree.proper_ofString, Tree.proper_ofStrings, Json.proper_tree])

/-- How deep an instruction nests is decided by its option alone, as its lists of names have one
level. -/
theorem depth_tree_le_iff {i : Instruction} :
    i.tree.depth ≤ room + 2 ↔ i.option.value.tree.depth ≤ room + 1 := by
  rw [tree, Tree.depth_ofMembers_le_iff]
  simp

/-- An instruction is read back from what it is written as. -/
theorem ofTree?_tree (i : Instruction) (h : i.tree.depth ≤ room)
    (hreals : ReadBack i.option.value.reals) : ofTree? room i.tree = some i := by
  obtain ⟨inner, rfl, hdepth⟩ := Tree.exists_room_of_ofMembers h
  have hfields : i.tree.fields? fieldNames =
      some [some (.ofString i.entry), some (.ofStrings i.inputs), some (.ofStrings i.outputs),
        some (.ofStrings i.weights), some i.option.value.tree] :=
    Tree.fields?_ofMembers rfl (by decide)
  simp only [List.forall_mem_cons] at hdepth
  obtain ⟨-, hinputs, houtputs, hweights, hoption, -⟩ := hdepth
  simp [ofTree?, hfields, Tree.required?, Tree.optional?, Tree.text?_ofString,
    Tree.texts?_ofStrings hinputs, Tree.texts?_ofStrings houtputs, Tree.texts?_ofStrings hweights,
    i.option.ofTree?_tree hoption hreals]

/-- The option of an instruction was read with a level less of room. -/
theorem depth_of_ofTree? {t : Tree} {i : Instruction} (h : ofTree? room t = some i) :
    i.option.value.tree.depth + 1 ≤ room := by
  cases room with
  | zero => simp [ofTree?] at h
  | succ room =>
    rw [ofTree?] at h
    split at h
    · simp only [Option.bind_eq_bind, Option.bind_eq_some_iff] at h
      obtain ⟨_, -, _, -, _, -, _, -, option, hoption, hi⟩ := h
      obtain rfl := Option.some.inj hi
      obtain rfl | ⟨t, ht⟩ := Tree.optional?_cases hoption
      · exact Nat.succ_le_succ (Nat.zero_le room)
      · exact Nat.succ_le_succ (CallOption.depth_of_ofTree? ht)
    · cases h

end Instruction

/-! ## Descriptors -/

namespace Descriptor

variable {room : Nat}

/-- The doubles that occur in a descriptor. -/
def reals (d : Descriptor) : List Double := d.instructions.flatMap fun i => i.option.value.reals

/-- The tree that a descriptor is written as is one that its text spells. -/
theorem proper_tree (d : Descriptor) : d.tree.Proper := by
  have hinstructions : (Tree.array (d.instructions.map Instruction.tree)).Proper :=
    .array (List.forall_mem_map.mpr fun i _ => i.proper_tree)
  exact Tree.proper_ofMembers (by
    simp [Tree.proper_ofString, Tree.proper_ofStrings, Layout.proper_tree, hinstructions])

/-- Four levels are enough for all but the options, which stand below three of them. -/
theorem depth_tree_le_iff {d : Descriptor} :
    d.tree.depth ≤ room + 4 ↔ ∀ i ∈ d.instructions, i.option.value.tree.depth ≤ room + 1 := by
  have hlayout (l : Layout) : l.tree.depth ≤ room + 3 :=
    Nat.le_trans l.depth_tree_le (Nat.le_add_left 3 room)
  rw [tree, Tree.depth_ofMembers_le_iff]
  simp [hlayout, Tree.depth_array_le_iff, Instruction.depth_tree_le_iff]

/-- A descriptor is read back from what it is written as. -/
theorem ofTree?_tree (d : Descriptor) (h : d.tree.depth ≤ room) (hreals : ReadBack d.reals) :
    ofTree? room d.tree = some d := by
  obtain ⟨inner, rfl, hdepth⟩ := Tree.exists_room_of_ofMembers h
  have hfields : d.tree.fields? fieldNames =
      some [some (.ofString d.kernelSource), some (.array (d.instructions.map Instruction.tree)),
        some d.weights.tree, some d.buffers.tree, some (.ofStrings d.inputs),
        some (.ofStrings d.outputs), some (.ofString d.encoding)] :=
    Tree.fields?_ofMembers rfl (by decide)
  simp only [List.forall_mem_cons] at hdepth
  obtain ⟨-, hinstructions, hweights, hbuffers, hinputs, houtputs, -⟩ := hdepth
  have hlist : Tree.list? Instruction.ofTree? inner (.array (d.instructions.map Instruction.tree)) =
      some d.instructions := by
    refine Tree.list?_array hinstructions fun _ i hi hroom => i.ofTree?_tree hroom ?_
    exact fun x hx => hreals x (List.mem_flatMap.mpr ⟨i, hi, hx⟩)
  simp [ofTree?, hfields, Tree.optional?, Tree.text?_ofString, hlist,
    d.weights.ofTree?_tree hweights, d.buffers.ofTree?_tree hbuffers,
    Tree.texts?_ofStrings hinputs, Tree.texts?_ofStrings houtputs]

/-- The options of a descriptor were read with three levels less of room. -/
theorem depth_of_ofTree? {t : Tree} {d : Descriptor} (h : ofTree? room t = some d) :
    ∀ i ∈ d.instructions, i.option.value.tree.depth + 3 ≤ room := by
  cases room with
  | zero => simp [ofTree?] at h
  | succ room =>
    rw [ofTree?] at h
    split at h
    · simp only [Option.bind_eq_bind, Option.bind_eq_some_iff] at h
      obtain ⟨_, -, instructions, hinstructions, _, -, _, -, _, -, _, -, _, -, hd⟩ := h
      obtain rfl := Option.some.inj hd
      obtain rfl | ⟨t, ht⟩ := Tree.optional?_cases hinstructions
      · exact nofun
      · intro i hi
        obtain ⟨inner, t, rfl, hi⟩ := Tree.mem_list? ht i hi
        exact Nat.add_le_add_right (Instruction.depth_of_ofTree? hi) 2
    · cases h

/-- A text is parsed just if it spells a tree that is read as a descriptor. -/
theorem parse_eq_ok_iff {text : String} {d : Descriptor} :
    parse text = .ok d ↔ ∃ t, Tree.ofText? text = some t ∧ ofTree? nestingLimit t = some d := by
  rw [parse, ← Option.bind_eq_some_iff, ← ofText?]
  cases ofText? text <;> simp

/-- **A descriptor that was read can be read again**: it nests no more deeply than a reader
follows. -/
theorem depth_of_parse {text : String} {d : Descriptor} (h : parse text = .ok d) :
    d.tree.depth ≤ nestingLimit := by
  obtain ⟨t, -, ht⟩ := parse_eq_ok_iff.mp h
  refine depth_tree_le_iff.mpr fun i hi => ?_
  exact Nat.le_of_add_le_add_right (depth_of_ofTree? ht i hi)

theorem parse_print_of_depth {d : Descriptor} (hreals : ReadBack d.reals)
    (h : d.tree.depth ≤ nestingLimit) : parse d.print = .ok d :=
  parse_eq_ok_iff.mpr ⟨d.tree, Tree.ofText?_pretty d.proper_tree, d.ofTree?_tree h hreals⟩

/-- **Descriptors survive being written.** The printed text of a descriptor spells its tree, and if
the literals of the doubles in it are read as these doubles,

* it is read as the very descriptor exactly if it nests no more deeply than a reader follows,
* which holds of every descriptor that was read from some text,
* and then printing what was read gives the same text again. -/
theorem parse_print (d : Descriptor) (hreals : ReadBack d.reals) :
    Tree.ofText? d.print = some d.tree ∧
    (parse d.print = .ok d ↔ d.tree.depth ≤ nestingLimit) ∧
    (∀ text, parse text = .ok d → d.tree.depth ≤ nestingLimit ∧ parse d.print = .ok d) ∧
    (d.tree.depth ≤ nestingLimit → (parse d.print).map print = .ok d.print) := by
  refine ⟨Tree.ofText?_pretty d.proper_tree, ⟨depth_of_parse, parse_print_of_depth hreals⟩, ?_, ?_⟩
  · intro text h
    have hdepth := depth_of_parse h
    exact ⟨hdepth, parse_print_of_depth hreals hdepth⟩
  · intro hdepth
    rw [parse_print_of_depth hreals hdepth]
    rfl

/-- A descriptor whose strings need every kind of escape and whose option holds every kind of
value. -/
def sample : Descriptor where
  kernelSource := "kernel \"a\\b\"\n\x00"
  instructions := [{
    entry := "λ\t→"
    inputs := ["x"]
    outputs := []
    weights := ["w\x7f"]
    option := {
      value := .object [("axes", .array [.number (.integer (-3) (by decide)), .object [], .null]),
        ("flag", .bool true), ("name", .string ""),
        ("scale", .number (.real ⟨0x3FE0000000000000⟩ (by decide)))]
      canonical := by
        refine .object (by decide) (List.forall_mem_cons.mpr ⟨.array ?_, ?_⟩)
        · simp [Canonical.number, Canonical.null, Canonical.object]
        · simp [Canonical.bool, Canonical.string, Canonical.number] } }]
  weights := .ofList 0xFFFFFFFFFFFFFFFF [("w", ⟨0, 0xFFFFFFFFFFFFFFFF⟩), ("", ⟨1, 0⟩)]
  buffers := .empty 0
  inputs := ["x"]
  outputs := []
  encoding := "raw"

/-- The doubles of the sample are read back. -/
theorem readBack_sample : ReadBack sample.reals := by
  intro x hx
  obtain rfl := List.mem_singleton.mp hx
  decide +kernel

/-- One half is read back as one half, so the sample is read back. -/
theorem parse_print_sample : ReadBack sample.reals ∧ parse sample.print = .ok sample :=
  ⟨readBack_sample, (parse_print sample readBack_sample).2.1.mpr (by decide)⟩

end Descriptor

end InferenceEngine
