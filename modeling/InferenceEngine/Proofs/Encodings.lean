import InferenceEngine.Proofs.Records
import InferenceEngine.Proofs.RoundTrip

/-!
# The encodings of a descriptor

`Descriptor.Written d t` says that `t` is an encoding of `d`: the tree that `d` is written as, with
the members of its objects in any order, with foreign members among them, with fields left out that
stand at their defaults, and with any of its records as an array. All encodings are read as `d`
(`Descriptor.encodings_agree`). The proof climbs from regions to descriptors; each step reads the
slots of a record, which `Tree.fields?_of_record` has filled.

`Descriptor.Broken t` says that `t` cannot be an encoding of anything: one of the records in it is an
object that lacks a field or gives one twice.
-/

namespace InferenceEngine

open Json

/-! ## Layouts -/

namespace Layout

/-- The fields of a region. -/
def regionFields (r : Region) : List Tree.Field :=
  [⟨"offset", (· = .ofNat r.offset.toNat), False⟩, ⟨"size", (· = .ofNat r.size.toNat), False⟩]

/-- The fields of a layout. -/
def fields (l : Layout) : List Tree.Field :=
  [⟨"total_size", (· = .ofNat l.totalSize.toNat), False⟩,
    ⟨"allocation", Tree.WrittenMap (fun r => Tree.Record (regionFields r)) l.regions,
      l.regions = .empty⟩]

/-- The tree is an encoding of the layout. -/
abbrev Written (l : Layout) : Tree → Prop := Tree.Record l.fields

variable {room : Nat} {l : Layout} {r : Region} {t : Tree}

/-- What a region is written as is a record of its two fields, each of them given. -/
theorem record_regionTree (r : Region) : Tree.Record (regionFields r) (regionTree r) :=
  Tree.record_ofMembers (.given rfl (.given rfl .nil))

/-- What a layout is written as is one of its encodings. -/
theorem written_tree (l : Layout) : l.Written l.tree := by
  have hregions := Tree.writtenMap_ofMembers l.regions record_regionTree
  exact Tree.record_ofMembers (.given rfl (.given hregions .nil))

theorem proper_of_region (h : Tree.Record (regionFields r) t) : t.Proper := by
  refine Tree.proper_of_record h ?_
  simp [regionFields, Tree.proper_ofNat]

/-- An encoding of a layout is a tree that some text spells, as those of its regions are. -/
theorem proper_of_written (h : l.Written t) : t.Proper := by
  refine Tree.proper_of_record h ?_
  simp only [fields, List.forall_mem_cons]
  refine ⟨?_, ?_, List.forall_mem_nil _⟩
  · rintro _ rfl
    exact Tree.proper_ofNat _
  · intro t ht
    exact Tree.proper_of_writtenMap ht fun _ _ => proper_of_region

/-- A record of the fields of a region is read as the region, if the reader has room for the tree
that the region is written as. -/
theorem region?_of_record (hdepth : (regionTree r).depth ≤ room)
    (h : Tree.Record (regionFields r) t) : region? room t = some r := by
  obtain ⟨inner, rfl, -⟩ := Tree.exists_room_of_ofMembers hdepth
  obtain ⟨slots, hfields, hfits⟩ : ∃ slots, t.fields? ["offset", "size"] = some slots ∧
      List.Forall₂ Tree.Field.Fits (regionFields r) slots := Tree.fields?_of_record h rfl (by decide)
  obtain _ | ⟨hoffset, _ | ⟨hsize, _ | _⟩⟩ := hfits
  have hoffset := Tree.required?_of_fits hoffset fun t ht => ht ▸ Tree.count?_ofNat r.offset
  have hsize := Tree.required?_of_fits hsize fun t ht => ht ▸ Tree.count?_ofNat r.size
  simp [region?, hfields, hoffset, hsize]

/-- An encoding of a layout is read as that layout. -/
theorem ofTree?_of_written (hdepth : l.tree.depth ≤ room) (h : l.Written t) :
    ofTree? room t = some l := by
  obtain ⟨inner, rfl, hmembers⟩ := Tree.exists_room_of_ofMembers hdepth
  obtain ⟨slots, hfields, hfits⟩ : ∃ slots, t.fields? ["total_size", "allocation"] = some slots ∧
      List.Forall₂ Tree.Field.Fits l.fields slots := Tree.fields?_of_record h rfl (by decide)
  -- a slot for each field, in the order of the fields
  obtain _ | ⟨htotal, _ | ⟨hregions, _ | _⟩⟩ := hfits
  simp only [List.forall_mem_cons] at hmembers
  obtain ⟨room, rfl, hinner⟩ := Tree.exists_room_of_ofMembers hmembers.2.1
  rw [List.forall_mem_map] at hinner
  have htotal := Tree.required?_of_fits htotal fun t ht => ht ▸ Tree.count?_ofNat l.totalSize
  have hregions := Tree.optional?_of_fits hregions fun t ht =>
    Tree.map?_of_writtenMap ht fun e he t => region?_of_record (hinner e he)
  simp [ofTree?, hfields, htotal, hregions]

end Layout

/-! ## Options -/

/-- An encoding of an option is read as that option. This is the one place where the doubles in a
descriptor come in, so it is here that they have to be read back. -/
theorem CallOption.ofTree?_of_written {room : Nat} {o : CallOption} {t : Tree}
    (hdepth : o.value.tree.depth ≤ room) (hreals : ReadBack o.value.reals)
    (h : o.value.Written t) : ofTree? room t = some o := by
  have hvalue := Tree.value?_of_written h o.canonical hdepth hreals
  rw [ofTree?]
  split
  · rename_i hnone
    rw [hvalue] at hnone
    cases hnone
  · rename_i j hj
    -- the value that is found is canonical, as that of every option is
    obtain rfl := Option.some.inj (hvalue.symm.trans hj)
    rfl

/-! ## Instructions -/

namespace Instruction

/-- The fields of an instruction. -/
def fields (i : Instruction) : List Tree.Field :=
  [⟨"entry_func_name", (· = .ofString i.entry), False⟩,
    ⟨"inputs", (· = .ofStrings i.inputs), i.inputs = []⟩,
    ⟨"outputs", (· = .ofStrings i.outputs), i.outputs = []⟩,
    ⟨"weights", (· = .ofStrings i.weights), i.weights = []⟩,
    ⟨"call_option", i.option.value.Written, i.option = .default⟩]

/-- The tree is an encoding of the instruction. -/
abbrev Written (i : Instruction) : Tree → Prop := Tree.Record i.fields

variable {room : Nat} {i : Instruction} {t : Tree}

/-- What an instruction is written as is one of its encodings. -/
theorem written_tree (i : Instruction) : i.Written i.tree :=
  Tree.record_ofMembers
    (.given rfl (.given rfl (.given rfl (.given rfl (.given (.plain i.option.value) .nil)))))

/-- An encoding of an instruction is a tree that some text spells. -/
theorem proper_of_written (h : i.Written t) : t.Proper := by
  have hoption : ∀ t, i.option.value.Written t → t.Proper := fun _ => Json.proper_of_written
  refine Tree.proper_of_record h ?_
  simpa [fields, Tree.proper_ofString, Tree.proper_ofStrings] using hoption

/-- An encoding of an instruction is read as that instruction. -/
theorem ofTree?_of_written (hdepth : i.tree.depth ≤ room) (hreals : ReadBack i.option.value.reals)
    (h : i.Written t) : ofTree? room t = some i := by
  obtain ⟨inner, rfl, hmembers⟩ := Tree.exists_room_of_ofMembers hdepth
  obtain ⟨slots, hfields, hfits⟩ : ∃ slots, t.fields? fieldNames = some slots ∧
      List.Forall₂ Tree.Field.Fits i.fields slots := Tree.fields?_of_record h rfl (by decide)
  obtain _ | ⟨hentry, _ | ⟨hinputs, _ | ⟨houtputs, _ | ⟨hweights, _ | ⟨hoption, _ | _⟩⟩⟩⟩⟩ := hfits
  simp only [List.forall_mem_cons] at hmembers
  -- a budget for each field that nests: the lists of names and the option
  obtain ⟨-, hdi, hdo, hdw, hdc, -⟩ := hmembers
  have hentry := Tree.required?_of_fits hentry fun t ht => ht ▸ Tree.text?_ofString i.entry
  have hinputs := Tree.optional?_of_fits hinputs fun t ht => ht ▸ Tree.texts?_ofStrings hdi
  have houtputs := Tree.optional?_of_fits houtputs fun t ht => ht ▸ Tree.texts?_ofStrings hdo
  have hweights := Tree.optional?_of_fits hweights fun t ht => ht ▸ Tree.texts?_ofStrings hdw
  have hoption := Tree.optional?_of_fits hoption fun t ht =>
    CallOption.ofTree?_of_written hdc hreals ht
  simp [ofTree?, hfields, hentry, hinputs, houtputs, hweights, hoption]

end Instruction

/-! ## Descriptors -/

namespace Descriptor

/-- The fields of a descriptor. -/
def fields (d : Descriptor) : List Tree.Field :=
  [⟨"kernel_source", (· = .ofString d.kernelSource), d.kernelSource = ""⟩,
    ⟨"exec_infos", Tree.WrittenList Instruction.Written d.instructions, d.instructions = []⟩,
    ⟨"weight_allocation", d.weights.Written, d.weights = .empty 0⟩,
    ⟨"variable_allocation", d.buffers.Written, d.buffers = .empty 0⟩,
    ⟨"inputs", (· = .ofStrings d.inputs), d.inputs = []⟩,
    ⟨"outputs", (· = .ofStrings d.outputs), d.outputs = []⟩,
    ⟨"weight_encoding", (· = .ofString d.encoding), d.encoding = defaultEncoding⟩]

/-- The tree is an encoding of the descriptor. -/
abbrev Written (d : Descriptor) : Tree → Prop := Tree.Record d.fields

variable {room : Nat} {d : Descriptor} {t : Tree}

/-- What a descriptor is written as is one of its encodings. -/
theorem written_tree (d : Descriptor) : d.Written d.tree := by
  have hinstructions : Tree.WrittenList Instruction.Written d.instructions
      (.array (d.instructions.map Instruction.tree)) :=
    Tree.writtenList_array d.instructions Instruction.written_tree
  exact Tree.record_ofMembers (.given rfl (.given hinstructions (.given d.weights.written_tree
    (.given d.buffers.written_tree (.given rfl (.given rfl (.given rfl .nil)))))))

/-- An encoding of a descriptor is a tree that some text spells: all that it is made of is. -/
theorem proper_of_written (h : d.Written t) : t.Proper := by
  have hinstructions : ∀ t, Tree.WrittenList Instruction.Written d.instructions t → t.Proper :=
    fun t ht => Tree.proper_of_writtenList ht fun _ _ => Instruction.proper_of_written
  have hlayout (l : Layout) : ∀ t, l.Written t → t.Proper := fun _ => Layout.proper_of_written
  refine Tree.proper_of_record h ?_
  simpa [fields, Tree.proper_ofString, Tree.proper_ofStrings] using
    ⟨hinstructions, hlayout d.weights, hlayout d.buffers⟩

/-- An encoding of a descriptor is read as that descriptor. -/
theorem ofTree?_of_written (hdepth : d.tree.depth ≤ room) (hreals : ReadBack d.reals)
    (h : d.Written t) : ofTree? room t = some d := by
  obtain ⟨inner, rfl, hmembers⟩ := Tree.exists_room_of_ofMembers hdepth
  obtain ⟨slots, hfields, hfits⟩ : ∃ slots, t.fields? fieldNames = some slots ∧
      List.Forall₂ Tree.Field.Fits d.fields slots := Tree.fields?_of_record h rfl (by decide)
  obtain _ | ⟨hsource, _ | ⟨hinstructions, _ | ⟨hweights, _ | ⟨hbuffers, _ | ⟨hinputs,
    _ | ⟨houtputs, _ | ⟨hencoding, _ | _⟩⟩⟩⟩⟩⟩⟩ := hfits
  simp only [List.forall_mem_cons] at hmembers
  obtain ⟨-, hdn, hdw, hdb, hdi, hdo, -⟩ := hmembers
  -- the instructions are one level deeper than the list that they stand in
  obtain ⟨room, rfl, hinner⟩ := Tree.exists_room_of_array hdn
  rw [List.forall_mem_map] at hinner
  have hsource := Tree.optional?_of_fits hsource fun t ht => ht ▸ Tree.text?_ofString d.kernelSource
  have hinstructions := Tree.optional?_of_fits hinstructions fun t ht =>
    Tree.list?_of_writtenList ht fun i hi t => Instruction.ofTree?_of_written (hinner i hi)
      fun x hx => hreals x (List.mem_flatMap.mpr ⟨i, hi, hx⟩)
  have hweights := Tree.optional?_of_fits hweights fun t => Layout.ofTree?_of_written hdw
  have hbuffers := Tree.optional?_of_fits hbuffers fun t => Layout.ofTree?_of_written hdb
  have hinputs := Tree.optional?_of_fits hinputs fun t ht => ht ▸ Tree.texts?_ofStrings hdi
  have houtputs := Tree.optional?_of_fits houtputs fun t ht => ht ▸ Tree.texts?_ofStrings hdo
  have hencoding := Tree.optional?_of_fits hencoding fun t ht => ht ▸ Tree.text?_ofString d.encoding
  simp [ofTree?, hfields, hsource, hinstructions, hweights, hbuffers, hinputs, houtputs,
    hencoding]

end Descriptor

/-! ## Trees that are no encoding -/

namespace Layout

/-- A region in the tree, or the tree itself, is an object that is no record. -/
inductive Broken (t : Tree) : Prop
  | here (h : t.Defective ["total_size"] ["total_size", "allocation"])
  | region {ms : List (Literal × Tree)} {m : Literal × Tree}
    (h : t.Holds ["total_size", "allocation"] "allocation" (.object ms)) (hm : m ∈ ms)
    (hr : m.2.Defective ["offset", "size"] ["offset", "size"])

variable {room : Nat} {t : Tree}

/-- An object that lacks a field of a region, or gives one twice, is no region. -/
theorem region?_of_defective (h : t.Defective ["offset", "size"] ["offset", "size"]) :
    region? room t = none := by
  cases room with
  | zero => rfl
  | succ room =>
    refine Option.eq_none_iff_forall_ne_some.mpr fun r hr => ?_
    rw [region?] at hr
    split at hr
    · rename_i offset size hfields
      obtain ⟨_, hoffset, hr⟩ := Option.bind_eq_some_iff.mp hr
      obtain ⟨_, hsize, -⟩ := Option.bind_eq_some_iff.mp hr
      obtain ⟨_, rfl, -⟩ := Tree.required?_eq_some hoffset
      obtain ⟨_, rfl, -⟩ := Tree.required?_eq_some hsize
      obtain ⟨name, hname, hlacks⟩ | ⟨name, hname, hrepeats⟩ := h
      · simpa using Tree.slot_of_lacks hfields hname hlacks
      · simp [Tree.fields?_of_repeats hname hrepeats] at hfields
    · cases hr

/-- A broken layout is not read: the fault is found in the layout itself, or in one of its regions,
and the map of the regions is then not read either. -/
theorem ofTree?_of_broken (h : Broken t) : ofTree? room t = none := by
  cases room with
  | zero => rfl
  | succ room =>
    refine Option.eq_none_iff_forall_ne_some.mpr fun l hl => ?_
    rw [ofTree?] at hl
    split at hl
    · rename_i total regions hfields
      obtain ⟨_, htotal, hl⟩ := Option.bind_eq_some_iff.mp hl
      obtain ⟨_, hregions, -⟩ := Option.bind_eq_some_iff.mp hl
      obtain ⟨_, rfl, -⟩ := Tree.required?_eq_some htotal
      cases h with
      | here h =>
        -- only the total size must be there, the regions need not
        obtain ⟨name, hname, hlacks⟩ | ⟨name, hname, hrepeats⟩ := h
        · obtain rfl := List.mem_singleton.mp hname
          simpa using Tree.slot_of_lacks hfields (by simp) hlacks
        · simp [Tree.fields?_of_repeats hname hrepeats] at hfields
      | region h hm hr =>
        have hslot := Tree.slot_of_holds hfields (by simp) h
        obtain rfl : _ = regions := by simpa using hslot
        rw [Tree.optional?, Tree.map?_eq_none hm fun _ => region?_of_defective hr] at hregions
        cases hregions
    · cases hl

end Layout

namespace Instruction

/-- An instruction has to have an entry, and no field of it may be given twice. -/
theorem ofTree?_of_defective {room : Nat} {t : Tree}
    (h : t.Defective ["entry_func_name"] fieldNames) : ofTree? room t = none := by
  cases room with
  | zero => rfl
  | succ room =>
    refine Option.eq_none_iff_forall_ne_some.mpr fun i hi => ?_
    rw [ofTree?] at hi
    split at hi
    · rename_i hfields
      obtain ⟨_, hentry, -⟩ := Option.bind_eq_some_iff.mp hi
      obtain ⟨_, rfl, -⟩ := Tree.required?_eq_some hentry
      obtain ⟨name, hname, hlacks⟩ | ⟨name, hname, hrepeats⟩ := h
      · obtain rfl := List.mem_singleton.mp hname
        simpa [fieldNames] using Tree.slot_of_lacks hfields (by simp [fieldNames]) hlacks
      · simp [Tree.fields?_of_repeats hname hrepeats] at hfields
    · cases hi

end Instruction

namespace Descriptor

/-- One of the records in the tree is an object that lacks a field or gives one twice. -/
inductive Broken (t : Tree) : Prop
  | here (h : t.Defective [] fieldNames)
  | instruction {ts : List Tree} {i : Tree} (h : t.Holds fieldNames "exec_infos" (.array ts))
    (hi : i ∈ ts) (hb : i.Defective ["entry_func_name"] Instruction.fieldNames)
  | layout {name : String} {l : Tree} (hname : name ∈ ["weight_allocation", "variable_allocation"])
    (h : t.Holds fieldNames name l) (hb : Layout.Broken l)

/-- A broken descriptor is not read, wherever in it the fault is. -/
theorem ofTree?_of_broken {room : Nat} {t : Tree} (h : Broken t) : ofTree? room t = none := by
  cases room with
  | zero => rfl
  | succ room =>
    refine Option.eq_none_iff_forall_ne_some.mpr fun d hd => ?_
    rw [ofTree?] at hd
    split at hd
    · rename_i source instructions weights buffers inputs outputs encoding hfields
      simp only [Option.bind_eq_bind, Option.bind_eq_some_iff] at hd
      obtain ⟨_, -, _, hinstructions, _, hweights, _, hbuffers, -⟩ := hd
      cases h with
      | here h =>
        obtain ⟨name, hname, -⟩ | ⟨name, hname, hrepeats⟩ := h
        · cases hname
        · simp [Tree.fields?_of_repeats hname hrepeats] at hfields
      -- the slot of the instructions holds the list with the broken one in it, so it is not read
      | instruction h hi hb =>
        have hslot := Tree.slot_of_holds hfields (by simp [fieldNames]) h
        obtain rfl : _ = instructions := by simpa [fieldNames] using hslot
        rw [Tree.optional?, Tree.list?_eq_none hi fun _ => Instruction.ofTree?_of_defective hb]
          at hinstructions
        cases hinstructions
      | layout hname h hb =>
        simp only [List.mem_cons, List.not_mem_nil, or_false] at hname
        obtain rfl | rfl := hname
        · have hslot := Tree.slot_of_holds hfields (by simp [fieldNames]) h
          obtain rfl : _ = weights := by simpa [fieldNames] using hslot
          rw [Tree.optional?, Layout.ofTree?_of_broken hb] at hweights
          cases hweights
        · have hslot := Tree.slot_of_holds hfields (by simp [fieldNames]) h
          obtain rfl : _ = buffers := by simpa [fieldNames] using hslot
          rw [Tree.optional?, Layout.ofTree?_of_broken hb] at hbuffers
          cases hbuffers
    · cases hd

/-! ## Encodings -/

/-- **All encodings of a descriptor are read alike.** If the descriptor nests no more deeply than a
reader follows and the literals of the doubles in it are read as these doubles,

* the tree it is written as is one of its encodings, and each of them has a text: the printed one is
  read as the encoding, and so is every other text that the grammar spells it with,
* every text of an encoding is read as the descriptor.

And a text is refused if one of the records in it is an object that lacks a field which has no
default, or that gives a field twice. -/
theorem encodings_agree (d : Descriptor) (hdepth : d.tree.depth ≤ nestingLimit)
    (hreals : ReadBack d.reals) :
    d.Written d.tree ∧
    (∀ t, d.Written t →
      Tree.ofText? (String.ofList t.pretty) = some t ∧
      (∀ cs, SpellsElement t cs → Tree.ofText? (String.ofList cs) = some t) ∧
      ∀ text, Tree.ofText? text = some t → parse text = .ok d) ∧
    ∀ text t, Tree.ofText? text = some t → Broken t →
      parse text = .error (.malformed (.descriptor none)) := by
  refine ⟨d.written_tree, fun t ht => ⟨?_, ?_, ?_⟩, ?_⟩
  · exact Tree.ofText?_pretty (proper_of_written ht)
  · intro cs hcs
    rw [Tree.ofText?, String.toList_ofList]
    exact Tree.ofChars?_of_spells hcs
  · intro text htext
    exact parse_eq_ok_iff.mpr ⟨t, htext, ofTree?_of_written hdepth hreals ht⟩
  · intro text t htext hbroken
    rw [parse, ofText?, htext, Option.bind_some, ofTree?_of_broken hbroken]

/-- The option of the sample's instruction, its members backwards. -/
def shuffledOption : Tree :=
  .ofMembers [("scale", .number (Number.numeralOfDouble ⟨0x3FE0000000000000⟩)),
    ("name", .ofString ""), ("flag", .bool true),
    ("axes", .array [.number (Numeral.ofInt (-3)), .object [], .null])]

/-- The layout of the sample's weights, backwards: one region is an array, the other one is told its
name again. -/
def shuffledWeights : Tree :=
  .ofMembers [("allocation", .ofMembers
      [("w", .array [.ofNat 0, .ofNat 0xFFFFFFFFFFFFFFFF]),
        ("", .ofMembers [("name", .ofString ""), ("size", .ofNat 0), ("offset", .ofNat 1)])]),
    ("total_size", .ofNat 0xFFFFFFFFFFFFFFFF)]

/-- An encoding of the sample: backwards, with a foreign member, without the fields that are left at
their defaults, and with its instruction as an array. -/
def shuffledSample : Tree :=
  .ofMembers [("version", .ofMembers [("inputs", .null)]), ("inputs", .ofStrings ["x"]),
    ("weight_allocation", shuffledWeights),
    ("exec_infos", .array [.array [.ofString "λ\t→", .ofStrings ["x"], .array [],
      .ofStrings ["w\x7f"], shuffledOption]]),
    ("kernel_source", .ofString "kernel \"a\\b\"\n\x00")]

theorem written_shuffledOption :
    ∀ i ∈ sample.instructions, i.option.value.Written shuffledOption := by
  intro i hi
  obtain rfl := List.mem_singleton.mp hi
  exact .object (.cons (.plain _) (.cons (.plain _) (.cons (.plain _) (.cons (.plain _) .nil))))
    (List.reverse_perm [_, _, _, _])

theorem written_shuffledWeights : sample.weights.Written shuffledWeights := by
  have hfull : Tree.Record (Layout.regionFields ⟨0, 0xFFFFFFFFFFFFFFFF⟩)
      (.array [.ofNat 0, .ofNat 0xFFFFFFFFFFFFFFFF]) :=
    .array (.given rfl (.given rfl (.cut (List.forall_mem_nil _))))
  have hforeign : ∀ m ∈ [(Literal.ofString "name", Tree.ofString "")],
      Tree.Foreign ["offset", "size"] m := by
    intro m hm
    obtain rfl := List.mem_singleton.mp hm
    exact ⟨⟨"name", Literal.decode?_ofString _, by decide⟩, Literal.proper_ofString _,
      Tree.proper_ofString _⟩
  have hempty : Tree.Record (Layout.regionFields ⟨1, 0⟩)
      (.ofMembers [("name", .ofString ""), ("size", .ofNat 0), ("offset", .ofNat 1)]) :=
    .object (.given rfl (.given rfl .nil)) hforeign (List.reverse_perm [_, _, _])
  have hregions : Tree.WrittenMap (fun r => Tree.Record (Layout.regionFields r)) sample.weights.regions
      (.ofMembers [("w", .array [.ofNat 0, .ofNat 0xFFFFFFFFFFFFFFFF]),
        ("", .ofMembers [("name", .ofString ""), ("size", .ofNat 0), ("offset", .ofNat 1)])]) :=
    ⟨[_, _], _, .cons ⟨rfl, hempty⟩ (.cons ⟨rfl, hfull⟩ .nil), List.reverse_perm [_, _], rfl⟩
  exact .object (.given rfl (.given hregions .nil)) (List.forall_mem_nil _)
    (List.reverse_perm [_, _])

/-- An array for the instruction, an array for one region, members backwards: all of it is still an
encoding of the sample. -/
theorem written_shuffledSample : sample.Written shuffledSample := by
  have hinstruction : ∀ i ∈ sample.instructions, i.Written (.array [.ofString "λ\t→",
      .ofStrings ["x"], .array [], .ofStrings ["w\x7f"], shuffledOption]) := by
    intro i hi
    have hoption := written_shuffledOption i hi
    obtain rfl := List.mem_singleton.mp hi
    exact .array (.given rfl (.given rfl (.given rfl (.given rfl
      (.given hoption (.cut (List.forall_mem_nil _)))))))
  have hinstructions : Tree.WrittenList Instruction.Written sample.instructions
      (.array [.array [.ofString "λ\t→", .ofStrings ["x"], .array [], .ofStrings ["w\x7f"],
        shuffledOption]]) :=
    ⟨[_], .cons (hinstruction _ List.mem_cons_self) .nil, rfl⟩
  have hforeign : ∀ m ∈ [(Literal.ofString "version", Tree.ofMembers [("inputs", .null)])],
      Tree.Foreign fieldNames m := by
    intro m hm
    obtain rfl := List.mem_singleton.mp hm
    exact ⟨⟨"version", Literal.decode?_ofString _, by decide⟩, Literal.proper_ofString _,
      Tree.proper_ofMembers (by simp [Tree.Proper.null])⟩
  exact .object (.given rfl (.given hinstructions (.given written_shuffledWeights
    (.omitted rfl (.given rfl (.omitted rfl (.omitted rfl .nil))))))) hforeign
    (List.reverse_perm [_, _, _, _, _])

/-- A descriptor as an array whose layout of the weights has a region without a size. -/
def unsized : Tree :=
  .array [.ofString "", .array [], .ofMembers [("total_size", .ofNat 0),
    ("allocation", .ofMembers [("w", .ofMembers [("offset", .ofNat 0)])])]]

/-- The region without a size breaks the layout that it is in, and the layout breaks the
descriptor. -/
theorem broken_unsized : Broken unsized := by
  have hlacks : (Tree.ofMembers [("offset", .ofNat 0)]).Lacks "size" := by
    intro m hm
    obtain rfl := List.mem_singleton.mp hm
    rw [Literal.decode?_ofString]
    decide
  have hlayout : Layout.Broken (.ofMembers [("total_size", .ofNat 0),
      ("allocation", .ofMembers [("w", .ofMembers [("offset", .ofNat 0)])])]) :=
    .region ⟨_, List.mem_cons_of_mem _ List.mem_cons_self, Literal.decode?_ofString _, rfl⟩
      List.mem_cons_self (.inl ⟨"size", by decide, hlacks⟩)
  exact .layout List.mem_cons_self (by simp [unsized, Tree.Holds, fieldNames]) hlayout

theorem proper_unsized : unsized.Proper := by
  have hregions : (Tree.ofMembers [("w", .ofMembers [("offset", .ofNat 0)])]).Proper :=
    Tree.proper_ofMembers (by simpa using Tree.proper_ofMembers (by simp [Tree.proper_ofNat]))
  have hlayout : (Tree.ofMembers [("total_size", .ofNat 0),
      ("allocation", .ofMembers [("w", .ofMembers [("offset", .ofNat 0)])])]).Proper :=
    Tree.proper_ofMembers (by simp [Tree.proper_ofNat, hregions])
  exact .array (by simp [Tree.proper_ofString, Tree.Proper.array, hlayout])

/-- The shuffled encoding of the sample is read as the sample; a region without a size is not read. -/
theorem encodings_agree_shuffled :
    sample.tree.depth ≤ nestingLimit ∧ ReadBack sample.reals ∧ sample.Written shuffledSample ∧
    parse (String.ofList shuffledSample.pretty) = .ok sample ∧
    parse (String.ofList unsized.pretty) = .error (.malformed (.descriptor none)) := by
  have hdepth : sample.tree.depth ≤ nestingLimit := by decide
  obtain ⟨-, hwritten, hbroken⟩ := encodings_agree sample hdepth readBack_sample
  obtain ⟨hpretty, -, hread⟩ := hwritten shuffledSample written_shuffledSample
  have hunsized := hbroken _ unsized (Tree.ofText?_pretty proper_unsized) broken_unsized
  exact ⟨hdepth, readBack_sample, written_shuffledSample, hread _ hpretty, hunsized⟩

end Descriptor

end InferenceEngine
