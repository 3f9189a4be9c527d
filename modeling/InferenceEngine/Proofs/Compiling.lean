import InferenceEngine.Proofs.Loading

/-!
# Compiling

Compiling checks five things one after the other: the source of the kernels, the layout of the
weights, the layout of the variables, the declared inputs and the declared outputs. Several of them
may be wrong at once. In between it makes the buffers, and is broken off if one would be too long.
`Runner.compile_exact` is the main statement: compiling succeeds iff nothing is wrong and everything
fits, it ends otherwise with what comes first, and then nothing has happened; what the instructions
name has no part in it.

* `Compilable`, `Descriptor.Held`, `Rejects` and `Overflows` are what is said about a graph, apart
  from the order in which the program goes about it.
* `resolveDeclared_eq` — declared names are all found, or the first that is not is the failure.
* `Runner.build_cases` — of the three ways in which compiling can end, one is always there.
* `Runner.uncompiled_after` — a graph that cannot be compiled stays uncompiled.
-/

namespace InferenceEngine

/-! ## Declared names -/

/-- The first of the listed names that nothing is bound to. -/
def firstUnknown {α : Type} (find : String → Option α) (names : List String) : Option String :=
  names.find? fun name => (find name).isNone

section FirstUnknown

variable {α β : Type} {find : String → Option α} {names : List String} {name : String}

theorem firstUnknown_eq_none_iff :
    firstUnknown find names = none ↔ ∀ name ∈ names, ∃ x, find name = some x := by
  rw [firstUnknown, List.find?_eq_none]
  refine forall₂_congr fun name _ => ?_
  rw [Option.isNone_iff_eq_none, ← ne_eq, Option.ne_none_iff_exists']

theorem firstUnknown_eq_some (h : firstUnknown find names = some name) :
    name ∈ names ∧ (find name).isNone = true :=
  ⟨List.mem_of_find?_eq_some h, List.find?_some (p := fun name => (find name).isNone) h⟩

theorem firstUnknown_cons_of_none (h : find name = none) (rest : List String) :
    firstUnknown find (name :: rest) = some name := by
  rw [firstUnknown, List.find?_cons, h]
  rfl

theorem firstUnknown_cons_of_some {x : α} (h : find name = some x) (rest : List String) :
    firstUnknown find (name :: rest) = firstUnknown find rest := by
  rw [firstUnknown, List.find?_cons, h]
  rfl

/-- Which names are unknown does not depend on what the others are bound to. -/
theorem firstUnknown_congr {other : String → Option β}
    (h : ∀ name, (find name).isNone = (other name).isNone) (names : List String) :
    firstUnknown find names = firstUnknown other names :=
  congrArg (names.find? ·) (funext h)

end FirstUnknown

/-- A name has a place just if something is bound to it. -/
theorem isNone_place {α : Type} (entries : List (String × α)) (name : String) :
    ((entries.map (·.1)).idxOf? name).isNone = (entries.lookup name).isNone := by
  rcases lookup_cases entries name with ⟨hplace, hlookup⟩ | ⟨place, x, hplace, -, hlookup⟩
  · rw [hplace, hlookup]
    rfl
  · rw [hplace, hlookup]
    rfl

/-- Declared names are all found, or the first that is not is the failure. -/
theorem resolveDeclared_eq (role : Role) (v : Variables) (names : List String) :
    resolveDeclared role v names =
      match firstUnknown v.handle? names with
      | none => .ok (names.filterMap v.handle?)
      | some name => .error (.unresolvedReference role name none) := by
  induction names with
  | nil => rfl
  | cons name rest ih =>
    rw [resolveDeclared]
    cases hname : v.handle? name with
    | none => rw [firstUnknown_cons_of_none hname]
    | some handle =>
      rw [ih, firstUnknown_cons_of_some hname, List.filterMap_cons, hname]
      cases firstUnknown v.handle? rest <;> rfl

/-! ## What is said about a graph -/

/-- The source is materialized. -/
def Materializes (loader : KernelLoader) (d : Descriptor) : Prop :=
  ∃ kernels, loader.materialize d.kernelSource = .ok kernels

/-- Every region lies inside the buffer, and no two that are not empty share an element. -/
def Layout.Sound (l : Layout) : Prop := l.Fits ∧ ∀ p q, ¬ l.Overlap p q

/-- Nothing is wrong with a graph. -/
structure Compilable (loader : KernelLoader) (d : Descriptor) : Prop where
  /-- the source of the kernels is materialized -/
  source : Materializes loader d
  /-- the weights lie in the buffer and apart -/
  weights : d.weights.Sound
  /-- the variables lie in the buffer; they may overlap -/
  buffers : d.buffers.Fits
  /-- every declared input is a variable -/
  inputs : ∀ name ∈ d.inputs, ∃ region, d.buffers.get? name = some region
  /-- every declared output is a variable -/
  outputs : ∀ name ∈ d.outputs, ∃ region, d.buffers.get? name = some region

/-- The weights have been made: the source of the kernels is materialized, and the weights are sound
and fit into their buffer. -/
structure WeightsMade (loader : KernelLoader) (d : Descriptor) : Prop where
  /-- the source of the kernels is materialized -/
  source : Materializes loader d
  /-- the weights lie in the buffer and apart -/
  sound : d.weights.Sound
  /-- the buffer is not too long -/
  held : d.weights.TotalHeld

/-- So have the variables: they lie in the total, and each fits into its buffer. -/
structure BuffersMade (loader : KernelLoader) (d : Descriptor) : Prop extends
    WeightsMade loader d where
  /-- the variables lie in the total -/
  fits : d.buffers.Fits
  /-- no buffer is too long -/
  sizes : d.buffers.SizesHeld

/-- What the first check finds that finds something, if no buffer was too long before. -/
inductive Rejects (loader : KernelLoader) (d : Descriptor) : Failure → Prop
  /-- the source is not materialized -/
  | source {f : Failure} (h : loader.materialize d.kernelSource = .error f) : Rejects loader d f
  /-- it is, and something is wrong with the layout of the weights -/
  | weights {f : Failure} (hsource : Materializes loader d)
    (h : d.weights.validate "weight" = .error f) : Rejects loader d f
  /-- the weights are there, and a variable does not lie in the total -/
  | buffers {f : Failure} (hmade : WeightsMade loader d)
    (h : d.buffers.validateBounds "variable" = .error f) : Rejects loader d f
  /-- the variables are there, and a declared input is none of them -/
  | input {name : String} (hmade : BuffersMade loader d)
    (h : firstUnknown d.buffers.get? d.inputs = some name) :
    Rejects loader d (.unresolvedReference .input name none)
  /-- every declared input is one, and a declared output is not -/
  | output {name : String} (hmade : BuffersMade loader d)
    (hinputs : firstUnknown d.buffers.get? d.inputs = none)
    (h : firstUnknown d.buffers.get? d.outputs = some name) :
    Rejects loader d (.unresolvedReference .output name none)

/-- The first buffer that would be too long, if no check has found anything before. -/
inductive Overflows (loader : KernelLoader) (d : Descriptor) : Prop
  /-- that of the weights -/
  | weights (hsource : Materializes loader d) (hsound : d.weights.Sound)
    (h : ¬ d.weights.TotalHeld) : Overflows loader d
  /-- one of the variables -/
  | buffers (hmade : WeightsMade loader d) (hfits : d.buffers.Fits)
    (h : ¬ d.buffers.SizesHeld) : Overflows loader d

/-! ## Allocating -/

theorem Layout.sound_iff {l : Layout} {table : String} :
    l.validate table = .ok () ↔ l.Sound := by
  obtain ⟨hbounds, -, hvalid, -, -⟩ := l.validate_exact table
  exact hvalid.trans (and_congr_left' hbounds)

theorem Weights.allocate_of_sound {l : Layout} (h : l.Sound) (hheld : l.TotalHeld) :
    Weights.allocate l = .ok (blank l) := by
  rw [allocate_of_valid (Layout.sound_iff.mpr h), if_pos hheld]

/-- The handles of variables are the places of their names. -/
theorem Variables.allocate_of_fits {l : Layout} (h : l.Fits) (hsizes : l.SizesHeld) :
    Variables.allocate l = .ok (blank l) := by
  rw [allocate_of_valid ((l.validate_exact "variable").1.mpr h), if_pos hsizes]

theorem resolveDeclared_blank (role : Role) (l : Layout) (names : List String) :
    resolveDeclared role (.blank l) names =
      match firstUnknown l.get? names with
      | none => .ok (names.filterMap l.regions.names.idxOf?)
      | some name => .error (.unresolvedReference role name none) := by
  have hunknown : firstUnknown (Variables.blank l).handle? names = firstUnknown l.get? names :=
    firstUnknown_congr (isNone_place l.regions.entries) names
  rw [resolveDeclared_eq, hunknown]
  rfl

namespace Runner

variable {loader : KernelLoader} {d : Descriptor} {f : Failure} {p : Panic} {r : Runner}

/-! ## Checking -/

/-- With the weights made, compiling goes on with the variables. -/
theorem build_of_weightsMade (h : WeightsMade loader d) : ∃ kernels,
    build loader d = (do
      let buffers ← Variables.allocate d.buffers
      let inputs ← .ofExcept (resolveDeclared .input buffers d.inputs)
      let outputs ← .ofExcept (resolveDeclared .output buffers d.outputs)
      return ⟨.blank d.weights, buffers, kernels,
        Program.link ⟨kernels, buffers, .blank d.weights⟩ d.instructions, inputs, outputs⟩) := by
  obtain ⟨kernels, hsource⟩ := h.source
  refine ⟨kernels, ?_⟩
  rw [build, hsource, Weights.allocate_of_sound h.sound h.held]
  rfl

/-- With the variables made as well, it goes on with the declared names. -/
theorem build_of_buffersMade (h : BuffersMade loader d) : ∃ kernels,
    build loader d = (do
      let inputs ← .ofExcept (resolveDeclared .input (.blank d.buffers) d.inputs)
      let outputs ← .ofExcept (resolveDeclared .output (.blank d.buffers) d.outputs)
      return ⟨.blank d.weights, .blank d.buffers, kernels,
        Program.link ⟨kernels, .blank d.buffers, .blank d.weights⟩ d.instructions,
        inputs, outputs⟩) := by
  obtain ⟨kernels, hbuild⟩ := build_of_weightsMade h.toWeightsMade
  refine ⟨kernels, ?_⟩
  rw [hbuild, Variables.allocate_of_fits h.fits h.sizes]
  rfl

theorem build_of_compilable (h : Compilable loader d) (hheld : d.Held) :
    ∃ c, build loader d = .ok c := by
  obtain ⟨kernels, hbuild⟩ :=
    build_of_buffersMade ⟨⟨h.source, h.weights, hheld.1⟩, h.buffers, hheld.2⟩
  rw [hbuild, resolveDeclared_blank, firstUnknown_eq_none_iff.mpr h.inputs,
    resolveDeclared_blank, firstUnknown_eq_none_iff.mpr h.outputs]
  exact ⟨_, rfl⟩

theorem build_of_rejects (h : Rejects loader d f) : build loader d = .error f := by
  -- in each case the checks before have gone through
  cases h with
  | source h =>
    rw [build, h]
    rfl
  | weights hsource h =>
    obtain ⟨kernels, hsource⟩ := hsource
    rw [build, hsource, Weights.allocate_of_error h]
    rfl
  | buffers hmade h =>
    obtain ⟨kernels, hbuild⟩ := build_of_weightsMade hmade
    rw [hbuild, Variables.allocate_of_error h]
    rfl
  | input hmade h =>
    obtain ⟨kernels, hbuild⟩ := build_of_buffersMade hmade
    rw [hbuild, resolveDeclared_blank, h]
    rfl
  | output hmade hinputs h =>
    obtain ⟨kernels, hbuild⟩ := build_of_buffersMade hmade
    rw [hbuild, resolveDeclared_blank, hinputs, resolveDeclared_blank, h]
    rfl

theorem build_of_overflows (h : Overflows loader d) :
    build loader d = .panic .capacityOverflow := by
  cases h with
  | weights hsource hsound h =>
    obtain ⟨kernels, hsource⟩ := hsource
    rw [build, hsource, Weights.allocate_of_valid (Layout.sound_iff.mpr hsound), if_neg h]
    rfl
  | buffers hmade hfits h =>
    obtain ⟨kernels, hbuild⟩ := build_of_weightsMade hmade
    have hvalid := (d.buffers.validate_exact "variable").1.mpr hfits
    rw [hbuild, Variables.allocate_of_valid hvalid, if_neg h]
    rfl

/-- Either nothing is wrong with a graph and everything fits, or there is a first check that finds
something, or a first buffer that would be too long. -/
theorem build_cases (loader : KernelLoader) (d : Descriptor) :
    (Compilable loader d ∧ d.Held) ∨ (∃ f, Rejects loader d f) ∨ Overflows loader d := by
  -- the checks one after the other, each under what those before it have found; what a check
  -- reports is carried by the constructor for it
  cases hsource : loader.materialize d.kernelSource with
  | error f => exact .inr (.inl ⟨f, .source hsource⟩)
  | ok kernels =>
  have hsource : Materializes loader d := ⟨kernels, hsource⟩
  cases hweights : d.weights.validate "weight" with
  | error f => exact .inr (.inl ⟨f, .weights hsource hweights⟩)
  | ok _ =>
  have hsound : d.weights.Sound := Layout.sound_iff.mp hweights
  by_cases hheld : d.weights.TotalHeld
  case neg => exact .inr (.inr (.weights hsource hsound hheld))
  have hmade : WeightsMade loader d := ⟨hsource, hsound, hheld⟩
  cases hbuffers : d.buffers.validateBounds "variable" with
  | error f => exact .inr (.inl ⟨f, .buffers hmade hbuffers⟩)
  | ok _ =>
  have hfits : d.buffers.Fits := (d.buffers.validate_exact "variable").1.mp hbuffers
  by_cases hsizes : d.buffers.SizesHeld
  case neg => exact .inr (.inr (.buffers hmade hfits hsizes))
  have hmade : BuffersMade loader d := ⟨hmade, hfits, hsizes⟩
  cases hinputs : firstUnknown d.buffers.get? d.inputs with
  | some name => exact .inr (.inl ⟨_, .input hmade hinputs⟩)
  | none =>
  cases houtputs : firstUnknown d.buffers.get? d.outputs with
  | some name => exact .inr (.inl ⟨_, .output hmade hinputs houtputs⟩)
  | none =>
  exact .inl ⟨⟨hsource, hsound, hfits, firstUnknown_eq_none_iff.mp hinputs,
    firstUnknown_eq_none_iff.mp houtputs⟩, hheld, hsizes⟩

/-! ## The call -/

/-- A call on a runner that is not compiled ends as making the graph does. -/
theorem compile_outcome (hnone : r.compiled = none) (t : Thread) :
    (r.compile t).1 = (build r.loader r.descriptor).map fun _ => () := by
  rw [compile, hnone]
  dsimp only
  cases build r.loader r.descriptor <;> rfl

/-- If no graph is made, nothing has happened. -/
theorem compile_of_failed (hnone : r.compiled = none) {t : Thread}
    (hfail : (r.compile t).1 ≠ .ok ()) : (r.compile t).2 = (r, t) := by
  rw [compile, hnone] at hfail ⊢
  dsimp only at hfail ⊢
  cases hbuild : build r.loader r.descriptor with
  | error f => rfl
  | panic p => rfl
  | ok c =>
    rw [hbuild] at hfail
    exact absurd rfl hfail

/-- Compiling succeeds just when nothing is wrong and everything fits. -/
theorem compile_eq_ok_iff (hnone : r.compiled = none) (t : Thread) :
    (r.compile t).1 = .ok () ↔ Compilable r.loader r.descriptor ∧ r.descriptor.Held := by
  rw [compile_outcome hnone]
  rcases build_cases r.loader r.descriptor with hgood | ⟨f, hbad⟩ | hlong
  · obtain ⟨c, hbuild⟩ := build_of_compilable hgood.1 hgood.2
    rw [hbuild]
    exact iff_of_true rfl hgood
  · rw [build_of_rejects hbad]
    refine iff_of_false nofun fun hgood => ?_
    obtain ⟨c, hbuild⟩ := build_of_compilable hgood.1 hgood.2
    cases hbuild.symm.trans (build_of_rejects hbad)
  · rw [build_of_overflows hlong]
    refine iff_of_false nofun fun hgood => ?_
    obtain ⟨c, hbuild⟩ := build_of_compilable hgood.1 hgood.2
    cases hbuild.symm.trans (build_of_overflows hlong)

/-- It fails just with what the first check finds that finds something. -/
theorem compile_eq_error_iff (hnone : r.compiled = none) (t : Thread) :
    (r.compile t).1 = .error f ↔ Rejects r.loader r.descriptor f := by
  rw [compile_outcome hnone, Outcome.map_eq_error]
  refine ⟨fun herror => ?_, build_of_rejects⟩
  rcases build_cases r.loader r.descriptor with hgood | ⟨f', hbad⟩ | hlong
  · obtain ⟨c, hbuild⟩ := build_of_compilable hgood.1 hgood.2
    cases hbuild.symm.trans herror
  · obtain rfl := Outcome.error.inj ((build_of_rejects hbad).symm.trans herror)
    exact hbad
  · cases (build_of_overflows hlong).symm.trans herror

/-- It is broken off just when a buffer would be too long. -/
theorem compile_eq_panic_iff (hnone : r.compiled = none) (t : Thread) :
    (r.compile t).1 = .panic p ↔ p = .capacityOverflow ∧ Overflows r.loader r.descriptor := by
  rw [compile_outcome hnone, Outcome.map_eq_panic]
  constructor
  · intro hpanic
    rcases build_cases r.loader r.descriptor with hgood | ⟨f, hbad⟩ | hlong
    · obtain ⟨c, hbuild⟩ := build_of_compilable hgood.1 hgood.2
      cases hbuild.symm.trans hpanic
    · cases (build_of_rejects hbad).symm.trans hpanic
    · exact ⟨(build_eq_panic hpanic).1, hlong⟩
  · rintro ⟨rfl, hlong⟩
    exact build_of_overflows hlong

/-- Making the graph looks at no instruction but to link it. -/
theorem build_with_instructions (loader : KernelLoader) (d : Descriptor)
    (instructions : List Instruction) :
    (build loader { d with instructions }).map (fun _ => ()) =
      (build loader d).map fun _ => () := by
  rw [build, build]
  cases loader.materialize d.kernelSource with
  | error f => rfl
  | ok kernels =>
  dsimp only [Outcome.ofExcept, Outcome.ok_bind]
  cases Weights.allocate d.weights with
  | error f => rfl
  | panic p => rfl
  | ok weights =>
  dsimp only [Outcome.ok_bind]
  cases Variables.allocate d.buffers with
  | error f => rfl
  | panic p => rfl
  | ok buffers =>
  dsimp only [Outcome.ok_bind]
  cases resolveDeclared .input buffers d.inputs with
  | error f => rfl
  | ok inputs =>
  dsimp only [Outcome.ofExcept, Outcome.ok_bind]
  cases resolveDeclared .output buffers d.outputs <;> rfl

/-- So how compiling ends does not depend on the instructions. -/
theorem compile_with_instructions (hnone : r.compiled = none) (instructions : List Instruction)
    (t t' : Thread) :
    (compile { r with descriptor := { r.descriptor with instructions } } t').1 =
      (r.compile t).1 := by
  let other : Runner := { r with descriptor := { r.descriptor with instructions } }
  have hother : other.compiled = none := hnone
  rw [compile_outcome hnone t, compile_outcome hother t']
  exact build_with_instructions r.loader r.descriptor instructions

/-- A graph that cannot be compiled stays uncompiled, whatever is done with the runner. -/
theorem uncompiled_after (hnone : r.compiled = none)
    (hbuild : ∀ c, build r.loader r.descriptor ≠ .ok c) (acts : List Action) :
    (r.after acts).compiled = none ∧ (r.after acts).loader = r.loader ∧
      (r.after acts).descriptor = r.descriptor := by
  induction acts generalizing r with
  | nil => exact ⟨hnone, rfl, rfl⟩
  | cons a rest ih =>
    have hkept : r.Kept (r.act a).2 := by
      rcases act_cases r a with ⟨-, -, c, hok, -⟩ | ⟨-, -, c, -, -, hc, -⟩ | ⟨hkept, -⟩
      · exact absurd hok (hbuild c)
      · cases hnone.symm.trans hc
      · exact hkept
    have hnone' : (r.act a).2.compiled = none := by
      obtain ⟨b, hb, -⟩ := hkept.compiled
      rw [hb, withBank, hnone]
      rfl
    rw [← hkept.loader, ← hkept.descriptor] at hbuild ⊢
    exact ih hnone' hbuild

/-- So every later try ends in the same way. -/
theorem compile_after_failed (hnone : r.compiled = none) {t : Thread}
    (hfail : (r.compile t).1 ≠ .ok ()) (acts : List Action) :
    (r.after acts).compiled = none ∧ ∀ t', ((r.after acts).compile t').1 = (r.compile t).1 := by
  have hbuild (c : Compiled) : build r.loader r.descriptor ≠ .ok c := by
    intro hok
    rw [compile_outcome hnone, hok] at hfail
    exact hfail rfl
  obtain ⟨hlater, hloader, hdescriptor⟩ := uncompiled_after hnone hbuild acts
  refine ⟨hlater, fun t' => ?_⟩
  rw [compile_outcome hlater, compile_outcome hnone, hloader, hdescriptor]

/-! ## Zeros -/

variable {c : Compiled}

/-- Every variable of a runner that has just been compiled is all zeros. -/
theorem elementsOf_of_built (hbuild : build r.loader r.descriptor = .ok c)
    (hc : r.compiled = some c) {name : String} {region : Region}
    (hget : r.descriptor.buffers.get? name = some region) :
    r.elementsOf name = .ok (List.replicate region.size.toNat .zero) := by
  have hholds : r.Holds c c.buffers.bank c.weights.data := ⟨hbuild, hc, rfl, rfl⟩
  obtain ⟨-, -, hbuffers, -⟩ := build_spec hbuild
  rw [elementsOf_eq hholds, Tables.elements, Tables.buffer?, hget, Option.bind_some]
  rw [Layout.get?, NameMap.get?] at hget
  rcases lookup_cases r.descriptor.buffers.regions.entries name with
    ⟨-, hnone⟩ | ⟨place, region', hplace, hentry, hsome⟩
  · cases hnone.symm.trans hget
  · obtain rfl := Option.some.inj (hsome.symm.trans hget)
    have hbuffer : c.buffers.bank[place]? = some (Array.replicate region'.size.toNat .zero) := by
      obtain ⟨-, -, hblank⟩ := Variables.allocate_eq_ok.mp hbuffers
      rw [hblank, Variables.blank, NameMap.values, List.getElem?_map, List.getElem?_map,
        List.getElem?_map, hentry]
      rfl
    rw [NameMap.names, hplace]
    dsimp only [Option.map_some]
    rw [View.elements, Bank.elements, hbuffer, Option.map_some, Array.toList_replicate]
    rfl

/-- So is every weight. -/
theorem weightOf_of_built (hbuild : build r.loader r.descriptor = .ok c)
    (hc : r.compiled = some c) {name : String} {region : Region}
    (hget : r.descriptor.weights.get? name = some region) :
    r.weightOf name = .ok (Array.replicate region.size.toNat .zero) := by
  have hholds : r.Holds c c.buffers.bank c.weights.data := ⟨hbuild, hc, rfl, rfl⟩
  obtain ⟨-, hweights, -, -⟩ := build_spec hbuild
  have hle : region.stop ≤ r.descriptor.weights.totalSize.toNat :=
    (Weights.allocate_spec hweights).1 name region hget
  have hsize : min region.stop r.descriptor.weights.totalSize.toNat - region.start =
      region.size.toNat := by
    rw [Nat.min_eq_left hle]
    exact Nat.add_sub_cancel_left _ _
  obtain ⟨-, -, hblank⟩ := Weights.allocate_eq_ok.mp hweights
  rw [weightOf_eq hholds hget, hblank, Weights.blank, Array.extract_replicate, hsize]

/-- **Compiling succeeds just when it should, and fails cleanly.** Let a runner not be compiled.

* Compiling succeeds iff the source is materialized, the weights lie in their buffer with no two
  that are not empty sharing an element, the variables lie in theirs, and every declared input and
  output is a variable; and the buffer of the weights and that of each variable stay below the
  capacity of a buffer.
* It fails with what the first check finds that finds something, in this order, and is broken off if
  before that, right after the check of a layout, one of its buffers would be too long.
* If it does not succeed nothing has happened, nothing is logged, and whatever is done with the runner
  it stays uncompiled and every later try ends in the same way.
* If it succeeds nothing else about the runner changes, and every variable and every weight has its
  declared size and is all zeros.
* How it ends does not depend on the instructions. -/
theorem compile_exact (r : Runner) (hnone : r.compiled = none) (t : Thread) :
    let d := r.descriptor
    ((r.compile t).1 = .ok () ↔ Compilable r.loader d ∧ d.Held) ∧
    (∀ f, (r.compile t).1 = .error f ↔ Rejects r.loader d f) ∧
    (∀ p, (r.compile t).1 = .panic p ↔ p = .capacityOverflow ∧ Overflows r.loader d) ∧
    ((r.compile t).1 ≠ .ok () → (r.compile t).2 = (r, t) ∧
      ∀ acts, (r.after acts).compiled = none ∧
        ∀ t', ((r.after acts).compile t').1 = (r.compile t).1) ∧
    ((r.compile t).1 = .ok () →
      (∃ c, (r.compile t).2.1 = { r with compiled := some c }) ∧
      (∀ name region, d.buffers.get? name = some region →
        (r.compile t).2.1.elementsOf name = .ok (List.replicate region.size.toNat .zero)) ∧
      ∀ name region, d.weights.get? name = some region →
        (r.compile t).2.1.weightOf name = .ok (Array.replicate region.size.toNat .zero)) ∧
    ∀ instructions t',
      (Runner.compile { r with descriptor := { d with instructions } } t').1 = (r.compile t).1 := by
  intro d
  refine ⟨compile_eq_ok_iff hnone t, fun f => compile_eq_error_iff hnone t,
    fun p => compile_eq_panic_iff hnone t,
    fun hfail => ⟨compile_of_failed hnone hfail, compile_after_failed hnone hfail⟩, fun hok => ?_,
    fun instructions => compile_with_instructions hnone instructions t⟩
  -- the new runner is the old one with its graph: what was built says the rest
  obtain ⟨-, c, hbuild, hr⟩ := compile_of_ok hok
  let built : Runner := { r with compiled := some c }
  rw [hr]
  exact ⟨⟨c, rfl⟩, fun name region => elementsOf_of_built (r := built) hbuild rfl,
    fun name region => weightOf_of_built (r := built) hbuild rfl⟩

theorem compile_relay (t : Thread) :
    (relay.compile t).1 = .ok () ∧ (relay.compile t).2.1 = relayed := by
  have hnone : relay.compiled = none := rfl
  have hbuild : build relay.loader relay.descriptor = .ok relayGraph := holds_relayed.built
  rw [compile, hnone]
  dsimp only
  rw [hbuild]
  exact ⟨rfl, rfl⟩

/-- A runner with several faults: a variable that ends behind the buffer, an input that is no
variable, and an instruction that names nothing that is there. -/
def brimming : Runner :=
  ofDescriptor
    { Descriptor.default with
      instructions := [⟨"mark", ["c"], [], ["w"], .default⟩]
      buffers := ⟨1, [("a", ⟨0, 2⟩)], by decide⟩
      inputs := ["b"] }
    ⟨fun _ => .ok ⟨[]⟩⟩

/-- Of its faults the variable is found first. An instruction that names a variable that is not
there does not keep a graph from being compiled. -/
theorem compile_exact_brimming :
    (brimming.compiled = none ∧
      (brimming.compile quiet).1 = .error (.layout "variable" (.exceeds "a" 0 2 1))) ∧
    relay.compiled = none ∧ (relay.compile quiet).1 = .ok () ∧
      (relay.compile quiet).2.1.elementsOf "b" = .ok [.zero] := by
  have hempty : (Layout.empty 0).Sound := ⟨nofun, fun p q hover => nomatch hover⟩
  have hmade : WeightsMade brimming.loader brimming.descriptor :=
    ⟨⟨_, rfl⟩, hempty, by decide⟩
  obtain ⟨-, hfails, -⟩ := compile_exact brimming rfl quiet
  obtain ⟨hsucceeds, -, -, -, hzero, -⟩ := compile_exact relay rfl quiet
  have hfits : relay.descriptor.buffers.Fits := (Layout.validate_exact _ "variable").1.mp rfl
  have hok := hsucceeds.mpr ⟨⟨⟨_, rfl⟩, hempty, hfits, nofun, nofun⟩, by decide⟩
  refine ⟨⟨rfl, (hfails _).mpr (.buffers hmade rfl)⟩, rfl, hok, ?_⟩
  exact (hzero hok).2.1 "b" ⟨1, 1⟩ rfl

/-- Nothing is wrong with a graph of one variable that is longer than a buffer can be, but it cannot
be compiled. -/
theorem compile_longVariable :
    let r := ofDescriptor
      { Descriptor.default with
        buffers := ⟨0x2000000000000000, [("x", ⟨0, 0x2000000000000000⟩)], by decide⟩ }
      ⟨fun _ => .ok .empty⟩
    r.compiled = none ∧ Compilable r.loader r.descriptor ∧
      (r.compile quiet).1 = .panic .capacityOverflow ∧ (r.compile quiet).1 ≠ .ok () := by
  intro r
  have hempty : (Layout.empty 0).Sound := ⟨nofun, fun p q hover => nomatch hover⟩
  have hfits : r.descriptor.buffers.Fits :=
    (Layout.validate_exact _ "variable").1.mp (by decide +kernel)
  have hlong : ¬ r.descriptor.buffers.SizesHeld := by decide +kernel
  have hoverflows : Overflows r.loader r.descriptor :=
    .buffers ⟨⟨_, rfl⟩, hempty, by decide +kernel⟩ hfits hlong
  have hpanic : (r.compile quiet).1 = .panic .capacityOverflow :=
    (compile_eq_panic_iff rfl quiet).mpr ⟨rfl, hoverflows⟩
  refine ⟨rfl, ⟨⟨_, rfl⟩, hempty, hfits, nofun, nofun⟩, hpanic, ?_⟩
  rw [hpanic]
  exact nofun

end Runner

end InferenceEngine
