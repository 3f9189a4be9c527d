import InferenceEngine.Proofs.Histories

/-!
# The life of a runner

A runner is compiled once, its weights are loaded at most once after that, and nothing else that
happens to it undoes either or changes what is in the weights or how long a variable is.

`Runner.Lived` is the invariant of a runner and the calls that were made on it. `Lived.act` is its
step, with a lemma for each of the three things that a call can do, and `Lived.after` carries it
along histories. `Runner.lifecycle` is what a caller sees of it.
-/

namespace InferenceEngine

namespace Runner

variable {r r' : Runner} {c c' : Compiled} {b : Bank} {data : Array Single}

/-! ## Calls that come too early or too late -/

/-- Before compiling, every call that needs a graph says so and does nothing. -/
theorem act_of_fresh (h : r.isCompiled = false) {a : Action} (ha : a.isEarly = false) :
    r.act a = (.error .notCompiled, r) := by
  rw [isCompiled, Option.isSome_eq_false_iff, Option.isNone_iff_eq_none] at h
  have hrequire : r.requireCompiled = .error .notCompiled := by
    rw [requireCompiled, h]
  have hstart (t : Thread) : r.start t = (.error .notCompiled, t) := by
    rw [start, h]
  cases a with
  | compile t => cases ha
  | equip options sink decoders => cases ha
  | loadWeights bytes t => rw [act, loadWeights, h]
  | loadWeightsFrom m t => rw [act, loadWeightsFrom, loadWeights, h]
  | run t => rw [act, run, hstart]
  | runAsync t => rw [act, runAsync_eq_run, run, hstart]
  | pass t steps ts => rw [act, hstart]
  | setInput name values => rw [act, setInput, hrequire, Outcome.error_bind]
  | useInputs body t => rw [act, inputViews, hrequire, Outcome.error_bind, useViews]
  | useOutputs body t => rw [act, outputViews, hrequire, Outcome.error_bind, useViews]
  | elementsOf name => rw [act, elementsOf, hrequire, Outcome.error_bind, Outcome.map]
  | weightOf name => rw [act, weightOf, hrequire, Outcome.error_bind, Outcome.map]

/-- After it, compiling again is refused, -/
theorem act_of_compiled (h : r.isCompiled = true) {a : Action} (ha : a.isCompile = true) :
    (r.act a).1 = .error .alreadyCompiled := by
  obtain ⟨c, hc⟩ := Option.isSome_iff_exists.mp h
  cases a with
  | compile t => rw [act, compile_of_compiled hc]
  | _ => cases ha

/-- and so is loading weights when they have been loaded. -/
theorem act_of_loaded (h : r.isCompiled = true) (hloaded : r.weightsLoaded = true) {a : Action}
    (ha : a.isLoad = true) : (r.act a).1 = .error .alreadyLoaded := by
  obtain ⟨c, hc⟩ := Option.isSome_iff_exists.mp h
  obtain ⟨bytes, hbytes⟩ := Option.isSome_iff_exists.mp ha
  obtain ⟨t, hact⟩ := act_of_bytes hbytes r
  rw [hact, loadWeights_of_loaded hc hloaded]

/-! ## What calls that keep a runner leave in it -/

namespace Kept

/-- What keeps the graph keeps whether there is one. -/
theorem isCompiled (h : r.Kept r') : r'.isCompiled = r.isCompiled := by
  obtain ⟨b, hb, -⟩ := h.compiled
  rw [Runner.isCompiled, hb, withBank, Option.isSome_map, Runner.isCompiled]

/-- No variable has changed its length. -/
theorem shape (h : r.Kept r') : r'.bank.shape = r.bank.shape := by
  obtain ⟨b, hb, hshape⟩ := h.compiled
  rw [bank, hb, withBank]
  rw [bank] at hshape ⊢
  cases hr : r.compiled with
  | none => rfl
  | some c =>
    rw [hr] at hshape
    exact hshape

/-- Neither have the weights, and their elements are the same. -/
theorem weightOf (h : r.Kept r') (name : String) : r'.weightOf name = r.weightOf name := by
  obtain ⟨b, hb, -⟩ := h.compiled
  rw [Runner.weightOf, Runner.weightOf, requireCompiled, requireCompiled, hb, withBank]
  cases r.compiled with
  | none => rfl
  | some c => rfl

/-- The graph is the same but for the elements of variables. -/
theorem of_compiled (h : r.Kept r') (hc : r'.compiled = some c') :
    ∃ c b, r.compiled = some c ∧ b.shape = c.buffers.bank.shape ∧
      c' = { c with buffers.bank := b } := by
  obtain ⟨b, hb, hshape⟩ := h.compiled
  cases hr : r.compiled with
  | none =>
    rw [hb, withBank, hr] at hc
    cases hc
  | some c =>
    rw [hb, withBank, hr] at hc
    rw [bank, hr] at hshape
    exact ⟨c, b, rfl, hshape, (Option.some.inj hc).symm⟩

/-- If a runner held something, then after a call that keeps the graph it holds the new elements
over the same layouts. -/
theorem holds (h : r.Kept r') (hr : r.Holds c b data) (hc' : r'.compiled = some c') :
    r'.Holds c c'.buffers.bank c'.weights.data := by
  obtain ⟨c₁, b', hc, hshape, rfl⟩ := h.of_compiled hc'
  obtain rfl : c.refill b data = c₁ := Option.some.inj (hr.compiled.symm.trans hc)
  refine ⟨?_, hc', hshape.trans hr.shape, hr.size⟩
  rw [h.descriptor, h.loader]
  exact hr.built

end Kept

/-! ## The invariant -/

/-- A runner that was made for `d` and `loader`, after the calls `vs`. -/
structure Lived (d : Descriptor) (loader : KernelLoader) (vs : List Event) (r : Runner) : Prop where
  /-- the graph is that of the beginning -/
  descriptor : r.descriptor = d
  /-- so is what turns the kernel source into entry points -/
  loader : r.loader = loader
  /-- the runner is compiled if a call has compiled it -/
  isCompiled_iff : r.isCompiled = true ↔ ∃ v ∈ vs, v.Does Action.isCompile
  /-- weights are loaded if a call has loaded them -/
  weightsLoaded_iff : r.weightsLoaded = true ↔ ∃ v ∈ vs, v.Does Action.isLoad
  /-- and then the runner is compiled -/
  compiled_of_loaded : r.weightsLoaded = true → r.isCompiled = true
  /-- after a call has compiled the runner, no other does -/
  compile_once : vs.Pairwise (Event.Bars Action.isCompile .alreadyCompiled)
  /-- after a call has loaded weights, no other does -/
  load_once : vs.Pairwise (Event.Bars Action.isLoad .alreadyLoaded)
  /-- a compiled runner holds what was made from its graph -/
  holds : ∀ c, r.compiled = some c → ∃ c₀, r.Holds c₀ c.buffers.bank c.weights.data
  /-- the weights are zero before they are loaded -/
  zero : ∀ c, r.compiled = some c → r.weightsLoaded = false →
    c.weights.data = Array.replicate d.weights.totalSize.toNat .zero
  /-- and afterwards what the decoder has made of the bytes -/
  filled : ∀ c, r.compiled = some c → r.weightsLoaded = true → ∃ v ∈ vs, v.Fills c.weights.data

/-- Something has happened by now if it had happened before, or has happened just now. -/
theorem exists_mem_concat {P : Event → Prop} {vs : List Event} {w : Event} :
    (∃ v ∈ vs ++ [w], P v) ↔ (∃ v ∈ vs, P v) ∨ P w := by
  simp [or_and_right, exists_or]

theorem exists_mem_concat_of_not {P : Event → Prop} {vs : List Event} {w : Event} (h : ¬ P w) :
    (∃ v ∈ vs ++ [w], P v) ↔ ∃ v ∈ vs, P v := exists_mem_concat.trans (or_iff_left h)

/-- A call that comes after one that bars it is refused, so what is done once is not done again. -/
theorem pairwise_bars_concat {asks : Action → Bool} {f : Failure} {vs : List Event} {a : Action}
    (h : vs.Pairwise (Event.Bars asks f))
    (hlate : (∃ v ∈ vs, v.Does asks) → asks a = true → (r.act a).1 = .error f) :
    List.Pairwise (Event.Bars asks f) (vs ++ [⟨r, a⟩]) := by
  refine List.pairwise_append.mpr ⟨h, List.pairwise_singleton _ _, ?_⟩
  intro v hv w hw hdoes ha
  obtain rfl := List.mem_singleton.mp hw
  exact hlate ⟨v, hv, hdoes⟩ ha

namespace Lived

variable {d : Descriptor} {loader : KernelLoader} {vs : List Event} {a : Action}

/-- A new runner has no history, and nothing is compiled or loaded. -/
theorem new (d : Descriptor) (loader : KernelLoader) :
    Lived d loader [] (ofDescriptor d loader) where
  descriptor := rfl
  loader := rfl
  isCompiled_iff := ⟨nofun, fun ⟨_, hv, _⟩ => nomatch hv⟩
  weightsLoaded_iff := ⟨nofun, fun ⟨_, hv, _⟩ => nomatch hv⟩
  compiled_of_loaded := nofun
  compile_once := .nil
  load_once := .nil
  holds := nofun
  zero := nofun
  filled := nofun

/-- A call that follows a successful compiling is told that it comes too late, -/
theorem compile_once_concat (h : Lived d loader vs r) (a : Action) :
    List.Pairwise (Event.Bars Action.isCompile .alreadyCompiled) (vs ++ [⟨r, a⟩]) :=
  pairwise_bars_concat h.compile_once fun hdone => act_of_compiled (h.isCompiled_iff.mpr hdone)

/-- and so is one that follows a successful loading. -/
theorem load_once_concat (h : Lived d loader vs r) (a : Action) :
    List.Pairwise (Event.Bars Action.isLoad .alreadyLoaded) (vs ++ [⟨r, a⟩]) :=
  pairwise_bars_concat h.load_once fun hdone =>
    have hloaded := h.weightsLoaded_iff.mpr hdone
    act_of_loaded (h.compiled_of_loaded hloaded) hloaded

/-- A call that compiles. -/
theorem compiles (h : Lived d loader vs r) (ha : a.isCompile = true) (hnone : r.compiled = none)
    (hbuild : build r.loader r.descriptor = .ok c)
    (hact : r.act a = (.ok (), { r with compiled := some c })) :
    Lived d loader (vs ++ [⟨r, a⟩]) (r.act a).2 := by
  have hload : a.isLoad = false := by
    cases a with
    | compile t => rfl
    | _ => cases ha
  -- weights are loaded into a graph, so without one there are none
  have hloaded : r.weightsLoaded = false := by
    cases hloaded : r.weightsLoaded with
    | false => rfl
    | true =>
      have hcompiled := h.compiled_of_loaded hloaded
      rw [isCompiled, hnone] at hcompiled
      cases hcompiled
  rw [hact]
  exact {
    descriptor := h.descriptor
    loader := h.loader
    isCompiled_iff :=
      ⟨fun _ => exists_mem_concat.mpr (.inr ⟨ha, congrArg Prod.fst hact⟩), fun _ => rfl⟩
    weightsLoaded_iff := by
      rw [exists_mem_concat_of_not fun hdoes => Bool.false_ne_true (hload.symm.trans hdoes.1)]
      exact h.weightsLoaded_iff
    compiled_of_loaded := fun _ => rfl
    compile_once := h.compile_once_concat a
    load_once := h.load_once_concat a
    holds := by
      intro c' hc'
      obtain rfl := Option.some.inj hc'
      exact ⟨c, hbuild, rfl, rfl, rfl⟩
    zero := by
      intro c' hc' _
      obtain rfl := Option.some.inj hc'
      obtain ⟨-, -, hblank⟩ := Weights.allocate_eq_ok.mp (build_spec hbuild).2.1
      rw [hblank, h.descriptor]
      rfl
    filled := fun _ _ hloaded' => absurd hloaded' (ne_true_of_eq_false hloaded) }

/-- A call that loads weights. -/
theorem loads (h : Lived d loader vs r) {bytes : Bytes} {values : List Single}
    (ha : a.bytes? = some bytes) (hc : r.compiled = some c)
    (hdecoded : r.decoded bytes = .ok values) (hsize : values.length = c.weights.data.size)
    (hact : r.act a = (.ok (), { r with compiled := some { c with weights.data := values.toArray },
                                        weightsLoaded := true })) :
    Lived d loader (vs ++ [⟨r, a⟩]) (r.act a).2 := by
  have hcompiled : r.isCompiled = true := by
    rw [isCompiled, hc]
    rfl
  have hok : Event.outcome ⟨r, a⟩ = .ok () := congrArg Prod.fst hact
  have hload : a.isLoad = true := by
    rw [Action.isLoad, ha]
    rfl
  rw [hact]
  exact {
    descriptor := h.descriptor
    loader := h.loader
    isCompiled_iff :=
      ⟨fun _ => exists_mem_concat.mpr (.inl (h.isCompiled_iff.mp hcompiled)), fun _ => rfl⟩
    weightsLoaded_iff := ⟨fun _ => exists_mem_concat.mpr (.inr ⟨hload, hok⟩), fun _ => rfl⟩
    compiled_of_loaded := fun _ => rfl
    compile_once := h.compile_once_concat a
    load_once := h.load_once_concat a
    holds := by
      intro c' hc'
      obtain rfl := Option.some.inj hc'
      -- the graph that was built stays the same under the new data, which has the size of the old
      obtain ⟨c₀, hholds⟩ := h.holds c hc
      have hrefill := Option.some.inj (hc.symm.trans hholds.compiled)
      refine ⟨c₀, hholds.built, ?_, hholds.shape, hsize.trans hholds.size⟩
      rw [hrefill]
      rfl
    zero := by simp
    filled := by
      intro c' hc' _
      obtain rfl := Option.some.inj hc'
      exact exists_mem_concat.mpr (.inr ⟨hok, bytes, values, ha, hdecoded, rfl⟩) }

/-- A call that does neither. -/
theorem keeps (h : Lived d loader vs r) (hkept : r.Kept (r.act a).2)
    (hneither : a.isCompile = true ∨ a.isLoad = true → (r.act a).1 ≠ .ok ()) :
    Lived d loader (vs ++ [⟨r, a⟩]) (r.act a).2 := by
  have hcompiled := hkept.isCompiled
  have hloaded := hkept.weightsLoaded
  exact {
    descriptor := hkept.descriptor.trans h.descriptor
    loader := hkept.loader.trans h.loader
    isCompiled_iff := by
      rw [hcompiled, exists_mem_concat_of_not fun hdoes => hneither (.inl hdoes.1) hdoes.2]
      exact h.isCompiled_iff
    weightsLoaded_iff := by
      rw [hloaded, exists_mem_concat_of_not fun hdoes => hneither (.inr hdoes.1) hdoes.2]
      exact h.weightsLoaded_iff
    compiled_of_loaded := by
      rw [hcompiled, hloaded]
      exact h.compiled_of_loaded
    compile_once := h.compile_once_concat a
    load_once := h.load_once_concat a
    holds := by
      intro c' hc'
      -- what is compiled now was compiled before, with another bank at most
      obtain ⟨c, b, hc, -, -⟩ := hkept.of_compiled hc'
      obtain ⟨c₀, hholds⟩ := h.holds c hc
      exact ⟨c₀, hkept.holds hholds hc'⟩
    zero := by
      intro c' hc' hloaded'
      obtain ⟨c, b, hc, -, rfl⟩ := hkept.of_compiled hc'
      exact h.zero c hc (hloaded.symm.trans hloaded')
    filled := by
      intro c' hc' hloaded'
      obtain ⟨c, b, hc, -, rfl⟩ := hkept.of_compiled hc'
      exact exists_mem_concat.mpr (.inl (h.filled c hc (hloaded.symm.trans hloaded'))) }

/-- **What one call preserves.** -/
theorem act (h : Lived d loader vs r) (a : Action) :
    Lived d loader (vs ++ [⟨r, a⟩]) (r.act a).2 := by
  rcases act_cases r a with ⟨ha, hnone, c, hbuild, hact⟩ |
    ⟨-, bytes, c, values, ha, hc, hdecoded, hsize, hact⟩ | ⟨hkept, hneither⟩
  · exact h.compiles ha hnone hbuild hact
  · exact h.loads ha hc hdecoded hsize hact
  · exact h.keeps hkept hneither

/-- **What a history preserves.** -/
theorem after (h : Lived d loader vs r) (acts : List Action) :
    Lived d loader (vs ++ r.record acts) (r.after acts) := by
  induction acts generalizing vs r with
  | nil =>
    rw [record, List.append_nil]
    exact h
  | cons a rest ih =>
    have hrest := ih (h.act a)
    rw [List.append_assoc] at hrest
    exact hrest

end Lived

/-! ## What a caller sees -/

/-- The variables of a compiled runner have the sizes of their regions. -/
theorem shape_of_holds (h : r.Holds c b data) :
    b.shape = r.descriptor.buffers.regions.values.map fun region => region.size.toNat := by
  obtain ⟨-, -, hbuffers, -⟩ := build_spec h.built
  exact h.shape.trans (Variables.allocate_spec hbuffers).2

/-- Every declared variable of a compiled runner has as many elements as its layout says. -/
theorem elementsOf_of_get? (h : r.Holds c b data) {name : String} {region : Region}
    (hget : r.descriptor.buffers.get? name = some region) :
    ∃ xs, r.elementsOf name = .ok xs ∧ xs.length = region.size.toNat := by
  rw [elementsOf_eq h, Tables.elements, Tables.buffer?, hget, Option.bind_some]
  rw [Layout.get?, NameMap.get?] at hget
  rcases lookup_cases r.descriptor.buffers.regions.entries name with
    ⟨-, hnone⟩ | ⟨place, region', hplace, hentry, hsome⟩
  · rw [hnone] at hget
    cases hget
  · obtain rfl := Option.some.inj (hsome.symm.trans hget)
    have hsize : b.shape[place]? = some region'.size.toNat := by
      rw [shape_of_holds h, NameMap.values, List.getElem?_map, List.getElem?_map, hentry]
      rfl
    rw [NameMap.names, hplace]
    refine ⟨_, rfl, ?_⟩
    rw [Bank.shape, List.getElem?_map] at hsize
    obtain ⟨buffer, hbuffer, hlength⟩ := Option.map_eq_some_iff.mp hsize
    rw [View.elements, Bank.elements, hbuffer]
    exact hlength

/-- **The life of a runner.** Let any calls be made on a new runner, with any arguments, whatever
fails in between.

After a call has compiled the runner, further ones for compiling are refused, and after a call has
loaded weights, further ones for loading are refused whatever they offer. The runner is compiled, and
its weights loaded, just if a call has done so; before it is compiled everything else is refused and
changes nothing. Once it is compiled, its weights have the declared number of elements, which are zero
as long as none are loaded and from then on what the decoder has made of the bytes of the call that has
loaded them; every variable has the declared number of elements; and at any moment of a pass the
weights are the same and the variables as long. -/
theorem lifecycle (d : Descriptor) (loader : KernelLoader) (acts : List Action) :
    let r := (ofDescriptor d loader).after acts
    let vs := (ofDescriptor d loader).record acts
    vs.Pairwise (Event.Bars Action.isCompile .alreadyCompiled) ∧
      vs.Pairwise (Event.Bars Action.isLoad .alreadyLoaded) ∧
      (r.isCompiled = true ↔ ∃ v ∈ vs, v.Does Action.isCompile) ∧
      (r.weightsLoaded = true ↔ ∃ v ∈ vs, v.Does Action.isLoad) ∧
      (r.isCompiled = false → ∀ a : Action, a.isEarly = false →
        r.act a = (.error .notCompiled, r)) ∧
      ∀ c, r.compiled = some c →
        c.weights.totalSize = d.weights.totalSize.toNat ∧
        (r.weightsLoaded = false →
          c.weights.data = Array.replicate d.weights.totalSize.toNat .zero) ∧
        (r.weightsLoaded = true → ∃ v ∈ vs, v.Fills c.weights.data) ∧
        (∀ name region, d.buffers.get? name = some region →
          ∃ xs, r.elementsOf name = .ok xs ∧ xs.length = region.size.toNat) ∧
        ∀ t e t₀, r.start t = (.ok e, t₀) → ∀ ts k,
          (e.after ts k).compiled.weights = c.weights ∧
            (e.after ts k).bank.shape =
              d.buffers.regions.values.map fun region => region.size.toNat := by
  intro r vs
  have h : Lived d loader vs r := (Lived.new d loader).after acts
  refine ⟨h.compile_once, h.load_once, h.isCompiled_iff, h.weightsLoaded_iff,
    fun hfresh a ha => act_of_fresh hfresh ha, fun c hc => ?_⟩
  obtain ⟨c₀, hholds⟩ := h.holds c hc
  have hshape := shape_of_holds hholds
  rw [h.descriptor] at hshape
  refine ⟨?_, h.zero c hc, h.filled c hc, fun name region hget => ?_, fun t e t₀ hstart ts k => ?_⟩
  · -- the weights were made in the declared size, and only others of that size are put in
    obtain ⟨-, hweights, -, -⟩ := build_spec hholds.built
    rw [← h.descriptor]
    exact hholds.size.trans (Weights.allocate_spec hweights).2.2.2
  · rw [← h.descriptor] at hget
    exact elementsOf_of_get? hholds hget
  · obtain ⟨hcompiled, -⟩ := poised_of_start hstart
    obtain rfl : c = e.compiled := Option.some.inj (hc.symm.trans hcompiled)
    -- a pass works on the graph of the runner that started it, whatever steps it takes
    have honward := Execution.Onward.after e ts k
    refine ⟨?_, honward.shape.trans hshape⟩
    rw [honward.same.compiled]

end Runner

end InferenceEngine
