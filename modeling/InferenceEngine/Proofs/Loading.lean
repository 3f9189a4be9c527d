import InferenceEngine.Proofs.Lifecycle

/-!
# Loading weights

The bytes of a weight file go through a chain of steps that can each refuse them, and what comes out
fills one buffer that every weight is a window of. `Runner.loading_exact` is the main statement: a
runner loads weights all or nothing, it refuses with the first fault of the chain, and what it has
loaded is what every window shows from then on, by name and to the kernels.

* `Layout.sum_sizes_le` — regions that do not meet are no larger together than the buffer. The spans
  of the regions in order of position are taken one after the other, each behind the ones before it.
* `Runner.load_iff` — how loading ends is decided by the chain alone.
* `Runner.holds_after_loaded` — what is loaded stays, whatever is done with the runner.
-/

namespace InferenceEngine

/-! ## Regions of a sequence -/

namespace Region

variable {α : Type} {r : Region} {xs ys : List α}

/-- The part of a sequence that lies in the region. -/
def slice (r : Region) (xs : List α) : List α := (xs.drop r.offset.toNat).take r.size.toNat

/-- A window of decoded weights is the slice of the list of them that is between its ends. -/
theorem extract_toArray (r : Region) (xs : List α) :
    xs.toArray.extract r.start r.stop = (r.slice xs).toArray := by
  rw [List.extract_toArray, List.extract_eq_take_drop, slice, start, stop, Nat.add_sub_cancel_left]

/-- What lies in a region depends on nothing outside of it. -/
theorem slice_congr (h : ∀ x, r.Covers x → xs[x]? = ys[x]?) : r.slice xs = r.slice ys := by
  apply List.ext_getElem?
  intro j
  rw [slice, slice, List.getElem?_take, List.getElem?_take, List.getElem?_drop, List.getElem?_drop]
  by_cases hj : j < r.size.toNat
  · rw [if_pos hj, if_pos hj]
    exact h _ ⟨Nat.le_add_right _ _, Nat.add_lt_add_left hj _⟩
  · rw [if_neg hj, if_neg hj]

end Region

namespace Layout

variable {l : Layout} {table : String}

/-- A layout that passes the check fits, and no two of its regions overlap. -/
theorem checked_of_validate (h : l.validate table = .ok ()) :
    l.Fits ∧ ∀ p q, ¬ l.Overlap p q := by
  obtain ⟨name, r, -, -, hcheck⟩ | ⟨hfits, -, hno, -⟩ | ⟨-, -, p, q, -, hcheck⟩ := check_cases l
  · rw [validate, hcheck] at h
    cases h
  · exact ⟨hfits, hno⟩
  · rw [validate, hcheck] at h
    cases h

/-- Regions of different names have no position in common, empty ones having none at all. -/
theorem not_meets (h : l.validate table = .ok ()) {p q : String} {r s : Region} (hpq : p ≠ q)
    (hr : l.get? p = some r) (hs : l.get? q = some s) : ¬ r.Meets s := by
  rintro ⟨x, hrx, hsx⟩
  have hpos {region : Region} (hx : region.Covers x) : 0 < region.size.toNat := by
    obtain ⟨hstart, hstop⟩ := hx
    omega
  exact (checked_of_validate h).2 p q ⟨hpq, r, s, hr, hs, hpos hrx, hpos hsx, x, hrx, hsx⟩

/-- Spans that lie one behind the other between two positions fit in between. -/
theorem sum_lengths_le {ss : List Span} {low high : Nat} (hlow : low ≤ high)
    (hsep : ss.Pairwise fun a b => a.stop ≤ b.start)
    (hin : ∀ s ∈ ss, low ≤ s.start ∧ s.start ≤ s.stop ∧ s.stop ≤ high) :
    low + (ss.map fun s => s.stop - s.start).sum ≤ high := by
  induction ss generalizing low with
  | nil => exact hlow
  | cons s ss ih =>
    obtain ⟨hs, hss⟩ := List.forall_mem_cons.mp hin
    obtain ⟨hbehind, hsep⟩ := List.pairwise_cons.mp hsep
    -- the others lie behind the end of the first one
    have hrest := ih hs.2.2 hsep fun s' hs' => ⟨hbehind s' hs', (hss s' hs').2⟩
    rw [List.map_cons, List.sum_cons]
    omega

/-- Empty regions add nothing, so the sizes may be summed up in order of position. -/
theorem sum_placed (l : Layout) :
    (l.placed.map fun s => s.stop - s.start).sum =
      (l.regions.values.map fun r => r.size.toNat).sum := by
  have hperm : l.placed.Perm ((l.regions.entries.map spanOf).filter fun s => s.start < s.stop) :=
    List.mergeSort_perm _ _
  rw [(hperm.map _).sum_nat, NameMap.values, List.map_map]
  generalize l.regions.entries = entries
  induction entries with
  | nil => rfl
  | cons e entries ih =>
    have hsize : (spanOf e).stop - (spanOf e).start = e.2.size.toNat :=
      Nat.add_sub_cancel_left _ _
    rw [List.map_cons, List.map_cons, List.sum_cons, List.filter_cons]
    split
    · rw [List.map_cons, List.sum_cons, ih, hsize]
      rfl
    · rename_i hempty
      -- a region that is left out has no size to add
      have hzero : e.2.size.toNat = 0 := by
        rw [decide_eq_true_eq] at hempty
        omega
      rw [ih]
      change _ = e.2.size.toNat + _
      rw [hzero, Nat.zero_add]

/-- **Regions that do not meet are together no larger than the buffer.** -/
theorem sum_sizes_le (h : l.validate table = .ok ()) :
    (l.regions.values.map fun r => r.size.toNat).sum ≤ l.totalSize.toNat := by
  obtain ⟨hfits, hno⟩ := checked_of_validate h
  have hnone : collision? l.placed = none := by
    cases hcollision : collision? l.placed with
    | none => rfl
    | some pair => exact absurd (overlap_of_collision hcollision) (hno _ _)
  have hin : ∀ s ∈ l.placed, 0 ≤ s.start ∧ s.start ≤ s.stop ∧ s.stop ≤ l.totalSize.toNat := by
    intro s hs
    obtain ⟨r, hget, hspan, -⟩ := mem_placed.mp hs
    refine ⟨Nat.zero_le _, Nat.le_of_lt (nonempty_of_mem_placed hs), ?_⟩
    rw [hspan]
    exact hfits _ r hget
  have hsep := separated_of_collision?_none (fun s => nonempty_of_mem_placed) hnone
  have hsum := sum_lengths_le (Nat.zero_le _) hsep hin
  rwa [sum_placed, Nat.zero_add] at hsum

end Layout

theorem Weights.validate_of_allocate {l : Layout} {w : Weights} (h : allocate l = .ok w) :
    l.validate "weight" = .ok () := by
  rw [allocate] at h
  cases hvalid : l.validate "weight" with
  | error f =>
    rw [hvalid] at h
    cases h
  | ok _ => rfl

/-! ## Loading -/

namespace Runner

open Execution

variable {r : Runner} {c : Compiled} {b : Bank} {data : Array Single} {bytes : Bytes}
  {values : List Single} {f : Failure}

/-- The encoding of the weights has a decoder, and this is what it makes of bytes. -/
def Decodes (r : Runner) (bytes : Bytes) (o : Outcome (List Single)) : Prop :=
  ∃ decoder, r.registry.decoders.get? r.descriptor.encoding = some decoder ∧
    decoder bytes r.descriptor.weights = o

/-- No weights are loaded, and the decoder makes as many values of the bytes as the weights have
elements. -/
def Accepts (r : Runner) (bytes : Bytes) (values : List Single) : Prop :=
  r.weightsLoaded = false ∧ r.Decodes bytes (.ok values) ∧
    values.length = r.descriptor.weights.totalSize.toNat

/-- The first fault of the chain. -/
inductive Refuses (r : Runner) (bytes : Bytes) : Failure → Prop
  /-- weights are loaded -/
  | loaded (h : r.weightsLoaded = true) : Refuses r bytes .alreadyLoaded
  /-- if not, the encoding has no decoder -/
  | unsupported (h : r.weightsLoaded = false)
    (hfind : r.registry.decoders.get? r.descriptor.encoding = none) :
    Refuses r bytes (.unsupportedEncoding r.descriptor.encoding)
  /-- if it has, the decoder refuses the bytes -/
  | decoder {f : Failure} (h : r.weightsLoaded = false) (hdecodes : r.Decodes bytes (.error f)) :
    Refuses r bytes f
  /-- if it does not, it makes another number of values than the weights have elements -/
  | misfit {values : List Single} (h : r.weightsLoaded = false)
    (hdecodes : r.Decodes bytes (.ok values))
    (hlength : values.length ≠ r.descriptor.weights.totalSize.toNat) :
    Refuses r bytes (.decode (.misfit values.length r.descriptor.weights.totalSize.toNat))

/-- Bytes are accepted, or there is a first fault, or the decoder breaks off. -/
theorem accepts_or_refuses (r : Runner) (bytes : Bytes) :
    (∃ values, r.Accepts bytes values) ∨ (∃ f, r.Refuses bytes f) ∨
      ∃ p, r.weightsLoaded = false ∧ r.Decodes bytes (.panic p) := by
  cases hloaded : r.weightsLoaded with
  | true => exact .inr (.inl ⟨_, .loaded hloaded⟩)
  | false =>
    cases hfind : r.registry.decoders.get? r.descriptor.encoding with
    | none => exact .inr (.inl ⟨_, .unsupported hloaded hfind⟩)
    | some decoder =>
      cases hdecode : decoder bytes r.descriptor.weights with
      | error f => exact .inr (.inl ⟨f, .decoder hloaded ⟨decoder, hfind, hdecode⟩⟩)
      | panic p => exact .inr (.inr ⟨p, rfl, decoder, hfind, hdecode⟩)
      | ok values =>
        by_cases hlength : values.length = r.descriptor.weights.totalSize.toNat
        · exact .inl ⟨values, hloaded, ⟨decoder, hfind, hdecode⟩, hlength⟩
        · exact .inr (.inl ⟨_, .misfit hloaded ⟨decoder, hfind, hdecode⟩ hlength⟩)

/-- The buffer of the weights has the length that the layout asks for. -/
theorem totalSize_of_holds (h : r.Holds c b data) :
    data.size = r.descriptor.weights.totalSize.toNat := by
  obtain ⟨-, hweights, -, -⟩ := build_spec h.built
  exact h.size.trans (Weights.allocate_spec hweights).2.2.2

/-- What a decoder has made of bytes goes into the buffer. -/
theorem load_of_decodes (h : r.Holds c b data) (hloaded : r.weightsLoaded = false)
    {o : Outcome (List Single)} (hdecodes : r.Decodes bytes o) (t : Thread) :
    ∃ t', r.loadWeights bytes t =
      match o with
      | .error f => (.error f, r, t')
      | .panic p => (.panic p, r, t')
      | .ok values =>
        if values.length = r.descriptor.weights.totalSize.toNat then
          (.ok (), { r with compiled := some (c.refill b values.toArray), weightsLoaded := true }, t')
        else
          (.error (.decode (.misfit values.length r.descriptor.weights.totalSize.toNat)), r, t') := by
  obtain ⟨decoder, hfind, hdecode⟩ := hdecodes
  have hsize : (c.refill b data).weights.data.size = r.descriptor.weights.totalSize.toNat :=
    totalSize_of_holds h
  rw [loadWeights, h.compiled]
  dsimp only
  rw [hloaded, if_neg Bool.false_ne_true, DecoderRegistry.find, hfind]
  dsimp only
  rw [decodeWeights, hdecode]
  refine ⟨t.emit .trace (decodingText bytes r.descriptor.encoding), ?_⟩
  cases o with
  | error f => rfl
  | panic p => rfl
  | ok values =>
    dsimp only
    -- the decoder has its say first, and the length is checked by the buffer
    rw [Weights.fill, hsize]
    by_cases hlength : values.length = r.descriptor.weights.totalSize.toNat
    · rw [if_pos hlength, if_pos hlength]
      rfl
    · rw [if_neg hlength, if_neg hlength]
      rfl

/-- The runner with a sequence in its weights. -/
def filled (r : Runner) (c : Compiled) (b : Bank) (values : List Single) : Runner :=
  { r with compiled := some (c.refill b values.toArray), weightsLoaded := true }

/-- A runner that accepts weights holds them afterwards. -/
theorem holds_filled (h : r.Holds c b data) (haccepts : r.Accepts bytes values) :
    (r.filled c b values).Holds c b values.toArray := by
  refine ⟨h.built, rfl, h.shape, ?_⟩
  rw [← h.size, totalSize_of_holds h]
  exact haccepts.2.2

/-- Accepted bytes fill the weights and change nothing else. -/
theorem load_of_accepts (h : r.Holds c b data) (haccepts : r.Accepts bytes values) (t : Thread) :
    (r.loadWeights bytes t).1 = .ok () ∧ (r.loadWeights bytes t).2.1 = r.filled c b values := by
  obtain ⟨hloaded, hdecodes, hlength⟩ := haccepts
  obtain ⟨t', hload⟩ := load_of_decodes h hloaded hdecodes t
  rw [hload]
  dsimp only
  rw [if_pos hlength]
  exact ⟨rfl, rfl⟩

/-- The first fault is the failure, and changes nothing. -/
theorem load_of_refuses (h : r.Holds c b data) (hrefuses : r.Refuses bytes f) (t : Thread) :
    (r.loadWeights bytes t).1 = .error f ∧ (r.loadWeights bytes t).2.1 = r := by
  cases hrefuses with
  | loaded hloaded =>
    rw [loadWeights_of_loaded h.compiled hloaded]
    exact ⟨rfl, rfl⟩
  | unsupported hloaded hfind =>
    rw [loadWeights, h.compiled]
    dsimp only
    rw [hloaded, if_neg Bool.false_ne_true, DecoderRegistry.find, hfind]
    exact ⟨rfl, rfl⟩
  | decoder hloaded hdecodes =>
    obtain ⟨t', hload⟩ := load_of_decodes h hloaded hdecodes t
    rw [hload]
    exact ⟨rfl, rfl⟩
  | misfit hloaded hdecodes hlength =>
    obtain ⟨t', hload⟩ := load_of_decodes h hloaded hdecodes t
    rw [hload]
    dsimp only
    rw [if_neg hlength]
    exact ⟨rfl, rfl⟩

/-- A decoder that breaks off changes nothing. -/
theorem load_of_panic (h : r.Holds c b data) (hloaded : r.weightsLoaded = false) {p : Panic}
    (hdecodes : r.Decodes bytes (.panic p)) (t : Thread) :
    (r.loadWeights bytes t).1 = .panic p ∧ (r.loadWeights bytes t).2.1 = r := by
  obtain ⟨t', hload⟩ := load_of_decodes h hloaded hdecodes t
  rw [hload]
  exact ⟨rfl, rfl⟩

/-- **How loading ends** is decided by the chain alone. -/
theorem load_iff (h : r.Holds c b data) (bytes : Bytes) (t : Thread) :
    ((r.loadWeights bytes t).1 = .ok () ↔ ∃ values, r.Accepts bytes values) ∧
    (∀ f, (r.loadWeights bytes t).1 = .error f ↔ r.Refuses bytes f) ∧
    (∀ p, (r.loadWeights bytes t).1 = .panic p ↔
      r.weightsLoaded = false ∧ r.Decodes bytes (.panic p)) ∧
    ((r.loadWeights bytes t).1 ≠ .ok () → (r.loadWeights bytes t).2.1 = r) := by
  have haccept : (∃ values, r.Accepts bytes values) → (r.loadWeights bytes t).1 = .ok () := by
    rintro ⟨values, haccepts⟩
    exact (load_of_accepts h haccepts t).1
  have hrefuse : ∀ f, r.Refuses bytes f → (r.loadWeights bytes t).1 = .error f :=
    fun f hrefuses => (load_of_refuses h hrefuses t).1
  have hpanic : ∀ p, r.weightsLoaded = false ∧ r.Decodes bytes (.panic p) →
      (r.loadWeights bytes t).1 = .panic p := by
    rintro p ⟨hloaded, hdecodes⟩
    exact (load_of_panic h hloaded hdecodes t).1
  -- one of the three ends holds, and each of them rules out that loading ends like another
  obtain ⟨values, haccepts⟩ | ⟨f, hrefuses⟩ | ⟨p, hloaded, hdecodes⟩ := accepts_or_refuses r bytes
  · have ho := haccept ⟨values, haccepts⟩
    refine ⟨⟨fun _ => ⟨values, haccepts⟩, haccept⟩, fun f => ⟨fun hf => ?_, hrefuse f⟩,
      fun p => ⟨fun hp => ?_, hpanic p⟩, fun hne => absurd ho hne⟩
    · cases ho.symm.trans hf
    · cases ho.symm.trans hp
  · obtain ⟨ho, hr⟩ := load_of_refuses h hrefuses t
    refine ⟨⟨fun hok => ?_, haccept⟩, fun f' => ⟨fun hf => ?_, hrefuse f'⟩,
      fun p => ⟨fun hp => ?_, hpanic p⟩, fun _ => hr⟩
    · cases ho.symm.trans hok
    · obtain rfl := Outcome.error.inj (ho.symm.trans hf)
      exact hrefuses
    · cases ho.symm.trans hp
  · obtain ⟨ho, hr⟩ := load_of_panic h hloaded hdecodes t
    refine ⟨⟨fun hok => ?_, haccept⟩, fun f => ⟨fun hf => ?_, hrefuse f⟩,
      fun p' => ⟨fun hp => ?_, hpanic p'⟩, fun _ => hr⟩
    · cases ho.symm.trans hok
    · cases ho.symm.trans hf
    · obtain rfl := Outcome.panic.inj (ho.symm.trans hp)
      exact ⟨hloaded, hdecodes⟩

/-! ## What is loaded stays -/

/-- What two calls keep, they keep one after the other. -/
theorem Kept.trans {r₁ r₂ r₃ : Runner} (h : r₁.Kept r₂) (h' : r₂.Kept r₃) : r₁.Kept r₃ := by
  obtain ⟨b₂, hb₂, hshape₂⟩ := h.compiled
  obtain ⟨b₃, hb₃, hshape₃⟩ := h'.compiled
  refine ⟨h'.descriptor.trans h.descriptor, h'.loader.trans h.loader,
    h'.weightsLoaded.trans h.weightsLoaded, b₃, ?_, ?_⟩
  · rw [hb₃, withBank, hb₂, withBank, withBank, Option.map_map]
    rfl
  · rw [hshape₃, bank, hb₂, withBank, bank]
    cases hc : r₁.compiled with
    | none => rfl
    | some c =>
      rw [bank, hc] at hshape₂
      exact hshape₂

/-- Once weights are loaded, no call does more than change settings, events and the elements of
variables. -/
theorem kept_after_loaded {acts : List Action} (hc : r.isCompiled = true)
    (hloaded : r.weightsLoaded = true) : r.Kept (r.after acts) := by
  induction acts generalizing r with
  | nil => exact Kept.refl r
  | cons a rest ih =>
    have hkept : r.Kept (r.act a).2 := by
      obtain ⟨-, hnone, -⟩ | ⟨hnot, -⟩ | ⟨hkept, -⟩ := act_cases r a
      · rw [isCompiled, hnone] at hc
        cases hc
      · rw [hloaded] at hnot
        cases hnot
      · exact hkept
    have hrest := ih (hkept.isCompiled.trans hc) (hkept.weightsLoaded.trans hloaded)
    exact hkept.trans hrest

/-- Loaded weights are never replaced: whatever is called later, the runner holds the same. -/
theorem holds_after_loaded (h : r.Holds c b data) (hloaded : r.weightsLoaded = true)
    (acts : List Action) :
    ∃ b', (r.after acts).Holds c b' data ∧ (r.after acts).descriptor = r.descriptor := by
  have hcompiled : r.isCompiled = true := by
    rw [isCompiled, h.compiled]
    rfl
  have hkept : r.Kept (r.after acts) := kept_after_loaded hcompiled hloaded
  obtain ⟨c', hc'⟩ := Option.isSome_iff_exists.mp (hkept.isCompiled.trans hcompiled)
  obtain ⟨c₁, b', hc₁, -, rfl⟩ := hkept.of_compiled hc'
  obtain rfl := Option.some.inj (h.compiled.symm.trans hc₁)
  exact ⟨_, hkept.holds h hc', hkept.descriptor⟩

/-! ## What windows show -/

/-- Every weight of a graph shows its region of a sequence: by its name, and to every kernel that is
called for an instruction with the weight, whichever way a pass has got there. -/
structure Shows (r : Runner) (d : Descriptor) (values : List Single) : Prop where
  /-- by name -/
  named : ∀ name region, d.weights.get? name = some region →
    r.weightOf name = .ok (region.slice values).toArray
  /-- to kernels -/
  handed : ∀ t e t₀, r.start t = (.ok e, t₀) → ∀ ts k t' call b',
    (e.after ts k).callAt t' = some (call, b') →
      ∃ i, d.instructions[(e.after ts k).position]? = some i ∧
        List.Forall₂ (fun name window => ∃ region, d.weights.get? name = some region ∧
          window = (region.slice values).toArray) i.weights call.args.weights

/-- Asking for a weight gives what stands between the ends of its region. -/
theorem weightOf_eq (h : r.Holds c b data) {name : String} {region : Region}
    (hget : r.descriptor.weights.get? name = some region) :
    r.weightOf name = .ok (data.extract region.start region.stop) := by
  have hserves := Compiled.serves_refill h.built h.shape h.size
  have hweight := hserves.weight name
  rw [Tables.weight?, hget] at hweight
  rw [weightOf, requireCompiled, h.compiled]
  dsimp only
  rw [Outcome.ok_bind]
  obtain ⟨-, hnone⟩ | ⟨place, x, hhandle, hview, hsome⟩ := hweight
  · cases hnone
  · obtain rfl := Option.some.inj hsome
    rw [hhandle, requireHandle, Outcome.ok_bind, hview]

theorem shows_of_holds (h : r.Holds c b values.toArray) : r.Shows r.descriptor values where
  named name region hget := by rw [weightOf_eq h hget, Region.extract_toArray]
  handed t e t₀ hstart ts k t' call b' hcall := by
    obtain ⟨e', t₁, hstart', -, -, hinstructions, hruns⟩ := start_spec h t
    obtain rfl : e = e' := Except.ok.inj (Prod.mk.inj (hstart.symm.trans hstart')).1
    have honward := Onward.after e ts k
    have hlater := hruns.of_samePass honward.same honward.shape
    obtain ⟨-, -, i, hprep⟩ := callAt_eq_some.mp hcall
    obtain ⟨hi, hmade⟩ := hlater.call_of_prepare hprep
    rw [honward.same.instructions, hinstructions] at hi
    obtain ⟨-, -, hweights, -⟩ := Tables.call_eq_ok hmade
    refine ⟨i, hi, (forall₂_of_lookupAll hweights).imp ?_⟩
    intro name window hwindow
    obtain ⟨region, hget, rfl⟩ := Option.map_eq_some_iff.mp hwindow
    exact ⟨region, hget, Region.extract_toArray region values⟩

/-- **Loading weights is all or nothing, and lands in every window.** Let a runner be compiled, after
any calls whatever, and be offered any bytes.

* It accepts them iff no weights are loaded, the encoding has a decoder, and the decoder makes as many
  values of them as the weights have elements; the failure otherwise is the first fault of the chain,
  and it is broken off only by the decoder.
* If it does not accept them it is as it was before, so it accepts later what it would have accepted
  before.
* If it accepts them, nothing but the weights changes, and from then on, whatever is done with the
  runner, every weight shows its region of the decoded values.
* Regions of different names have no position in common, and they are together no larger than the
  buffer. A weight does not depend on the values outside of its region. -/
theorem loading_exact (d : Descriptor) (loader : KernelLoader) (acts : List Action)
    (hcompiled : ((ofDescriptor d loader).after acts).isCompiled = true) :
    let r := (ofDescriptor d loader).after acts
    (∀ bytes t, let o := (r.loadWeights bytes t).1
      let r' := (r.loadWeights bytes t).2.1
      (o = .ok () ↔ ∃ values, r.Accepts bytes values) ∧
      (∀ f, o = .error f ↔ r.Refuses bytes f) ∧
      (∀ p, o = .panic p ↔ r.weightsLoaded = false ∧ r.Decodes bytes (.panic p)) ∧
      (o ≠ .ok () → r' = r ∧ ∀ bytes' values', r.Accepts bytes' values' → ∀ t',
        (r'.loadWeights bytes' t').1 = .ok ()) ∧
      ∀ values, r.Accepts bytes values →
        r'.weightsLoaded = true ∧ r'.trace = r.trace ∧
        (∀ name, r'.elementsOf name = r.elementsOf name) ∧
        ∀ more, (r'.after more).Shows d values) ∧
    (∀ p q s u, p ≠ q → d.weights.get? p = some s → d.weights.get? q = some u → ¬ s.Meets u) ∧
    (d.weights.regions.values.map fun region => region.size.toNat).sum ≤ d.weights.totalSize.toNat ∧
    ∀ (r₁ r₂ : Runner) values₁ values₂, r₁.Shows d values₁ → r₂.Shows d values₂ →
      ∀ name region, d.weights.get? name = some region →
        (∀ x, region.Covers x → values₁[x]? = values₂[x]?) → r₁.weightOf name = r₂.weightOf name := by
  intro r
  have hlived := (Lived.new d loader).after acts
  have hdescriptor : r.descriptor = d := hlived.descriptor
  obtain ⟨c₁, hc₁⟩ := Option.isSome_iff_exists.mp hcompiled
  obtain ⟨c, hholds⟩ := hlived.holds c₁ hc₁
  have hvalid : d.weights.validate "weight" = .ok () := by
    obtain ⟨-, hweights, -, -⟩ := build_spec hholds.built
    rw [← hdescriptor]
    exact Weights.validate_of_allocate hweights
  refine ⟨fun bytes t => ?_, fun p q s u => Layout.not_meets hvalid, Layout.sum_sizes_le hvalid, ?_⟩
  · obtain ⟨hok, herror, hpanic, hkept⟩ := load_iff hholds bytes t
    refine ⟨hok, herror, hpanic, fun hne => ⟨hkept hne, ?_⟩, fun values haccepts => ?_⟩
    · -- nothing has changed, so nothing stands in the way of what would have been accepted
      intro bytes' values' haccepts t'
      rw [hkept hne]
      exact (load_of_accepts hholds haccepts t').1
    · obtain ⟨-, hr⟩ := load_of_accepts hholds haccepts t
      have hfilled := holds_filled hholds haccepts
      rw [hr]
      refine ⟨rfl, rfl, fun name => ?_, fun more => ?_⟩
      · rw [elementsOf_eq hfilled, elementsOf_eq hholds]
        rfl
      · obtain ⟨b', hlater, hsame⟩ := holds_after_loaded hfilled rfl more
        have hshows := shows_of_holds hlater
        rwa [hsame.trans hdescriptor] at hshows
  · intro r₁ r₂ values₁ values₂ hshows₁ hshows₂ name region hget hagree
    rw [hshows₁.named name region hget, hshows₂.named name region hget,
      Region.slice_congr hagree]

/-- A graph with two weights that lie the other way round than their names. -/
def windowed : Descriptor :=
  { Descriptor.default with
    weights := ⟨3, [("a", ⟨2, 1⟩), ("b", ⟨0, 2⟩)], by decide⟩
    encoding := "bytes" }

/-- A runner for it that has a decoder for its weights. -/
def windowedRunner : Runner :=
  (ofDescriptor windowed ⟨fun _ => .ok ⟨[]⟩⟩).withDecoders
    (DecoderRegistry.empty.register "bytes" decodeBytes)

/-- The calls that lead to it and compile it. -/
def equipped : List Action :=
  [.equip .default .log windowedRunner.decoders, .compile quiet]

theorem validate_windowed : windowed.weights.validate "weight" = .ok () := by
  have hspans : windowed.weights.spans = .ok [⟨2, 3, "a"⟩, ⟨0, 2, "b"⟩] := rfl
  have hplaced : windowed.weights.placed = [⟨0, 2, "b"⟩, ⟨2, 3, "a"⟩] := by
    show [(⟨2, 3, "a"⟩ : Layout.Span), ⟨0, 2, "b"⟩].mergeSort Layout.Span.le = _
    simp [List.mergeSort, Layout.Span.le]
  have hcheck : windowed.weights.check = .ok () := by
    rw [Layout.check_of_spans hspans, hplaced]
    rfl
  rw [Layout.validate, hcheck]
  rfl

theorem after_equipped :
    ∃ c, (ofDescriptor windowed windowedRunner.loader).after equipped =
      { windowedRunner with compiled := some c } := by
  have hw : Weights.allocate windowed.weights =
      .ok ⟨["a", "b"], [(2, 3), (0, 2)], Array.replicate 3 .zero⟩ := by
    rw [Weights.allocate, validate_windowed]
    rfl
  have hb : Variables.allocate windowed.buffers = .ok ⟨[], []⟩ := rfl
  have hbuild : ∃ c, build windowedRunner.loader windowed = .ok c := by
    rw [build, hw, hb]
    exact ⟨_, rfl⟩
  obtain ⟨c, hc⟩ := hbuild
  refine ⟨c, ?_⟩
  have hnone : windowedRunner.compiled = none := rfl
  have hc : build windowedRunner.loader windowedRunner.descriptor = .ok c := hc
  show (windowedRunner.compile quiet).2.1 = _
  rw [compile, hnone]
  dsimp only
  rw [hc]

/-- Three bytes are three values: the first weight shows the last one. A single byte is refused. -/
theorem loading_exact_windowed :
    let r := (ofDescriptor windowed windowedRunner.loader).after equipped
    r.isCompiled = true ∧
      (r.loadWeights [7] quiet).1 = .error (.decode (.misfit 1 3)) ∧
      (r.loadWeights [7, 8, 9] quiet).1 = .ok () ∧
      (r.loadWeights [7, 8, 9] quiet).2.1.weightOf "a" = .ok #[.ofInt 9] := by
  intro r
  obtain ⟨c, hr⟩ := after_equipped
  have hr : r = { windowedRunner with compiled := some c } := hr
  have hcompiled : r.isCompiled = true := by
    rw [hr]
    rfl
  have hloaded : r.weightsLoaded = false := by
    rw [hr]
    rfl
  have hdecodes (bytes : Bytes) : r.Decodes bytes (.ok (bytes.map fun b => .ofInt b.toNat)) := by
    rw [hr]
    exact ⟨decodeBytes, rfl, rfl⟩
  have htotal : r.descriptor.weights.totalSize.toNat = 3 := by
    rw [hr]
    rfl
  obtain ⟨hload, -⟩ := loading_exact windowed windowedRunner.loader equipped hcompiled
  have haccepts : r.Accepts [7, 8, 9] ([7, 8, 9].map fun b : UInt8 => .ofInt b.toNat) :=
    ⟨hloaded, hdecodes _, htotal.symm⟩
  obtain ⟨hok, -, -, -, hfills⟩ := hload [7, 8, 9] quiet
  obtain ⟨-, herror, -⟩ := hload [7] quiet
  obtain ⟨-, -, -, hshows⟩ := hfills _ haccepts
  have hmisfit := Refuses.misfit hloaded (hdecodes [7]) (by rw [htotal]; decide)
  rw [htotal] at hmisfit
  refine ⟨hcompiled, (herror _).mpr hmisfit, hok.mpr ⟨_, haccepts⟩, ?_⟩
  exact (hshows []).named "a" ⟨2, 1⟩ rfl

end Runner

end InferenceEngine
