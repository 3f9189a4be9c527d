import InferenceEngine.Proofs.Compiling
import InferenceEngine.Proofs.Lifecycle
import InferenceEngine.Proofs.Manifests
import InferenceEngine.Proofs.Views

/-!
# Setting several inputs

Before a run its inputs are set one after the other, and the first that is refused ends the
sequence. `Runner.inputs_exact` is the main statement: the sequence goes through just if every pair
names a variable and has its size, and then each variable holds what was given for it last;
otherwise exactly the pairs before the first bad one are set. Nothing but elements of variables
changes either way.

* `Bank.elements_putAll`, `Bank.elements_putAll_other` — what copying a list leaves in the buffers.
* `Runner.setInput_of_takes`, `Runner.setInput_of_declines` — one pair.
* `Runner.inputs_of_takes`, `Runner.inputs_of_declines` — a sequence, by induction over the pairs.
-/

namespace InferenceEngine

/-! ## Copying into a buffer -/

namespace Bank

/-- Changing an element of a buffer changes that place in the list of its elements, -/
theorem elements_put (b : Bank) (cell index : Nat) (x : Single) :
    (b.put cell index x).elements cell = (b.elements cell).set index x := by
  rw [elements, elements, put, List.getElem?_modify_eq]
  cases b[cell]? with
  | none => rfl
  | some buffer => exact Array.toList_setIfInBounds

/-- and nothing in the other buffers. -/
theorem elements_put_other (b : Bank) {cell other : Nat} (h : cell ≠ other) (index : Nat)
    (x : Single) : (b.put cell index x).elements other = b.elements other := by
  rw [elements, elements, put, List.getElem?_modify_ne _ _ h]

/-- A list that is copied up to the end of a buffer takes the place of what was there. -/
theorem elements_putAll {b : Bank} {cell index : Nat} {xs : List Single}
    (h : index + xs.length = b.size cell) :
    (b.putAll cell index xs).elements cell = (b.elements cell).take index ++ xs := by
  induction xs generalizing b index with
  | nil =>
    rw [putAll, List.append_nil, List.take_of_length_le]
    rw [length_elements, ← h]
    exact Nat.le_refl _
  | cons x xs ih =>
    rw [List.length_cons] at h
    have hindex : index < ((b.elements cell).set index x).length := by
      rw [List.length_set, length_elements]
      omega
    have hsize : index + 1 + xs.length = (b.put cell index x).size cell := by
      rw [size_put]
      omega
    rw [putAll, ih hsize, elements_put, ← List.take_append_getElem hindex,
      List.take_set_of_le (Nat.le_refl _), List.getElem_set_self, List.append_assoc]
    rfl

/-- Neither do several changes. -/
theorem elements_putAll_other {b : Bank} {cell other : Nat} (h : cell ≠ other) (index : Nat)
    (xs : List Single) : (b.putAll cell index xs).elements other = b.elements other := by
  induction xs generalizing b index with
  | nil => rfl
  | cons x xs ih => rw [putAll, ih, elements_put_other b h]

end Bank

/-! ## Pairs that fit -/

namespace Layout

/-- The pair names a variable, and has as many values as it has elements. -/
def Takes (l : Layout) (p : String × List Single) : Prop :=
  ∃ region, l.get? p.1 = some region ∧ p.2.length = region.size.toNat

/-- Why a pair is refused. -/
inductive Declines (l : Layout) (p : String × List Single) : Failure → Prop
  /-- there is no variable of this name -/
  | unknown (h : l.get? p.1 = none) : Declines l p (.unresolvedReference .buffer p.1 none)
  /-- there is, and it has another size -/
  | misfit {region : Region} (h : l.get? p.1 = some region)
    (hsize : p.2.length ≠ region.size.toNat) :
    Declines l p (.wrongSize p.1 region.size.toNat p.2.length)

/-- A variable takes the values that it is given, or there is a reason why not. -/
theorem takes_or_declines (l : Layout) (p : String × List Single) :
    l.Takes p ∨ ∃ f, l.Declines p f := by
  cases h : l.get? p.1 with
  | none => exact .inr ⟨_, .unknown h⟩
  | some region =>
    by_cases hsize : p.2.length = region.size.toNat
    · exact .inl ⟨region, h, hsize⟩
    · exact .inr ⟨_, .misfit h hsize⟩

/-- If not all pairs fit there is a first one that does not. -/
theorem takes_all_or_declines (l : Layout) (inputs : List (String × List Single)) :
    (∀ p ∈ inputs, l.Takes p) ∨ ∃ before p after f, inputs = before ++ p :: after ∧
      (∀ q ∈ before, l.Takes q) ∧ l.Declines p f := by
  induction inputs with
  | nil => exact .inl nofun
  | cons p rest ih =>
    obtain hp | ⟨f, hp⟩ := l.takes_or_declines p
    · obtain hrest | ⟨before, q, after, f, rfl, hbefore, hq⟩ := ih
      · exact .inl (List.forall_mem_cons.mpr ⟨hp, hrest⟩)
      · exact .inr ⟨p :: before, q, after, f, rfl, List.forall_mem_cons.mpr ⟨hp, hbefore⟩, hq⟩
    · exact .inr ⟨[], p, rest, f, rfl, nofun, hp⟩

/-- Not both, -/
theorem Takes.not_declines {l : Layout} {p : String × List Single} {f : Failure} (h : l.Takes p) :
    ¬ l.Declines p f := by
  obtain ⟨region, hget, hsize⟩ := h
  rintro (hnone | ⟨hget', hne⟩)
  · cases hget.symm.trans hnone
  · obtain rfl := Option.some.inj (hget.symm.trans hget')
    exact hne hsize

/-- and there is one reason only. -/
theorem Declines.unique {l : Layout} {p : String × List Single} {f f' : Failure}
    (h : l.Declines p f) (h' : l.Declines p f') : f = f' := by
  cases h with
  | unknown hnone =>
    cases h' with
    | unknown => rfl
    | misfit hget' => cases hnone.symm.trans hget'
  | misfit hget =>
    cases h' with
    | unknown hnone' => cases hnone'.symm.trans hget
    | misfit hget' =>
      obtain rfl := Option.some.inj (hget.symm.trans hget')
      rfl

end Layout

namespace Tables

variable {tb : Tables} {name : String} {v : View} {region : Region} {b : Bank}

/-- The variable of a name stands at the place of the name, and has the size of its region. -/
theorem buffer?_of_get? (h : tb.buffers.get? name = some region) :
    ∃ cell, tb.buffers.regions.names.idxOf? name = some cell ∧
      tb.buffer? name = some ⟨name, cell, region.size.toNat⟩ := by
  rw [buffer?, h, Option.bind_some]
  rw [Layout.get?, NameMap.get?] at h
  obtain ⟨-, hnone⟩ | ⟨cell, region', hcell, -, -⟩ :=
    lookup_cases tb.buffers.regions.entries name
  · cases h.symm.trans hnone
  · rw [NameMap.names, hcell]
    exact ⟨cell, rfl, rfl⟩

theorem buffer?_of_not_get? (h : tb.buffers.get? name = none) : tb.buffer? name = none := by
  rw [buffer?, h]
  rfl

/-- A list that is copied into a variable is what its name then stands for, and no other name. -/
theorem elements_putAll (h : tb.buffer? name = some v) {values : List Single}
    (hfit : values.length = b.size v.cell) (other : String) :
    tb.elements (b.putAll v.cell 0 values) other =
      if other = name then .ok values else tb.elements b other := by
  rw [elements, elements]
  by_cases hother : other = name
  · rw [if_pos hother, hother, h]
    dsimp only
    rw [View.elements, Bank.elements_putAll (by rw [hfit, Nat.zero_add]), List.take_zero,
      List.nil_append]
  · rw [if_neg hother]
    cases hw : tb.buffer? other with
    | none => rfl
    | some w =>
      dsimp only
      rw [View.elements, View.elements,
        Bank.elements_putAll_other (cell_ne_of_buffer? h hw hother)]

end Tables

namespace Runner

variable {r : Runner} {c : Compiled} {b : Bank} {data : Array Single} {name : String}
  {values : List Single} {f : Failure}

/-! ## One pair -/

/-- Of the elements that are put into the variables one after the other, the last stay. -/
theorem withBank_withBank (r : Runner) (b b' : Bank) :
    (r.withBank b).withBank b' = r.withBank b' := by
  simp only [withBank, Option.map_map]
  rfl

theorem withBank_of_holds (h : r.Holds c b data) : r.withBank b = r := by
  have hcompiled : r.compiled.map (fun c => { c with buffers.bank := b }) = r.compiled := by
    rw [h.compiled]
    rfl
  rw [withBank, hcompiled]

/-- A runner that is given other elements for its variables holds these, and the same weights. -/
theorem holds_withBank (h : r.Holds c b data) {b' : Bank} (hshape : b'.shape = b.shape) :
    (r.withBank b').Holds c b' data := by
  refine ⟨h.built, ?_, hshape.trans h.shape, h.size⟩
  rw [withBank, h.compiled]
  rfl

/-- A variable of the layout is found by its name, and has the size of its region. -/
theorem view_of_get? (h : r.Holds c b data) {region : Region}
    (hget : r.descriptor.buffers.get? name = some region) :
    ∃ v, Tables.buffer? ⟨c.kernels, r.descriptor.buffers, r.descriptor.weights, data⟩ name =
        some v ∧
      (c.refill b data).buffers.handle? name = some v.cell ∧
      (c.refill b data).buffers.view v.cell = .ok v ∧ v.size = region.size.toNat ∧
      v.size = b.size v.cell := by
  have hserves := Compiled.serves_refill h.built h.shape h.size
  obtain ⟨cell, -, hfound⟩ : ∃ cell, _ ∧
      Tables.buffer? ⟨c.kernels, r.descriptor.buffers, r.descriptor.weights, data⟩ name =
        some ⟨name, cell, region.size.toNat⟩ := Tables.buffer?_of_get? hget
  obtain ⟨-, hnone⟩ | ⟨place, v, hhandle, hview, hsome⟩ := hserves.buffer name
  · cases hnone.symm.trans hfound
  · obtain rfl := Option.some.inj (hsome.symm.trans hfound)
    obtain ⟨hplace, hmem⟩ := Variables.view_eq_ok.mp hview
    obtain rfl : cell = place := hplace
    exact ⟨_, hsome, hhandle, hview, rfl, (Variables.mem_views.mp hmem).2⟩

/-- A pair that fits takes the place of what the variable held, and changes no other. -/
theorem setInput_of_takes (h : r.Holds c b data)
    (htakes : r.descriptor.buffers.Takes (name, values)) :
    ∃ b', r.setInput name values = .ok (r.withBank b') ∧ b'.shape = b.shape ∧
      ∀ other, (r.withBank b').elementsOf other =
        if other = name then .ok values else r.elementsOf other := by
  obtain ⟨region, hget, hsize⟩ := htakes
  obtain ⟨v, hfound, hhandle, hview, hregion, hcell⟩ := view_of_get? h hget
  have hfits : v.size = values.length := hregion.trans hsize.symm
  have hshape := Bank.shape_putAll b v.cell 0 values
  refine ⟨b.putAll v.cell 0 values, ?_, hshape, fun other => ?_⟩
  · rw [setInput, requireCompiled, h.compiled]
    dsimp only
    rw [Outcome.ok_bind, hhandle, requireHandle, Outcome.ok_bind, hview, Outcome.ok_bind,
      if_pos hfits]
    rfl
  · rw [elementsOf_eq h other, ← Tables.elements_putAll hfound (hfits.symm.trans hcell) other]
    exact elementsOf_eq (holds_withBank h hshape) other

/-- A pair that does not fit is refused, whatever the variables hold. -/
theorem setInput_of_declines (h : r.Holds c b data)
    (hdeclines : r.descriptor.buffers.Declines (name, values) f) :
    r.setInput name values = .error f := by
  rw [setInput, requireCompiled, h.compiled]
  dsimp only
  rw [Outcome.ok_bind]
  cases hdeclines with
  | unknown hnone =>
    have hserves := Compiled.serves_refill h.built h.shape h.size
    have hfound : Tables.buffer? ⟨c.kernels, r.descriptor.buffers, r.descriptor.weights, data⟩
        name = none := Tables.buffer?_of_not_get? hnone
    obtain ⟨hhandle, -⟩ | ⟨place, v, -, -, hsome⟩ := hserves.buffer name
    · rw [hhandle]
      rfl
    · cases hsome.symm.trans hfound
  | @misfit region hget hsize =>
    obtain ⟨v, -, hhandle, hview, hregion, -⟩ := view_of_get? h hget
    rw [hhandle, requireHandle, Outcome.ok_bind, hview, Outcome.ok_bind, hregion,
      if_neg (Ne.symm hsize)]

/-! ## Sequences of pairs -/

/-- A history that sets inputs. -/
def settings (inputs : List (String × List Single)) : List Action :=
  inputs.map fun p => .setInput p.1 p.2

/-- Inputs are inserted one after the other, -/
theorem tryInsertInputs_cons_of_ok {rest : List (String × List Single)} {r' : Runner}
    (h : r.setInput name values = .ok r') :
    r.tryInsertInputs ((name, values) :: rest) = r'.tryInsertInputs rest := by
  rw [tryInsertInputs, setInputs, h]
  rfl

/-- up to the first that is refused. -/
theorem tryInsertInputs_cons_of_error {rest : List (String × List Single)}
    (h : r.setInput name values = .error f) :
    r.tryInsertInputs ((name, values) :: rest) = (.error f, r) := by
  rw [tryInsertInputs, setInputs, h]

/-- Pairs that all fit are set one after the other, and each variable holds what came for it
last. -/
theorem inputs_of_takes (h : r.Holds c b data) {inputs : List (String × List Single)}
    (htakes : ∀ p ∈ inputs, r.descriptor.buffers.Takes p) :
    ∃ b', r.tryInsertInputs inputs = (.ok (), r.withBank b') ∧ b'.shape = b.shape ∧
      r.after (settings inputs) = r.withBank b' ∧
      ∀ name, (r.withBank b').elementsOf name =
        ((lastOf inputs name).map .ok).getD (r.elementsOf name) := by
  induction inputs generalizing r b with
  | nil =>
    have hself := withBank_of_holds h
    refine ⟨b, ?_, rfl, ?_, fun name => ?_⟩
    · rw [hself]
      rfl
    · rw [hself]
      rfl
    · rw [hself]
      rfl
  | cons p rest ih =>
    obtain ⟨name, values⟩ := p
    obtain ⟨hfirst, hrest⟩ := List.forall_mem_cons.mp htakes
    obtain ⟨b₁, hset, hshape₁, helements⟩ := setInput_of_takes h hfirst
    obtain ⟨b₂, hsets, hshape₂, hafter, hlast⟩ := ih (holds_withBank h hshape₁) hrest
    -- the rest is set on what the first pair leaves, where only the bank is another one
    rw [withBank_withBank] at hsets hafter hlast
    refine ⟨b₂, ?_, hshape₂.trans hshape₁, ?_, fun other => ?_⟩
    · rw [tryInsertInputs_cons_of_ok hset, hsets]
    · rw [settings, List.map_cons, after, act, hset]
      exact hafter
    · rw [hlast, helements, lastOf_cons]
      -- a later pair for this name counts; without one the first pair does, if it is for it
      cases lastOf rest other with
      | some later => rfl
      | none =>
        by_cases hother : other = name
        · simp [hother]
        · simp [hother]

/-- The pairs before one that is refused are set, and nothing else. -/
theorem inputs_of_declines (h : r.Holds c b data) {before after : List (String × List Single)}
    {p : String × List Single} (htakes : ∀ q ∈ before, r.descriptor.buffers.Takes q)
    (hdeclines : r.descriptor.buffers.Declines p f) :
    r.tryInsertInputs (before ++ p :: after) = (.error f, (r.tryInsertInputs before).2) := by
  induction before generalizing r b with
  | nil => exact tryInsertInputs_cons_of_error (setInput_of_declines h hdeclines)
  | cons q rest ih =>
    obtain ⟨hfirst, hrest⟩ := List.forall_mem_cons.mp htakes
    obtain ⟨b₁, hset, hshape, -⟩ := setInput_of_takes h hfirst
    rw [List.cons_append, tryInsertInputs_cons_of_ok hset, tryInsertInputs_cons_of_ok hset]
    exact ih (holds_withBank h hshape) hrest hdeclines

/-- A sequence goes through just if all pairs fit, and changes nothing but elements either way. -/
theorem inputs_cases (h : r.Holds c b data) (inputs : List (String × List Single)) :
    ∃ b', b'.shape = b.shape ∧
      ((∀ p ∈ inputs, r.descriptor.buffers.Takes p) ∧
        r.tryInsertInputs inputs = (.ok (), r.withBank b') ∨
      (¬ ∀ p ∈ inputs, r.descriptor.buffers.Takes p) ∧
        ∃ f, r.tryInsertInputs inputs = (.error f, r.withBank b')) := by
  obtain htakes | ⟨before, p, after, f, rfl, htakes, hf⟩ :=
    r.descriptor.buffers.takes_all_or_declines inputs
  · obtain ⟨b', hinserted, hshape, -⟩ := inputs_of_takes h htakes
    exact ⟨b', hshape, .inl ⟨htakes, hinserted⟩⟩
  · obtain ⟨b', hinserted, hshape, -⟩ := inputs_of_takes h htakes
    refine ⟨b', hshape, .inr ⟨fun hall => ?_, f, ?_⟩⟩
    · exact (hall p List.mem_append_cons_self).not_declines hf
    · rw [inputs_of_declines h htakes hf, hinserted]

/-- Whatever calls are made on a new runner, once it is compiled it holds something. -/
theorem holds_of_history {d : Descriptor} {loader : KernelLoader} {acts : List Action}
    (hcompiled : ((ofDescriptor d loader).after acts).isCompiled = true) :
    ((ofDescriptor d loader).after acts).descriptor = d ∧
      ∃ c data, ((ofDescriptor d loader).after acts).Holds c
        ((ofDescriptor d loader).after acts).bank data := by
  have hlived := (Lived.new d loader).after acts
  obtain ⟨c, hc⟩ := Option.isSome_iff_exists.mp hcompiled
  obtain ⟨c₀, hholds⟩ := hlived.holds c hc
  refine ⟨hlived.descriptor, c₀, c.weights.data, ?_⟩
  rw [bank, hc]
  exact hholds

/-- **What a sequence of inputs does to a compiled runner.** Let any calls have been made on a new
runner, one of which has compiled it, and let a sequence of pairs of a name and values be set.

* The sequence goes through just if every pair names a variable and has as many values as it has
  elements.
* Then the runner is what setting one pair after the other makes of it: every variable holds what
  was given for it last, and one that was given nothing holds what it did before.
* Otherwise there is a first pair that does not fit. The failure says why, and is the one that this
  pair meets on its own; the runner is what setting the pairs before it makes of it, so that neither
  this pair nor a later one has changed anything.
* Either way nothing but the elements of variables changes: not their number, nor the weights, the
  events of the latest pass, or how far the runner is in its life. -/
theorem inputs_exact (d : Descriptor) (loader : KernelLoader) (acts : List Action)
    (hcompiled : ((ofDescriptor d loader).after acts).isCompiled = true)
    (inputs : List (String × List Single)) :
    let r := (ofDescriptor d loader).after acts
    let o := (r.tryInsertInputs inputs).1
    let r' := (r.tryInsertInputs inputs).2
    (o = .ok () ↔ ∀ p ∈ inputs, d.buffers.Takes p) ∧
    (o = .ok () → r' = r.after (settings inputs) ∧ ∀ name,
      r'.elementsOf name = ((lastOf inputs name).map .ok).getD (r.elementsOf name)) ∧
    (∀ before p after, inputs = before ++ p :: after → (∀ q ∈ before, d.buffers.Takes q) →
      ¬ d.buffers.Takes p → ∃ f, d.buffers.Declines p f ∧ o = .error f ∧
        r'.setInput p.1 p.2 = .error f ∧ r' = r.after (settings before) ∧ ∀ name,
          r'.elementsOf name = ((lastOf before name).map .ok).getD (r.elementsOf name)) ∧
    (∃ b, r' = r.withBank b ∧ b.shape = r.bank.shape) ∧
    (∀ name, r'.weightOf name = r.weightOf name) ∧ r'.trace = r.trace ∧
    r'.isCompiled = r.isCompiled ∧ r'.weightsLoaded = r.weightsLoaded := by
  intro r o r'
  obtain ⟨hdescriptor, c, data, hholds⟩ : r.descriptor = d ∧ ∃ c data, r.Holds c r.bank data :=
    holds_of_history hcompiled
  have hset {pairs : List (String × List Single)} (htakes : ∀ p ∈ pairs, d.buffers.Takes p) :=
    inputs_of_takes hholds (hdescriptor ▸ htakes)
  obtain ⟨b, hshape, hcases⟩ := inputs_cases hholds inputs
  rw [hdescriptor] at hcases
  have hr' : r' = r.withBank b := by
    obtain ⟨-, hinserted⟩ | ⟨-, f, hrefused⟩ := hcases
    · exact congrArg Prod.snd hinserted
    · exact congrArg Prod.snd hrefused
  have hok : o = .ok () ↔ ∀ p ∈ inputs, d.buffers.Takes p := by
    obtain ⟨htakes, hinserted⟩ | ⟨hmisfit, f, hrefused⟩ := hcases
    · exact iff_of_true (congrArg Prod.fst hinserted) htakes
    · refine iff_of_false (fun ho => ?_) hmisfit
      cases ho.symm.trans (congrArg Prod.fst hrefused)
  refine ⟨hok, fun ho => ?_, fun before p after hsplit htakes hp => ?_,
    ⟨b, hr', hshape⟩, ?_⟩
  · -- all pairs fit
    obtain ⟨b', hinserted, -, hafter, hlast⟩ := hset (hok.mp ho)
    have hset' : r' = r.withBank b' := congrArg Prod.snd hinserted
    rw [hset']
    exact ⟨hafter.symm, hlast⟩
  · -- `p` is the first that does not
    obtain ⟨f, hf⟩ := (d.buffers.takes_or_declines p).resolve_left hp
    obtain ⟨b', hinserted, hshape', hafter, hlast⟩ := hset htakes
    -- the pairs before `p` all fit, so they are set, and `p` is the one that is refused
    have hrefused : r.tryInsertInputs inputs = (.error f, r.withBank b') := by
      rw [hsplit, inputs_of_declines hholds (hdescriptor ▸ htakes) (hdescriptor ▸ hf), hinserted]
    have hset' : r' = r.withBank b' := congrArg Prod.snd hrefused
    rw [hset']
    refine ⟨f, hf, congrArg Prod.fst hrefused, ?_, hafter.symm, hlast⟩
    exact setInput_of_declines (holds_withBank hholds hshape') (hdescriptor ▸ hf)
  · -- nothing but elements has changed
    rw [hr']
    have hkept : r.Kept (r.withBank b) := kept_withBank hshape
    exact ⟨hkept.weightOf, rfl, hkept.isCompiled, hkept.weightsLoaded⟩

/-- Two values are given for one variable and then none for the other, which is refused. The last
pair would fit, but it comes too late. -/
theorem inputs_exact_misfit :
    let r := relay.after [.compile quiet]
    let inputs := [("a", [.zero]), ("a", [.one]), ("b", []), ("b", [.one])]
    r.isCompiled = true ∧ (r.tryInsertInputs inputs).1 = .error (.wrongSize "b" 1 0) ∧
      (r.tryInsertInputs inputs).2.elementsOf "a" = .ok [.one] ∧
      (r.tryInsertInputs inputs).2.elementsOf "b" = .ok [.zero] := by
  intro r inputs
  have hrelayed : r = relayed := (compile_relay quiet).2
  have hcompiled : r.isCompiled = true := by
    rw [hrelayed]
    rfl
  have ha : relay.descriptor.buffers.Takes ("a", [.zero]) := ⟨⟨0, 1⟩, rfl, rfl⟩
  have ha' : relay.descriptor.buffers.Takes ("a", [.one]) := ⟨⟨0, 1⟩, rfl, rfl⟩
  have hmisfit : relay.descriptor.buffers.Declines ("b", []) (.wrongSize "b" 1 0) :=
    @Layout.Declines.misfit _ ("b", []) ⟨1, 1⟩ rfl (by decide)
  obtain ⟨-, -, hfirst, -⟩ :=
    inputs_exact relay.descriptor relay.loader [.compile quiet] hcompiled inputs
  obtain ⟨f, hf, ho, -, -, helements⟩ := hfirst [("a", [.zero]), ("a", [.one])] ("b", []) _ rfl
    (by simp [ha, ha']) fun htakes => htakes.not_declines hmisfit
  obtain rfl := hf.unique hmisfit
  refine ⟨hcompiled, ho, helements "a", (helements "b").trans ?_⟩
  show r.elementsOf "b" = _
  rw [hrelayed]
  rfl

end Runner

end InferenceEngine
