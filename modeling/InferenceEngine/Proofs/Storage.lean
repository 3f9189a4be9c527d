import InferenceEngine.Proofs.Indexing
import InferenceEngine.Proofs.Orders
import InferenceEngine.Proofs.Views

/-!
# One storage behind all views

A variable of a runner can be reached by its name, through the views of the declared inputs and
outputs, and through the views that kernels are given. `Runner.trail` lists what a history does to
variables on all these ways, and `Runner.one_storage` says that there is one storage behind them:
every read gets what was written last under the name, and so does everybody who looks at a variable
afterwards.

* `Runner.Stores.act` and `Runner.Stores.after` — what a call and a history preserve.
* `Runner.declared_views` — the declared names have views, duplicates included.
* `Runner.call_of_pass` — what kernels are given.
-/

namespace InferenceEngine

/-! ## What calls do to variables -/

namespace Runner

open Execution

variable {r : Runner} {c : Compiled} {log : List Access} {name : String}

/-- What a host does to variables through views. -/
def viewAccesses (r : Runner) (views : Outcome (List View)) (body : Kernel) (t : Thread) :
    List Access :=
  match views with
  | .ok inputs =>
    let args : Args := { inputs, outputs := [], weights := [], option := .default }
    (body args).accesses args r.bank t
  | .error _ | .panic _ => []

/-- What a call does to variables. -/
def accesses (r : Runner) : Action → List Access
  | .run t | .runAsync t =>
    match r.start t with
    | (.ok e, t) => driveAccesses r.sink (budget e) e t
    | (.error _, _) => []
  | .pass t steps ts =>
    match (r.start t).1 with
    | .ok e => e.accessesBefore ts steps
    | .error _ => []
  | .setInput name values =>
    match r.setInput name values with
    | .ok _ => Access.writes name 0 values
    | _ => []
  | .useInputs body t => r.viewAccesses r.inputViews body t
  | .useOutputs body t => r.viewAccesses r.outputViews body t
  | .elementsOf name =>
    match r.elementsOf name with
    | .ok xs => Access.reads name 0 xs
    | _ => []
  | .compile _ | .loadWeights _ _ | .loadWeightsFrom _ _ | .weightOf _ | .equip _ _ _ => []

/-- What a history does to variables. -/
def trail : Runner → List Action → List Access
  | _, [] => []
  | r, a :: rest => r.accesses a ++ (r.act a).2.trail rest

/-- The elements of a variable are those that its view shows. -/
theorem elementsOf_eq_ok {xs : List Single} (h : r.elementsOf name = .ok xs) :
    ∃ c v, r.compiled = some c ∧ v ∈ c.buffers.views ∧ v.name = name ∧
      xs = v.elements c.buffers.bank := by
  obtain ⟨c, hc, h⟩ := Outcome.bind_eq_ok.mp h
  obtain ⟨handle, hhandle, h⟩ := Outcome.bind_eq_ok.mp h
  cases hname : c.buffers.handle? name with
  | none =>
    rw [hname] at hhandle
    cases hhandle
  | some handle' =>
    rw [hname] at hhandle
    obtain rfl := Outcome.ok.inj hhandle
    refine ⟨c, _, compiled_of_requireCompiled hc,
      (Variables.view_eq_ok.mp (Variables.view_of_handle? hname)).2, rfl, ?_⟩
    rw [View.elements, Bank.elements]
    rw [Variables.buffer] at h
    cases hbuffer : c.buffers.bank[handle']? with
    | none =>
      rw [hbuffer] at h
      cases h
    | some buffer =>
      rw [hbuffer] at h
      obtain rfl := Outcome.ok.inj h
      rfl

/-- Setting an input writes all elements of its view. -/
theorem setInput_eq_ok {values : List Single} {r' : Runner} (h : r.setInput name values = .ok r') :
    ∃ c v, r.compiled = some c ∧ v ∈ c.buffers.views ∧ v.name = name ∧ v.size = values.length ∧
      r' = r.withBank (c.buffers.bank.putAll v.cell 0 values) := by
  obtain ⟨c, hc, h⟩ := Outcome.bind_eq_ok.mp h
  obtain ⟨handle, hhandle, h⟩ := Outcome.bind_eq_ok.mp h
  obtain ⟨v, hv, h⟩ := Outcome.bind_eq_ok.mp h
  cases hname : c.buffers.handle? name with
  | none =>
    rw [hname] at hhandle
    cases hhandle
  | some handle' =>
    rw [hname] at hhandle
    obtain rfl := Outcome.ok.inj hhandle
    rw [Variables.view_of_handle? hname] at hv
    obtain rfl := Outcome.ok.inj hv
    -- a name that was found has a view, so the length alone can stand in the way
    by_cases hsize : c.buffers.bank.size handle' = values.length
    · rw [if_pos hsize] at h
      exact ⟨c, _, compiled_of_requireCompiled hc,
        (Variables.view_eq_ok.mp (Variables.view_of_handle? hname)).2, rfl, hsize,
        (Outcome.ok.inj h).symm⟩
    · rw [if_neg hsize] at h
      cases h

/-- The views of the declared names are views of variables. -/
theorem mem_of_inputViews {vs : List View} (h : r.inputViews = .ok vs) :
    ∃ c, r.compiled = some c ∧ ∀ v ∈ vs, v ∈ c.buffers.views := by
  obtain ⟨c, hc, h⟩ := Outcome.bind_eq_ok.mp h
  exact ⟨c, compiled_of_requireCompiled hc, Variables.mem_of_viewAll h⟩

/-- And so is each view of an output. -/
theorem mem_of_outputViews {vs : List View} (h : r.outputViews = .ok vs) :
    ∃ c, r.compiled = some c ∧ ∀ v ∈ vs, v ∈ c.buffers.views := by
  obtain ⟨c, hc, h⟩ := Outcome.bind_eq_ok.mp h
  exact ⟨c, compiled_of_requireCompiled hc, Variables.mem_of_viewAll h⟩

/-- The views of the declared inputs and outputs of a runner that holds a graph: there is one for
each declared name. -/
theorem declared_views {b : Bank} {data : Array Single} (h : r.Holds c b data) :
    ∃ inputs outputs, r.inputViews = .ok inputs ∧ r.outputViews = .ok outputs ∧
      inputs.map View.name = r.descriptor.inputs ∧
      outputs.map View.name = r.descriptor.outputs ∧
      ∀ v ∈ inputs ++ outputs, v ∈ (c.refill b data).buffers.views := by
  obtain ⟨hinputs, houtputs⟩ := build_declared h.built
  obtain ⟨inputs, hi, hinames⟩ := Variables.viewAll_of_resolveDeclared hinputs b
  obtain ⟨outputs, ho, honames⟩ := Variables.viewAll_of_resolveDeclared houtputs b
  refine ⟨inputs, outputs, ?_, ?_, hinames, honames, fun v hv => ?_⟩
  · rw [inputViews, requireCompiled, h.compiled]
    exact hi
  · rw [outputViews, requireCompiled, h.compiled]
    exact ho
  · rcases List.mem_append.mp hv with hv | hv
    · exact Variables.mem_of_viewAll hi v hv
    · exact Variables.mem_of_viewAll ho v hv

/-- After these accesses, the variables of the runner hold what was written last. -/
structure Stores (r : Runner) (log : List Access) : Prop where
  /-- before the runner is compiled there is nothing to access -/
  fresh : r.compiled = none → log = []
  /-- afterwards the bank is faithful -/
  faithful : ∀ c, r.compiled = some c → Faithful c.buffers.names c.buffers.bank log

/-- The elements of variables are zero at first. -/
theorem faithful_of_allocate {l : Layout} {vars : Variables} (h : Variables.allocate l = .ok vars) :
    Faithful vars.names vars.bank [] where
  distinct := by
    rw [(Variables.allocate_spec h).1]
    exact nodup_of_ascending l.regions.ascending
  coherent := coherent_nil
  holds cell name _ index hindex := by
    obtain ⟨-, -, rfl⟩ := Variables.allocate_eq_ok.mp h
    rw [Bank.size, Variables.blank, List.getElem?_map] at hindex
    rw [Bank.get?, Variables.blank, List.getElem?_map]
    cases hsize : (l.regions.values.map (·.size.toNat))[cell]? with
    | none =>
      rw [hsize] at hindex
      exact absurd hindex (Nat.not_lt_zero index)
    | some size =>
      rw [hsize] at hindex
      have hlt : index < size := by
        simpa using hindex
      simp [hlt, lastWritten]

namespace Stores

/-- A new runner has no variables, and its log is empty. -/
theorem new (d : Descriptor) (loader : KernelLoader) : (ofDescriptor d loader).Stores [] :=
  ⟨fun _ => rfl, nofun⟩

/-- What does not touch the variables keeps what is known of them. -/
theorem of_buffers {r' : Runner} {c' : Compiled} (h : r.Stores log) (hc : r.compiled = some c)
    (hc' : r'.compiled = some c') (hbuffers : c'.buffers = c.buffers) : r'.Stores log := by
  refine ⟨fun hnone => absurd (hc'.symm.trans hnone) (Option.some_ne_none _), fun c'' hc'' => ?_⟩
  obtain rfl : c' = c'' := Option.some.inj (hc'.symm.trans hc'')
  rw [hbuffers]
  exact h.faithful c hc

/-- Whatever the log of a runner says was read is what the log says was written last. -/
theorem coherent (h : r.Stores log) : Coherent log := by
  cases hc : r.compiled with
  | none =>
    rw [h.fresh hc]
    exact coherent_nil
  | some c => exact (h.faithful c hc).coherent

/-- A pass that has been taken back leaves what its steps have left. -/
theorem absorb {e e' : Execution} (hsame : e.SamePass e')
    (h : Faithful e.compiled.buffers.names e'.bank log) : (r.absorb e').Stores log := by
  refine ⟨nofun, fun c' hc' => ?_⟩
  obtain rfl := Option.some.inj hc'
  rw [hsame.compiled]
  exact h

/-- Other elements may be put into the variables if the log tells of them. -/
theorem withBank {b : Bank} (hc : r.compiled = some c) (h : Faithful c.buffers.names b log) :
    (r.withBank b).Stores log := by
  have hcompiled : (r.withBank b).compiled = some { c with buffers.bank := b } := by
    rw [Runner.withBank, hc]
    rfl
  refine ⟨fun hnone => absurd (hcompiled.symm.trans hnone) (Option.some_ne_none _), fun c' hc' => ?_⟩
  obtain rfl := Option.some.inj (hcompiled.symm.trans hc')
  exact h

/-- Whatever a host does through views of variables. -/
theorem useViews (h : r.Stores log) {views : Outcome (List View)}
    (hviews : ∀ vs, views = .ok vs → ∃ c, r.compiled = some c ∧ ∀ v ∈ vs, v ∈ c.buffers.views)
    (body : Kernel) (t : Thread) :
    (r.useViews views body t).2.Stores (log ++ r.viewAccesses views body t) := by
  cases views with
  | error f =>
    rw [viewAccesses, List.append_nil]
    exact h
  | panic p =>
    rw [viewAccesses, List.append_nil]
    exact h
  | ok inputs =>
    obtain ⟨c, hc, hmem⟩ := hviews inputs rfl
    have hbank : r.bank = c.buffers.bank := by
      rw [Runner.bank, hc]
      rfl
    rw [viewAccesses, hbank]
    rw [Runner.useViews, hbank]
    refine withBank hc ((h.faithful c hc).run (fun v hv => ?_) _ t)
    rw [List.append_nil] at hv
    exact (Variables.mem_views.mp (hmem v hv)).1

/-- A run appends the accesses of its kernels. -/
theorem run (h : r.Stores log) (t : Thread) :
    (r.run t).2.1.Stores (log ++ r.accesses (.run t)) := by
  rw [Runner.run, Runner.accesses]
  rcases hstart : r.start t with ⟨f | e, t₀⟩
  · rw [List.append_nil]
    exact h
  · obtain ⟨hcompiled, -⟩ := poised_of_start hstart
    exact absorb (samePass_drive r.sink (budget e) e t₀)
      ((h.faithful _ hcompiled).drive rfl r.sink (budget e) t₀)

/-- So does a pass that is left midway. -/
theorem pass (h : r.Stores log) (t : Thread) (steps : Nat) (ts : Nat → Thread) :
    (r.act (.pass t steps ts)).2.Stores (log ++ r.accesses (.pass t steps ts)) := by
  rw [Runner.act, Runner.accesses]
  rcases hstart : r.start t with ⟨f | e, t₀⟩
  · rw [List.append_nil]
    exact h
  · obtain ⟨hcompiled, -⟩ := poised_of_start hstart
    exact absorb (samePass_after e ts steps)
      ((h.faithful _ hcompiled).after rfl ts steps)

/-- Setting an input is a write of each element of its variable. -/
theorem setInput (h : r.Stores log) (name : String) (values : List Single) :
    (r.act (.setInput name values)).2.Stores (log ++ r.accesses (.setInput name values)) := by
  rw [Runner.act, Runner.accesses]
  cases hset : r.setInput name values with
  | error f =>
    rw [List.append_nil]
    exact h
  | panic p =>
    rw [List.append_nil]
    exact h
  | ok r' =>
    obtain ⟨c, v, hc, hv, rfl, hsize, rfl⟩ := setInput_eq_ok hset
    obtain ⟨hname, hlength⟩ := Variables.mem_views.mp hv
    have hfit : 0 + values.length ≤ c.buffers.bank.size v.cell := by
      rw [Nat.zero_add, ← hsize, hlength]
    exact withBank hc ((h.faithful c hc).writeAll hname hfit)

/-- Asking for a variable is a read of each element. -/
theorem elementsOf (h : r.Stores log) (name : String) :
    r.Stores (log ++ r.accesses (.elementsOf name)) := by
  rw [Runner.accesses]
  cases hread : r.elementsOf name with
  | error f =>
    rw [List.append_nil]
    exact h
  | panic p =>
    rw [List.append_nil]
    exact h
  | ok xs =>
    obtain ⟨c, v, hc, hv, rfl, rfl⟩ := elementsOf_eq_ok hread
    refine ⟨fun hnone => absurd (hc.symm.trans hnone) (Option.some_ne_none _), fun c' hc' => ?_⟩
    obtain rfl := Option.some.inj (hc.symm.trans hc')
    refine (h.faithful c hc).readAll (Variables.mem_views.mp hv).1 fun k x hx => ?_
    rw [Nat.zero_add, ← Bank.getElem?_elements]
    exact hx

/-- Loading weights has nothing to do with the variables, -/
theorem loads (h : r.Stores log) (bytes : Bytes) (t : Thread) :
    (r.loadWeights bytes t).2.1.Stores log := by
  rcases loadWeights_cases r bytes t with ⟨-, c, values, hc, -, -, -, hr⟩ | ⟨-, hr⟩
  · rw [hr]
    exact of_buffers h hc rfl rfl
  · rw [hr]
    exact h

/-- and compiling makes new ones, all zeros, to which nothing has been written. -/
theorem compiles (h : r.Stores log) (t : Thread) : (r.compile t).2.1.Stores log := by
  rcases compile_cases r t with ⟨hnone, c, hbuild, -, hr⟩ | ⟨-, hr⟩
  · rw [hr, h.fresh hnone]
    refine ⟨nofun, fun c' hc' => ?_⟩
    obtain rfl := Option.some.inj hc'
    exact faithful_of_allocate (build_spec hbuild).2.2.1
  · rw [hr]
    exact h

/-- **What a call preserves.** -/
theorem act (h : r.Stores log) (a : Action) :
    (r.act a).2.Stores (log ++ r.accesses a) := by
  cases a with
  | run t => exact run h t
  | runAsync t =>
    rw [Runner.act, runAsync_eq_run]
    exact run h t
  | pass t steps ts => exact pass h t steps ts
  | setInput name values => exact setInput h name values
  | useInputs body t => exact useViews h (fun _ => mem_of_inputViews) body t
  | useOutputs body t => exact useViews h (fun _ => mem_of_outputViews) body t
  | elementsOf name => exact elementsOf h name
  -- the others access no variable
  | compile t =>
    rw [accesses, List.append_nil]
    exact compiles h t
  | loadWeights bytes t =>
    rw [accesses, List.append_nil]
    exact loads h bytes t
  | loadWeightsFrom m t =>
    rw [accesses, List.append_nil]
    exact loads h m.weights t
  | weightOf name =>
    rw [accesses, List.append_nil]
    exact h
  | equip options sink decoders =>
    rw [accesses, List.append_nil]
    exact ⟨h.fresh, h.faithful⟩

/-- **What a history preserves.** -/
theorem after (h : r.Stores log) (acts : List Action) :
    (r.after acts).Stores (log ++ r.trail acts) := by
  induction acts generalizing r log with
  | nil =>
    rw [Runner.trail, List.append_nil]
    exact h
  | cons a rest ih =>
    rw [Runner.trail, ← List.append_assoc]
    exact ih (act h a)

end Stores

/-! ## What everybody sees -/

/-- A variable is seen by its name as through its view, and is as long as its region. -/
theorem elementsOf_of_mem_views {b : Bank} {data : Array Single} (h : r.Holds c b data)
    (hnames : c.buffers.names.Nodup) {v : View} (hv : v ∈ (c.refill b data).buffers.views) :
    r.elementsOf v.name = .ok (v.elements b) ∧
      ∃ region, r.descriptor.buffers.get? v.name = some region ∧ v.size = region.size.toNat := by
  have hserves := Compiled.serves_refill h.built h.shape h.size
  have hfound := Variables.buffer?_of_mem_views hserves hnames hv
  constructor
  · rw [elementsOf_eq h, Tables.elements, hfound]
  · obtain ⟨region, hregion, hview⟩ := Option.bind_eq_some_iff.mp hfound
    obtain ⟨cell, -, hcell⟩ := Option.map_eq_some_iff.mp hview
    exact ⟨region, hregion, congrArg View.size hcell.symm⟩

/-- Calls on a compiled runner leave it its views. -/
theorem views_act (hc : r.compiled = some c) (a : Action) :
    ∃ c', (r.act a).2.compiled = some c' ∧ c'.buffers.views = c.buffers.views := by
  rcases act_cases r a with ⟨-, hnone, -⟩ | ⟨-, bytes, c', values, -, hc', -, -, hact⟩ | ⟨hkept, -⟩
  · cases hnone.symm.trans hc
  · obtain rfl := Option.some.inj (hc.symm.trans hc')
    rw [hact]
    exact ⟨_, rfl, rfl⟩
  · obtain ⟨b, hb, hshape⟩ := hkept.compiled
    rw [withBank, hc] at hb
    rw [bank, hc] at hshape
    exact ⟨_, hb, Variables.views_of_shape hshape⟩

/-- Calls that do not write a variable leave it as it is. -/
theorem contents_of_not_written {log' : List Access}
    (h : ∀ index x, .write name index x ∉ log') (size : Nat) :
    contents (log ++ log') name size = contents log name size :=
  List.map_congr_left fun index _ => lastWritten_append_of_not_written (h index)

/-- What a compiled runner shows. -/
theorem Stores.elements (h : r.Stores log) (hc : r.compiled = some c) {v : View}
    (hv : v ∈ c.buffers.views) : v.elements r.bank = contents log v.name v.size := by
  rw [bank, hc]
  exact (h.faithful c hc).elements hv

/-- What a kernel is given at a step of a pass. -/
theorem call_of_pass {b b' : Bank} {data : Array Single} (h : r.Holds c b data)
    (hstores : r.Stores log) {e : Execution} {t t₀ : Thread} (hstart : r.start t = (.ok e, t₀))
    {ts : Nat → Thread} {k : Nat} {call : Call}
    (hcall : (e.after ts k).callAt (ts k) = some (call, b')) :
    ∃ i, r.descriptor.instructions[(e.after ts k).position]? = some i ∧
      call.args.inputs.map View.name = i.inputs ∧ call.args.outputs.map View.name = i.outputs ∧
      ∀ v ∈ call.args.inputs ++ call.args.outputs, v ∈ (c.refill b data).buffers.views ∧
        v.elements b' = contents (log ++ e.accessesBefore ts k) v.name v.size := by
  obtain ⟨e', t', hstart', -, hc, hi, hruns⟩ := start_spec h t
  obtain rfl : e = e' := Except.ok.inj (Prod.mk.inj (hstart.symm.trans hstart')).1
  obtain ⟨-, rfl, i, hprep⟩ := callAt_eq_some.mp hcall
  have honward := Onward.after e ts k
  obtain ⟨hinstruction, hlookup⟩ :=
    (hruns.of_samePass honward.same honward.shape).call_of_prepare hprep
  obtain ⟨hinputs, houtputs, -⟩ := Tables.call_eq_ok hlookup
  rw [honward.same.instructions, hi] at hinstruction
  have hcompiled : r.compiled = some e.compiled := h.compiled.trans (congrArg some hc.symm)
  -- the log of the history goes on with the accesses of the pass
  have hfaithful := (hstores.faithful _ hcompiled).after rfl ts k
  refine ⟨i, hinstruction, names_of_lookupAll hinputs, names_of_lookupAll houtputs, fun v hv => ?_⟩
  have hmem := mem_views_of_prepare hprep v hv
  -- steps change the bank of a graph and nothing else
  have hbuffers : (e.after ts k).compiled.buffers =
      { e.compiled.buffers with bank := (e.after ts k).bank } := by
    rw [honward.same.compiled]
  rw [hbuffers] at hmem
  have hshown := Faithful.elements hfaithful hmem
  rw [Variables.views_of_shape honward.shape, hc] at hmem
  exact ⟨hmem, hshown⟩

/-- **One storage behind all views.** Let any calls be made on a new runner, with any arguments,
whatever fails or is broken off in between. Every read of a variable, by its name, through a declared
view or by a kernel, has got the value that was written last under that name and place on any of these
ways, or zero.

If the runner is compiled, the declared inputs and outputs have views, one for each name in the declared
order. The views of a variable are as long as its region, and what they show, and what the runner
gives for the name, is what was written last. A call that does not write a variable leaves it as it
is. The views that a kernel is given at any step of a pass are those that its instruction names, and
at that moment they show what was written last. And two views alias, which is to begin at the same
address and have the same length, just if they are of one variable or both without elements. -/
theorem one_storage (d : Descriptor) (loader : KernelLoader) (acts : List Action) :
    let r := (ofDescriptor d loader).after acts
    let log := (ofDescriptor d loader).trail acts
    Coherent log ∧ ∀ c, r.compiled = some c →
      (∃ inputs outputs, r.inputViews = .ok inputs ∧ r.outputViews = .ok outputs ∧
        inputs.map View.name = d.inputs ∧ outputs.map View.name = d.outputs ∧
        ∀ v ∈ inputs ++ outputs, v ∈ c.buffers.views) ∧
      (∀ v ∈ c.buffers.views,
        (∃ region, d.buffers.get? v.name = some region ∧ v.size = region.size.toNat) ∧
        v.elements r.bank = contents log v.name v.size ∧
        r.elementsOf v.name = .ok (contents log v.name v.size) ∧
        ∀ a : Action, (∀ index x, .write v.name index x ∉ r.accesses a) →
          v.elements (r.act a).2.bank = v.elements r.bank) ∧
      (∀ t e t₀, r.start t = (.ok e, t₀) → ∀ ts k call b,
        (e.after ts k).callAt (ts k) = some (call, b) →
        ∃ i, d.instructions[(e.after ts k).position]? = some i ∧
          call.args.inputs.map View.name = i.inputs ∧
          call.args.outputs.map View.name = i.outputs ∧
          ∀ v ∈ call.args.inputs ++ call.args.outputs, v ∈ c.buffers.views ∧
            v.elements b = contents (log ++ e.accessesBefore ts k) v.name v.size) ∧
      ∀ v ∈ c.buffers.views, ∀ w ∈ c.buffers.views,
        (v.aliases w = true ↔ v.name = w.name ∨ v.size = 0 ∧ w.size = 0) ∧
        ∀ p : Placement r.bank,
          v.aliases w = true ↔ p.address v.cell = p.address w.cell ∧ v.size = w.size := by
  intro r log
  have hlived : Lived d loader ((ofDescriptor d loader).record acts) r :=
    (Lived.new d loader).after acts
  have hstores : r.Stores log := (Stores.new d loader).after acts
  refine ⟨hstores.coherent, fun c hc => ?_⟩
  obtain ⟨c₀, b, data, hholds⟩ : ∃ c₀ b data, r.Holds c₀ b data := by
    obtain ⟨c₀, hholds⟩ := hlived.holds c hc
    exact ⟨c₀, _, _, hholds⟩
  obtain rfl : c₀.refill b data = c := Option.some.inj (hholds.compiled.symm.trans hc)
  have hnames := (hstores.faithful _ hc).distinct
  have hbank : r.bank = b := by
    rw [bank, hc]
    rfl
  have hdescriptor : r.descriptor = d := hlived.descriptor
  refine ⟨?_, fun v hv => ?_, fun t e t₀ hstart ts k call b' hcall => ?_, fun v hv w hw => ?_⟩
  · -- the declared inputs and outputs
    rw [← hdescriptor]
    exact declared_views hholds
  · -- a variable: its region, what it shows, and calls that do not write it
    have hshown := hstores.elements hc hv
    obtain ⟨helements, hregion⟩ := elementsOf_of_mem_views hholds hnames hv
    rw [hdescriptor] at hregion
    rw [← hbank, hshown] at helements
    refine ⟨hregion, hshown, helements, fun a ha => ?_⟩
    obtain ⟨c', hc', hviews⟩ := views_act hc a
    have hact := (hstores.act a).elements hc' (hviews ▸ hv)
    rw [hact, hshown, contents_of_not_written ha]
  · -- what a kernel is given
    rw [← hdescriptor]
    exact call_of_pass hholds hstores hstart hcall
  · -- when two views alias
    refine ⟨View.aliases_iff hnames hv hw, ?_⟩
    rw [hbank]
    exact View.aliases_iff_address hv hw

/-- A graph with two variables whose regions are the same, one of them declared twice. -/
def overlaid : Descriptor :=
  { Descriptor.default with
    buffers := ⟨2, [("a", ⟨0, 2⟩), ("b", ⟨0, 2⟩)], by decide⟩
    inputs := ["a", "a"]
    outputs := ["b"] }

/-- What it is compiled to. -/
def overlaidGraph : Compiled where
  weights := ⟨[], [], #[]⟩
  buffers := ⟨["a", "b"], [#[.zero, .zero], #[.zero, .zero]]⟩
  kernels := .empty
  program := []
  inputs := [0, 0]
  outputs := [1]

/-- A runner for the graph. -/
def overlay : Runner := ofDescriptor overlaid ⟨fun _ => .ok .empty⟩

theorem compile_overlay :
    (overlay.compile quiet).2.1 = { overlay with compiled := some overlaidGraph } := by
  have hw : Weights.allocate overlaid.weights = .ok overlaidGraph.weights :=
    Weights.allocate_empty
  have hbuild : build ⟨fun _ => .ok .empty⟩ overlaid = .ok overlaidGraph := by
    rw [build, hw]
    rfl
  simp only [compile, overlay, ofDescriptor, hbuild]

/-- Writing to one of the two variables leaves the other one alone. -/
theorem one_storage_overlaid :
    let r := overlay.after [.compile quiet, .setInput "a" [.one, .one]]
    (∃ c, r.compiled = some c) ∧ r.elementsOf "a" = .ok [.one, .one] ∧
      r.elementsOf "b" = .ok [.zero, .zero] ∧ r.inputViews = .ok [⟨"a", 0, 2⟩, ⟨"a", 0, 2⟩] := by
  intro r
  have hcompiled : r.compiled =
      some { overlaidGraph with buffers.bank := [#[.one, .one], #[.zero, .zero]] } := by
    show (overlay.after _).compiled = _
    rw [after, act, compile_overlay]
    rfl
  have hlog : overlay.trail [.compile quiet, .setInput "a" [.one, .one]] =
      [.write "a" 0 .one, .write "a" 1 .one] := by
    rw [trail, act, compile_overlay]
    rfl
  obtain ⟨-, h⟩ := one_storage overlaid ⟨fun _ => .ok .empty⟩
    [.compile quiet, .setInput "a" [.one, .one]]
  rw [← overlay, hlog] at h
  obtain ⟨-, hviews, -⟩ := h _ hcompiled
  obtain ⟨-, -, ha, -⟩ := hviews ⟨"a", 0, 2⟩ (by decide)
  obtain ⟨-, -, hb, -⟩ := hviews ⟨"b", 1, 2⟩ (by decide)
  refine ⟨⟨_, hcompiled⟩, ha, hb, ?_⟩
  rw [inputViews, requireCompiled, hcompiled]
  rfl

end Runner

end InferenceEngine
