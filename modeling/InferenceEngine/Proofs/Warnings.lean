import InferenceEngine.Proofs.References
import InferenceEngine.Proofs.Traces

/-!
# Warnings foretell failures

Compiling warns of names that are unknown and goes on, so that a run fails only when it comes to
them. `Runner.warnings_exact` is the main statement: compiling logs one warning for each unknown
reference, and these tell how far any later run can get. Without a warning no lookup of the engine
ever fails; with one, the first instruction that was warned of is where every run ends whose kernels
all succeed.

* `Execution.Barred` — the invariant of a pass that has such an instruction ahead of it.
  `Barred.step_cases` says what its steps can do and `Barred.step` that they preserve it;
  `Barred.endsAt` is for whole runs.
* `Runner.holds_after` — whatever is done with a compiled runner, it looks up what it was compiled
  to.
-/

namespace InferenceEngine

/-! ## What is logged -/

/-- The entry of a line that is logged on a thread. -/
def Thread.entryOf (t : Thread) (s : Severity) (text : String) : Entry :=
  .log ⟨t.clock t.readings / 1000000000, s, t.context, text⟩

theorem Thread.emit_of_full {t : Thread} (h : t.level = .full) (s : Severity) (text : String) :
    t.emit s text = t.write (t.entryOf s text) := by
  have hpasses : s.passes t.level = true := by
    rw [h]
    rfl
  rw [emit, if_pos hpasses]
  rfl

/-- Every warning is logged, one after the other. -/
theorem Runner.logWarnings_of_full {t : Thread} (h : t.level = .full) (ws : List LinkWarning) :
    logWarnings ws t = t.writeAll (ws.map fun w => t.entryOf .warning w.text) := by
  induction ws generalizing t with
  | nil =>
    rw [List.map_nil, Thread.writeAll, List.append_nil]
    rfl
  | cons w rest ih =>
    rw [logWarnings, List.foldl_cons, ← logWarnings, Thread.emit_of_full h]
    have hrest := ih (t := t.write (t.entryOf .warning w.text)) h
    rw [hrest, Thread.writeAll, Thread.writeAll, Thread.write, List.append_assoc]
    rfl

/-- A call that has succeeded has executed its instruction. -/
theorem Outcome.eq_executed_of_map {o : Outcome Unit} {s : StepOutcome}
    (h : o.map (fun _ => .executed) = .ok s) : s = .executed := by
  cases o with
  | ok u => exact (Outcome.ok.inj h).symm
  | error f => cases h
  | panic p => cases h

namespace Execution

variable {e e' : Execution} {t t' : Thread} {tb : Tables} {index : Nat} {f : Failure}

/-! ## What is said about passes -/

/-- The engine refuses nothing: if a step fails as a lookup does, it is the kernel that was called
that has answered so. -/
def Unrefused (e : Execution) : Prop :=
  ∀ ts k f, e.outcomeAt ts k = .error f → f.isLookup = true →
    ∃ i call, (e.after ts k).callAt (ts k) = some (call, (e.after ts k).bank) ∧
      (invoke call (e.after ts k).bank ((e.after ts k).kernelThread i (ts k))).1 = .error f

/-- However the steps are taken, they get to an instruction at most, and there every one that does
not give way fails without a call. -/
def RefusedAt (e : Execution) (index : Nat) (f : Failure) : Prop :=
  ∀ ts k, (e.after ts k).position ≤ index ∧
    ((e.after ts k).position = index → (e.after ts k).callAt (ts k) = none ∧
      (e.outcomeAt ts k = .error f ∨ ∃ p, e.outcomeAt ts k = .ok (.yielded p)))

/-- Steps that end with `o` and leave `e'` end at an instruction, if all kernels that they call
succeed; if not, they end at an earlier one as its kernel does. -/
def EndsAt (ss : List StepRecord) (o : Outcome Unit) (e' : Execution) (index : Nat) (f : Failure) :
    Prop :=
  (o = .error f ∧ e'.position = index ∧
      ∀ s ∈ ss, s.call.isSome = true → s.outcome = .ok .executed) ∨
    (¬ o.Succeeds ∧ e'.position < index ∧
      ∃ s ∈ ss, s.call.isSome = true ∧ s.outcome = o.map fun _ => .executed)

/-! ## A pass that cannot get past an instruction -/

/-- The pass has not come past instruction `index`, which is refused when it is looked up, and every
instruction before it is not. -/
structure Barred (e : Execution) (tb : Tables) (index : Nat) (f : Failure) : Prop where
  /-- what is looked up -/
  runs : e.Runs tb
  /-- the end has not been announced -/
  unfinished : e.isFinished = false
  /-- the pass has not come past the instruction -/
  position_le : e.position ≤ index
  /-- those before it are looked up -/
  before : ∀ j i, j < index → e.instructions[j]? = some i → ∃ call, tb.call j i = .ok call
  /-- it is not -/
  refused : ∃ i, e.instructions[index]? = some i ∧ tb.call index i = .error f

namespace Barred

theorem lt_total (h : e.Barred tb index f) : index < e.total := by
  obtain ⟨i, hi, -⟩ := h.refused
  rw [h.runs.total]
  exact (List.getElem?_eq_some_iff.mp hi).1

theorem left (h : e.Barred tb index f) : e.position ≠ e.total :=
  Nat.ne_of_lt (Nat.lt_of_le_of_lt h.position_le h.lt_total)

/-- At the instruction the pass is stuck. -/
theorem stuck (h : e.Barred tb index f) (hpos : e.position = index) : e.Stuck f := by
  obtain ⟨i, hi, hcall⟩ := h.refused
  refine ⟨h.unfinished, h.left, ?_⟩
  rw [hpos, h.runs.prepare hi, hcall]
  rfl

/-- Before it a kernel is ready to be called. -/
theorem prepare (h : e.Barred tb index f) (hpos : e.position < index) :
    ∃ i call, e.prepare e.position = .ok (i, call) := by
  have hlt : e.position < e.instructions.length := by
    rw [← h.runs.total]
    exact Nat.lt_trans hpos h.lt_total
  have hi := List.getElem?_eq_getElem hlt
  obtain ⟨call, hcall⟩ := h.before _ _ hpos hi
  refine ⟨e.instructions[e.position], call, ?_⟩
  rw [h.runs.prepare hi, hcall]
  rfl

/-- **What a step can do there**: give way, be refused at the instruction, or call a kernel for an
earlier one and end as the kernel does. -/
theorem step_cases (h : e.Barred tb index f) (t : Thread) :
    ((∃ p, (e.step t).1 = .ok (.yielded p)) ∧ e.callAt t = none) ∨
    (e.position = index ∧ (e.step t).1 = .error f ∧ e.callAt t = none) ∨
    (e.position < index ∧ ∃ i call, e.callAt t = some (call, e.bank) ∧
      (e.step t).1 = (invoke call e.bank (e.kernelThread i t)).1.map fun _ => .executed) := by
  rcases Nat.lt_or_eq_of_le h.position_le with hlt | hpos
  · by_cases hdue : e.Due t
    · refine .inl ⟨⟨e.notice t, ?_⟩, if_neg fun hd => hd.2.2 hdue⟩
      rw [step_of_due h.unfinished h.left hdue]
    · have hd : e.Dispatches t := ⟨h.unfinished, h.left, hdue⟩
      obtain ⟨i, call, hprep⟩ := h.prepare hlt
      exact .inr (.inr ⟨hlt, i, call, callAt_eq_some.mpr ⟨hd, rfl, i, hprep⟩,
        (step_of_call hd hprep).1⟩)
  · obtain ⟨hcall, -, ho | hyield, -⟩ := (h.stuck hpos).step t
    · exact .inr (.inl ⟨hpos, ho, hcall⟩)
    · exact .inl ⟨hyield, hcall⟩

/-- Only before the instruction a step executes anything. -/
theorem position_lt_of_executed (h : e.Barred tb index f)
    (hexecuted : (e.step t).1 = .ok .executed) :
    e.position < index := by
  rcases h.step_cases t with ⟨⟨p, ho⟩, -⟩ | ⟨-, ho, -⟩ | ⟨hlt, -⟩
  · cases ho.symm.trans hexecuted
  · cases ho.symm.trans hexecuted
  · exact hlt

/-- No step announces the end. -/
theorem ne_finished (h : e.Barred tb index f) (p : Progress) :
    (e.step t).1 ≠ .ok (.finished p) := by
  intro hp
  rcases h.step_cases t with ⟨⟨q, ho⟩, -⟩ | ⟨-, ho, -⟩ | ⟨-, i, call, -, ho⟩
  · cases ho.symm.trans hp
  · cases ho.symm.trans hp
  · cases Outcome.eq_executed_of_map (ho.symm.trans hp)

/-- **What a step preserves.** -/
theorem step (h : e.Barred tb index f) (t : Thread) : (e.step t).2.1.Barred tb index f := by
  have hsame := samePass_step e t
  have hend : (e.step t).2.1.isFinished = false ∧ (e.step t).2.1.position ≤ index := by
    -- only a step that executes an instruction moves on, and it does so from before `index`
    by_cases hexecuted : (e.step t).1 = .ok .executed
    · rw [position_step_of_executed hexecuted]
      refine ⟨?_, h.position_lt_of_executed hexecuted⟩
      have hd := dispatches_of_executed hexecuted
      rw [step_of_dispatches hd] at hexecuted ⊢
      obtain ⟨b, trace, ⟨-, -, hstate⟩ | ⟨hfail, ho, -⟩⟩ := advance_cases e (e.poll t).2.2
      · rw [hstate]
        exact h.unfinished
      · rw [ho] at hexecuted
        exact absurd (Outcome.succeeds_of_map_eq_ok hexecuted) hfail
    · obtain ⟨hposition, hfinished, -⟩ := frame_step hexecuted h.ne_finished
      rw [hposition, hfinished]
      exact ⟨h.unfinished, h.position_le⟩
  refine ⟨h.runs.of_samePass hsame (shape_step e t), hend.1, hend.2, ?_, ?_⟩
  · rw [hsame.instructions]
    exact h.before
  · rw [hsame.instructions]
    exact h.refused

theorem of_step {o : Outcome StepOutcome} (h : e.Barred tb index f)
    (hstep : e.step t = (o, e', t')) :
    e'.Barred tb index f := by
  have hnext := h.step t
  rwa [hstep] at hnext

theorem after (h : e.Barred tb index f) (ts : Nat → Thread) (k : Nat) :
    (e.after ts k).Barred tb index f := by
  induction k with
  | zero => exact h
  | succ k ih => exact ih.step (ts k)

theorem refusedAt (h : e.Barred tb index f) : e.RefusedAt index f := by
  intro ts k
  have hk := h.after ts k
  refine ⟨hk.position_le, fun hpos => ?_⟩
  obtain ⟨hcall, -, ho, -⟩ := (hk.stuck hpos).step (ts k)
  exact ⟨hcall, ho⟩

/-- A driver ends at the instruction, or before it with a kernel that does not succeed. -/
theorem endsAt {tell : Progress → Thread → Thread} {ss : List StepRecord} {o : Outcome Unit}
    (hdriven : Driven tell e t ss o e' t') (h : e.Barred tb index f) : EndsAt ss o e' index f := by
  induction hdriven with
  | @finish e e' t t' p hstep => exact absurd (congrArg Prod.fst hstep) (h.ne_finished p)
  | @stop e e' t t' o hstep hstop =>
    have ho : (e.step t).1 = o.map fun _ => .executed := congrArg Prod.fst hstep
    have hposition : e'.position = e.position := by
      have hposition := position_step e t
      rw [hstep] at hposition
      rw [hposition, List.count_singleton, beq_false_of_ne]
      · rfl
      · exact fun hexecuted => hstop (Outcome.succeeds_of_map_eq_ok hexecuted)
    rw [EndsAt, hposition]
    rcases h.step_cases t with ⟨⟨p, hp⟩, -⟩ | ⟨hpos, hf, hnone⟩ | ⟨hlt, i, call, hcall, -⟩
    · exact absurd (Outcome.succeeds_of_map_eq_ok (ho.symm.trans hp)) hstop
    · refine .inl ⟨Outcome.map_eq_error.mp (ho.symm.trans hf), hpos, fun s hs hsome => ?_⟩
      obtain rfl := List.mem_singleton.mp hs
      rw [observe, hnone] at hsome
      cases hsome
    · refine .inr ⟨hstop, hlt, _, List.mem_singleton_self _, ?_, ho⟩
      rw [observe, hcall]
      rfl
  -- a call that is executed succeeds, so the first end gains a call and the second stays
  | @execute e e' e'' t t' t'' ss o hstep rest ih =>
    have hexecuted : (e.observe t).outcome = .ok .executed := outcome_observe hstep
    refine (ih (h.of_step hstep)).imp ?_ ?_
    · rintro ⟨hf, hpos, hcalls⟩
      exact ⟨hf, hpos, List.forall_mem_cons.mpr ⟨fun _ => hexecuted, hcalls⟩⟩
    · rintro ⟨hstop, hlt, s, hs, hcall⟩
      exact ⟨hstop, hlt, s, List.mem_cons_of_mem _ hs, hcall⟩
  | @yield e e' e'' t t' t'' p ss o hstep rest ih =>
    have hnone : (e.observe t).call = none := by
      rcases h.step_cases t with ⟨-, hnone⟩ | ⟨-, -, hnone⟩ | ⟨-, i, call, -, ho⟩
      · exact hnone
      · exact hnone
      · cases Outcome.eq_executed_of_map (ho.symm.trans (congrArg Prod.fst hstep))
    refine (ih (h.of_step hstep)).imp ?_ ?_
    · rintro ⟨hf, hpos, hcalls⟩
      refine ⟨hf, hpos, List.forall_mem_cons.mpr ⟨fun hsome => ?_, hcalls⟩⟩
      rw [hnone] at hsome
      cases hsome
    · rintro ⟨hstop, hlt, s, hs, hcall⟩
      exact ⟨hstop, hlt, s, List.mem_cons_of_mem _ hs, hcall⟩

end Barred

end Execution

/-! ## Compiled runners -/

namespace Runner

open Execution

variable {r : Runner} {c : Compiled} {b : Bank} {data : Array Single}

/-- Whatever is done with a compiled runner, it stays compiled to the same graph. -/
theorem holds_after (h : r.Holds c b data) (acts : List Action) :
    (r.after acts).descriptor = r.descriptor ∧ ∃ b' data', (r.after acts).Holds c b' data' := by
  induction acts generalizing r b data with
  | nil => exact ⟨rfl, b, data, h⟩
  | cons a rest ih =>
    obtain ⟨-, hnone, -⟩ | ⟨-, bytes, c', values, -, hc', -, hsize, hact⟩ | ⟨hkept, -⟩ :=
      act_cases r a
    · cases hnone.symm.trans h.compiled
    · obtain rfl := Option.some.inj (h.compiled.symm.trans hc')
      have hfilled : (r.act a).2.Holds c b values.toArray := by
        rw [hact]
        exact ⟨h.built, rfl, h.shape, hsize.trans h.size⟩
      obtain ⟨hdescriptor, hrest⟩ := ih hfilled
      refine ⟨hdescriptor.trans ?_, hrest⟩
      rw [hact]
    · have hcompiled : (r.act a).2.isCompiled = true := by
        rw [hkept.isCompiled, isCompiled, h.compiled]
        rfl
      obtain ⟨c', hc'⟩ := Option.isSome_iff_exists.mp hcompiled
      obtain ⟨hdescriptor, hrest⟩ := ih (hkept.holds h hc')
      exact ⟨hdescriptor.trans hkept.descriptor, hrest⟩

/-! ## Passes of compiled runners -/

variable {e : Execution} {d : Descriptor} {kernels : Registry} {index : Nat}

/-- Without unknown references the engine refuses nothing. -/
theorem unrefused_of_unknowns (hruns : e.Runs ⟨kernels, d.buffers, d.weights, data⟩)
    (hinstructions : e.instructions = d.instructions) (hpoised : e.Poised 0 e.started false)
    (hnone : d.unknowns kernels = []) : e.Unrefused := by
  intro ts k f ho hf
  refine (stuck_of_lookup hf ho).resolve_right fun hstuck => ?_
  have honward := Onward.after e ts k
  have hlater := hruns.of_samePass honward.same honward.shape
  have hle : (e.after ts k).position ≤ (e.after ts k).total := by
    refine honward.le_total ?_
    rw [hpoised.position]
    exact Nat.zero_le _
  -- a pass is stuck at an instruction that there is, which then has an unknown reference
  have hlt : (e.after ts k).position < (e.after ts k).instructions.length := by
    rw [← hlater.total]
    exact Nat.lt_of_le_of_ne hle hstuck.left
  obtain ⟨i, hi⟩ : ∃ i, (e.after ts k).instructions[(e.after ts k).position]? = some i :=
    ⟨_, List.getElem?_eq_getElem hlt⟩
  have hprep := (hlater.prepare hi).symm.trans hstuck.prepare
  rcases Tables.call_cases kernels d data (e.after ts k).position i with
    ⟨-, call, hcall⟩ | ⟨⟨w, href, hunknown⟩, -⟩
  · rw [hcall] at hprep
    cases hprep
  · have hindex := index_of_mem_references href
    rw [honward.same.instructions, hinstructions, ← hindex] at hi
    rw [← hindex] at href
    have hw : w ∈ d.unknowns kernels := mem_unknowns.mpr ⟨_, hi, href, hunknown⟩
    rw [hnone] at hw
    cases hw

/-- The first instruction with an unknown reference bars every pass. -/
theorem barred_of_unknowns (hruns : e.Runs ⟨kernels, d.buffers, d.weights, data⟩)
    (hinstructions : e.instructions = d.instructions) (hpoised : e.Poised 0 e.started false)
    (hmem : ∃ w ∈ d.unknowns kernels, w.index = index)
    (hfirst : ∀ w ∈ d.unknowns kernels, index ≤ w.index) :
    ∃ i, d.instructions[index]? = some i ∧
      e.Barred ⟨kernels, d.buffers, d.weights, data⟩ index (d.refusal index i) := by
  obtain ⟨w, hw, rfl⟩ := hmem
  obtain ⟨i, hi, href, hunknown⟩ := mem_unknowns.mp hw
  refine ⟨i, hi, hruns, hpoised.unfinished, ?_, fun j i' hj hi' => ?_, i, ?_, ?_⟩
  · rw [hpoised.position]
    exact Nat.zero_le _
  · rcases Tables.call_cases kernels d data j i' with ⟨-, hcall⟩ | ⟨⟨w', href', hunknown'⟩, -⟩
    · exact hcall
    · -- an unknown reference before the first one
      obtain rfl := index_of_mem_references href'
      rw [hinstructions] at hi'
      have hle := hfirst w' (mem_unknowns.mpr ⟨i', hi', href', hunknown'⟩)
      exact absurd hj (Nat.not_lt.mpr hle)
  · rw [hinstructions]
    exact hi
  · rcases Tables.call_cases kernels d data w.index i with ⟨hknown, -⟩ | ⟨-, hcall⟩
    · cases (hknown w href).symm.trans hunknown
    · exact hcall

/-- Compiling logs one warning for each unknown reference, and then what it has made. -/
theorem journal_compile (hnone : r.compiled = none) (hbuild : build r.loader r.descriptor = .ok c)
    {t : Thread} (hfull : t.level = .full) :
    (r.compile t).2.2.journal = t.journal ++
      (r.descriptor.unknowns c.kernels).map (fun w => t.entryOf .warning w.text) ++
        [t.entryOf .trace (compiledText c)] := by
  rw [compile, hnone]
  dsimp only
  rw [hbuild]
  dsimp only
  rw [Descriptor.warnings_eq hbuild, logWarnings_of_full hfull,
    Thread.emit_of_full (t := t.writeAll _) hfull]
  rfl

/-- **Warnings foretell failures exactly.** Let compiling succeed on a runner that was not compiled.

* If everything is logged, then one warning is logged for each unknown reference: by instruction,
  and of an instruction first the entry point, then the inputs, the outputs and the weights as they
  are listed.
* If there are none, the engine refuses nothing, whatever is done with the runner before a pass and
  however the steps of the pass are taken.
* Otherwise no pass gets past the first instruction that was warned of. A run ends there if all
  kernels succeed that it calls, and with the failure of the input, the output, the weight or the
  entry point that is looked up first; if a kernel does not succeed, the run ends with that kernel
  at an earlier instruction. -/
theorem warnings_exact (r : Runner) (t : Thread) (hok : (r.compile t).1 = .ok ()) :
    let d := r.descriptor
    ∃ kernels, r.loader.materialize d.kernelSource = .ok kernels ∧
      (t.level = .full → ∃ text, (r.compile t).2.2.journal = t.journal ++
        (d.unknowns kernels).map (fun w => t.entryOf .warning w.text) ++ [t.entryOf .trace text]) ∧
      ∀ acts t', let r' := (r.compile t).2.1.after acts
        ∃ e t₀, r'.start t' = (.ok e, t₀) ∧
          (d.unknowns kernels = [] → e.Unrefused) ∧
          ∀ index, (∃ w ∈ d.unknowns kernels, w.index = index) →
            (∀ w ∈ d.unknowns kernels, index ≤ w.index) →
            ∃ i, d.instructions[index]? = some i ∧ e.RefusedAt index (d.refusal index i) ∧
              ∃ ss o e' t'', Driven r'.sink.tell e t₀ ss o e' t'' ∧
                r'.run t' = (o, r'.absorb e', e'.close t'') ∧
                r'.runAsync t' = (o, r'.absorb e', e'.close t'') ∧
                EndsAt ss o e' index (d.refusal index i) := by
  intro d
  obtain ⟨hnone, c, hbuild, hr⟩ := compile_of_ok hok
  refine ⟨c.kernels, (build_spec hbuild).1,
    fun hfull => ⟨compiledText c, journal_compile hnone hbuild hfull⟩, fun acts t' => ?_⟩
  intro r'
  have hholds : (r.compile t).2.1.Holds c c.buffers.bank c.weights.data := by
    rw [hr]
    exact ⟨hbuild, rfl, rfl, rfl⟩
  -- whatever is done with the runner, the graph and the descriptor are those that were compiled
  obtain ⟨hsame, b, data, hlater⟩ := holds_after hholds acts
  obtain ⟨e, t₀, hstart, hpoised, -, hinstructions, hruns⟩ := start_spec hlater t'
  rw [hsame, hr] at hinstructions hruns
  refine ⟨e, t₀, hstart, unrefused_of_unknowns hruns hinstructions hpoised,
    fun index hmem hfirst => ?_⟩
  obtain ⟨i, hi, hbarred⟩ := barred_of_unknowns hruns hinstructions hpoised hmem hfirst
  obtain ⟨ss, o, e', t'', hdriven, hlength⟩ := exists_driven hstart r'.sink.tell
  obtain ⟨hrun, hasync⟩ := runs_of_driven hstart hdriven hlength
  exact ⟨i, hi, hbarred.refusedAt, ss, o, e', t'', hdriven, hrun, hasync,
    Barred.endsAt hdriven hbarred⟩

/-- A thread on which everything is logged and no time passes. -/
def loud : Thread := { quiet with level := .full }

/-- Compiling warns of the variable that there is not, and whatever is done then, no pass gets past
its instruction. -/
theorem warnings_exact_relay :
    (relay.compile loud).1 = .ok () ∧
      (∃ text, (relay.compile loud).2.2.journal =
        [loud.entryOf .warning "instruction 2 references unknown input c",
          loud.entryOf .trace text]) ∧
      ∀ acts, ∃ e t₀, (relayed.after acts).start quiet = (.ok e, t₀) ∧
        e.RefusedAt 2 (.unresolvedReference .input "c" (some 2)) := by
  obtain ⟨hok, hr⟩ := compile_relay loud
  obtain ⟨kernels, hsource, hjournal, hpasses⟩ := warnings_exact relay loud hok
  obtain rfl : (⟨[("mark", Kernels.mark), ("copy", Kernels.copy)]⟩ : Registry) = kernels :=
    Except.ok.inj hsource
  refine ⟨hok, hjournal rfl, fun acts => ?_⟩
  obtain ⟨e, t₀, hstart, -, hfirst⟩ := hpasses acts quiet
  obtain ⟨i, hi, hrefused, -⟩ := hfirst 2 ⟨.operand 2 .input "c", by decide, rfl⟩ (by decide)
  obtain rfl := Option.some.inj hi
  rw [hr] at hstart
  exact ⟨e, t₀, hstart, hrefused⟩

end Runner

end InferenceEngine
