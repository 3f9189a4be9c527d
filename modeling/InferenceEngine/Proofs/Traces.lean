import InferenceEngine.Proofs.Compiling
import InferenceEngine.Proofs.Retries
import InferenceEngine.Proofs.Storage

/-!
# Traces

A runner keeps the events of its latest pass, if events were to be recorded when that pass began. A
pass may end in many ways: it may run through, fail, be broken off, or be dropped by a caller that
takes the steps itself; and between two passes the options may change. `Runner.trace_exact` is the
main statement: whatever was done before, the events are those of the instructions that the latest
pass has executed, each once and in order, and nothing else.

* `Execution.Logged` — the invariant of a pass. `logged_step` is its step; only a step that executes
  an instruction adds an event.
* `Execution.Driven.exists_after` — a run is one of the ways in which a caller may take the steps,
  so there is one induction for all ways in which a pass may be driven.
* `Runner.trace_act_of_idle` — a call that begins no pass leaves the events alone.
-/

namespace InferenceEngine

/-- The event says that instruction `index` of a run was executed. -/
structure TraceEvent.Tells (run : RunId) (instructions : List Instruction) (timed : Bool)
    (index : Nat) (event : TraceEvent) : Prop where
  /-- the run -/
  run_eq : event.run = run
  /-- the instruction -/
  index_eq : event.index = index
  /-- the names in it -/
  names : ∃ i, instructions[index]? = some i ∧ event.entry = i.entry ∧ event.inputs = i.inputs ∧
    event.outputs = i.outputs ∧ event.weights = i.weights
  /-- if kernels are not timed, there are no times -/
  timing_of_untimed : timed = false → event.timing = ⟨"", 0, 0, 0⟩
  /-- if they are, the times are those of a number of nanoseconds -/
  timing_of_timed : timed = true → ∃ total, event.timing = .ofNanos total

namespace Execution

variable {e e' : Execution} {t t' : Thread} {index : Nat} {i : Instruction} {call : Call}

/-! ## One step -/

/-- If events are recorded, they are those of the instructions that have been executed, in order. -/
def Logged (e : Execution) : Prop :=
  ∀ events, e.trace = some events →
    List.Forall₂ (TraceEvent.Tells e.run e.instructions e.timed) (List.range e.position) events

theorem instruction_of_prepare (h : e.prepare index = .ok (i, call)) :
    e.instructions[index]? = some i := by
  rw [prepare] at h
  obtain ⟨⟨i', s⟩, hfetch, h⟩ := Outcome.bind_eq_ok.mp h
  obtain ⟨call', -, h⟩ := Outcome.bind_eq_ok.mp h
  obtain ⟨rfl, -⟩ := Prod.mk.inj (Outcome.ok.inj h)
  rw [fetch] at hfetch
  cases hs : e.compiled.program[index]? with
  | none =>
    rw [hs] at hfetch
    cases hfetch
  | some s' =>
    cases hi : e.instructions[index]? with
    | none =>
      rw [hs, hi] at hfetch
      cases hfetch
    | some i'' =>
      rw [hs, hi] at hfetch
      obtain ⟨rfl, -⟩ := Prod.mk.inj (Outcome.ok.inj hfetch)
      rfl

theorem tells_timing (e : Execution) (index : Nat) (hi : e.instructions[index]? = some i)
    (before after : Thread) :
    TraceEvent.Tells e.run e.instructions e.timed index
      ⟨e.run, index, i.entry, i.inputs, i.outputs, i.weights, e.timing before after⟩ where
  run_eq := rfl
  index_eq := rfl
  names := ⟨i, hi, rfl, rfl, rfl, rfl⟩
  timing_of_untimed h := if_neg (ne_true_of_eq_false h)
  timing_of_timed h := ⟨_, if_pos h⟩

/-- A step that executes an instruction adds its event to those that are recorded. -/
theorem trace_step_of_executed (h : (e.step t).1 = .ok .executed) :
    ∃ event, TraceEvent.Tells e.run e.instructions e.timed e.position event ∧
      (e.step t).2.1.trace = e.trace.map (· ++ [event]) := by
  have hd : e.Dispatches t := dispatches_of_executed h
  rw [step_of_dispatches hd, advance, dispatch] at h ⊢
  cases hprep : e.prepare e.position with
  | error f => simp only [hprep, reduceCtorEq] at h
  | panic p => simp only [hprep, reduceCtorEq] at h
  | ok next =>
    obtain ⟨i, call⟩ := next
    simp only [hprep, execute_eq] at h ⊢
    rcases hinvoke : invoke call e.bank
      (e.callThread e.position i ((e.poll t).2.2.focus (some e.position))) with ⟨_ | f | p, b, t'⟩
    · exact ⟨_, tells_timing e e.position (instruction_of_prepare hprep) _ _, rfl⟩
    · simp only [hinvoke, reduceCtorEq] at h
    · simp only [hinvoke, reduceCtorEq] at h

/-- Any other step adds none. -/
theorem trace_step_of_not_executed (h : (e.step t).1 ≠ .ok .executed) :
    (e.step t).2.1.trace = e.trace := by
  rcases step_cases e t with ⟨-, hs⟩ | ⟨-, -, hs⟩ | ⟨-, -, -, hs⟩ | ⟨-, -, -, hs⟩
  · rw [hs]
  · rw [hs]
  · rw [hs]
    rfl
  · rw [hs] at h ⊢
    exact trace_advance h

/-- **What one step preserves.** -/
theorem logged_step (h : e.Logged) (t : Thread) :
    (e.step t).2.1.Logged ∧ (e.step t).2.1.trace.isSome = e.trace.isSome := by
  have hsame := samePass_step e t
  rw [Logged, hsame.run, hsame.instructions, hsame.timed]
  by_cases hexecuted : (e.step t).1 = .ok .executed
  · obtain ⟨event, htells, htrace⟩ := trace_step_of_executed hexecuted
    rw [htrace, position_step_of_executed hexecuted, List.range_succ]
    refine ⟨fun events hevents => ?_, Option.isSome_map⟩
    obtain ⟨earlier, hearlier, rfl⟩ := Option.map_eq_some_iff.mp hevents
    exact List.rel_append (h earlier hearlier) (.cons htells .nil)
  · rw [trace_step_of_not_executed hexecuted, position_step_of_not_executed hexecuted]
    exact ⟨h, rfl⟩

/-- **What any number of steps preserve.** -/
theorem logged_after (h : e.Logged) (ts : Nat → Thread) (k : Nat) :
    (e.after ts k).Logged ∧ (e.after ts k).trace.isSome = e.trace.isSome := by
  induction k with
  | zero => exact ⟨h, rfl⟩
  | succ k ih =>
    obtain ⟨hlogged, hsome⟩ := logged_step ih.1 (ts k)
    exact ⟨hlogged, hsome.trans ih.2⟩

/-! ## Drivers take steps -/

/-- The first of the steps may be set apart. -/
theorem after_cons (ts : Nat → Thread) (k : Nat) :
    e.after (fun | 0 => t | j + 1 => ts j) (k + 1) = (e.step t).2.1.after ts k := by
  induction k with
  | zero => rfl
  | succ k ih => rw [after, ih, after]

theorem outcomes_cons (ts : Nat → Thread) (k : Nat) :
    (List.range (k + 1)).map (e.outcomeAt fun | 0 => t | j + 1 => ts j) =
      (e.step t).1 :: (List.range k).map ((e.step t).2.1.outcomeAt ts) := by
  rw [List.range_succ_eq_map, List.map_cons, List.map_map]
  refine congrArg₂ _ rfl (List.map_congr_left fun j _ => ?_)
  rw [Function.comp_apply, outcomeAt, after_cons, outcomeAt]

/-- **A driver takes steps**, each on a thread of its own, and nothing else. -/
theorem Driven.exists_after {tell : Progress → Thread → Thread} {ss : List StepRecord}
    {o : Outcome Unit} (h : Driven tell e t ss o e' t') :
    ∃ ts, e' = e.after ts ss.length ∧
      ss.map StepRecord.outcome = (List.range ss.length).map (e.outcomeAt ts) := by
  induction h with
  | @finish e e' t t' p h =>
    refine ⟨fun _ => t, ?_, rfl⟩
    rw [List.length_singleton, after, after, h]
  | @stop e e' t t' o h hstop =>
    refine ⟨fun _ => t, ?_, rfl⟩
    rw [List.length_singleton, after, after, h]
  | @execute e e' e'' t t' t'' ss o h rest ih | @yield e e' e'' t t' t'' p ss o h rest ih =>
    obtain ⟨ts, hend, houtcomes⟩ := ih
    refine ⟨fun | 0 => t | j + 1 => ts j, ?_, ?_⟩
    · rw [List.length_cons, after_cons, h, hend]
    · rw [List.length_cons, outcomes_cons, List.map_cons, houtcomes, h, outcome_observe h]

end Execution

/-! ## Calls that begin a pass -/

open Execution

namespace Action

/-- The call is for a pass. -/
def isPass : Action → Bool
  | run _ | runAsync _ | pass _ _ _ => true
  | _ => false

end Action

namespace Event

/-- The call has begun the pass `e`, and the steps that were taken of it have ended with `os`. -/
inductive Passes : Event → Execution → List (Outcome StepOutcome) → Prop
  /-- a run takes the steps up to the end or to the first that fails -/
  | run {r : Runner} {t t₀ t' : Thread} {e e' : Execution} {ss : List StepRecord} {o : Outcome Unit}
    (hstart : r.start t = (.ok e, t₀)) (h : Driven r.sink.tell e t₀ ss o e' t') :
    Passes ⟨r, .run t⟩ e (ss.map StepRecord.outcome)
  /-- so does a run that suspends -/
  | runAsync {r : Runner} {t t₀ t' : Thread} {e e' : Execution} {ss : List StepRecord}
    {o : Outcome Unit} (hstart : r.start t = (.ok e, t₀))
    (h : Driven r.sink.tell e t₀ ss o e' t') :
    Passes ⟨r, .runAsync t⟩ e (ss.map StepRecord.outcome)
  /-- a caller takes as many as it likes -/
  | pass {r : Runner} {t t₀ : Thread} {e : Execution} (hstart : r.start t = (.ok e, t₀))
    (steps : Nat) (ts : Nat → Thread) :
    Passes ⟨r, .pass t steps ts⟩ e ((List.range steps).map (e.outcomeAt ts))

/-- The call has begun a pass. -/
def Begins (v : Event) : Prop := ∃ e os, v.Passes e os

end Event

namespace Runner

variable {r : Runner} {e : Execution} {os : List (Outcome StepOutcome)} {v : Event} {a : Action}

theorem start_of_compiled {c : Compiled} (hc : r.compiled = some c) (t : Thread) :
    ∃ e t₀, r.start t = (.ok e, t₀) := by
  rw [start, hc]
  exact ⟨_, _, rfl⟩

/-- What a pass begins with. -/
theorem start_eq {t t₀ : Thread} (h : r.start t = (.ok e, t₀)) :
    e.instructions = r.descriptor.instructions ∧ e.timed = r.options.timer ∧ e.position = 0 ∧
      e.trace = if r.options.traceEvents then some [] else none := by
  rw [start] at h
  cases hc : r.compiled with
  | none =>
    rw [hc] at h
    cases h
  | some c =>
    rw [hc] at h
    obtain ⟨he, -⟩ := Prod.mk.inj h
    obtain rfl := Except.ok.inj he
    exact ⟨rfl, rfl, rfl, rfl⟩

/-- Every call for a pass begins one if the runner is compiled, and no other call does. -/
theorem begins_iff : v.Begins ↔ v.action.isPass = true ∧ v.runner.isCompiled = true := by
  constructor
  · have hcompiled {r : Runner} {t t₀ : Thread} {e : Execution} (h : r.start t = (.ok e, t₀)) :
        r.isCompiled = true := by
      rw [isCompiled, (poised_of_start h).1]
      rfl
    rintro ⟨e, os, hpasses⟩
    cases hpasses with
    | run hstart h => exact ⟨rfl, hcompiled hstart⟩
    | runAsync hstart h => exact ⟨rfl, hcompiled hstart⟩
    | pass hstart steps ts => exact ⟨rfl, hcompiled hstart⟩
  · obtain ⟨r, a⟩ := v
    rintro ⟨ha, hcompiled⟩
    obtain ⟨c, hc⟩ := Option.isSome_iff_exists.mp hcompiled
    -- each of the three calls for a pass takes its steps in its own way
    cases a with
    | run t =>
      obtain ⟨e, t₀, hstart⟩ := start_of_compiled hc t
      obtain ⟨ss, o, e', t', hdriven, -⟩ := exists_driven hstart r.sink.tell
      exact ⟨e, _, .run hstart hdriven⟩
    | runAsync t =>
      obtain ⟨e, t₀, hstart⟩ := start_of_compiled hc t
      obtain ⟨ss, o, e', t', hdriven, -⟩ := exists_driven hstart r.sink.tell
      exact ⟨e, _, .runAsync hstart hdriven⟩
    | pass t steps ts =>
      obtain ⟨e, t₀, hstart⟩ := start_of_compiled hc t
      exact ⟨e, _, .pass hstart steps ts⟩
    | _ => cases ha

/-- A run ends as any driver does that tells the sink: there is only one way to take the steps. -/
theorem run_of_driven {t t₀ t' : Thread} {e' : Execution} {ss : List StepRecord} {o : Outcome Unit}
    (hstart : r.start t = (.ok e, t₀)) (h : Driven r.sink.tell e t₀ ss o e' t') :
    r.run t = (o, r.absorb e', e'.close t') := by
  obtain ⟨ss₁, o₁, e₁, t₁, hdriven, hlength⟩ := exists_driven hstart r.sink.tell
  -- both drivers are runs with budget to spare
  have hdrive := drive_of_driven h ss₁.length
  rw [Nat.add_comm, drive_of_driven hdriven] at hdrive
  obtain ⟨rfl, hrest⟩ := Prod.mk.inj hdrive
  obtain ⟨rfl, rfl⟩ := Prod.mk.inj hrest
  exact (runs_of_driven hstart hdriven hlength).1

/-- A call that begins a pass leaves what the steps of the pass have left. -/
theorem absorbed_of_passes (h : v.Passes e os) :
    ∃ t t₀ ts k, v.runner.start t = (.ok e, t₀) ∧ os = (List.range k).map (e.outcomeAt ts) ∧
      (v.runner.act v.action).2 = v.runner.absorb (e.after ts k) := by
  cases h with
  | @run r t t₀ t' e e' ss o hstart h =>
    obtain ⟨ts, hend, houtcomes⟩ := h.exists_after
    refine ⟨t, t₀, ts, ss.length, hstart, houtcomes, ?_⟩
    rw [act, run_of_driven hstart h, hend]
  | @runAsync r t t₀ t' e e' ss o hstart h =>
    obtain ⟨ts, hend, houtcomes⟩ := h.exists_after
    refine ⟨t, t₀, ts, ss.length, hstart, houtcomes, ?_⟩
    rw [act, runAsync_eq_run, run_of_driven hstart h, hend]
  | @pass r t t₀ e hstart steps ts =>
    refine ⟨t, t₀, ts, steps, hstart, rfl, ?_⟩
    rw [act, hstart]

/-- The events after a pass. -/
theorem trace_of_passes (h : v.Passes e os) :
    (v.runner.options.traceEvents = false → (v.runner.act v.action).2.trace = []) ∧
      (v.runner.options.traceEvents = true →
        List.Forall₂
          (TraceEvent.Tells e.run v.runner.descriptor.instructions v.runner.options.timer)
          (List.range (os.count (.ok .executed))) (v.runner.act v.action).2.trace) := by
  obtain ⟨t, t₀, ts, k, hstart, rfl, hact⟩ := absorbed_of_passes h
  obtain ⟨hinstructions, htimed, hposition, htrace⟩ := start_eq hstart
  -- a pass that records begins with no events, as it should at the first instruction
  have hfresh : e.Logged := by
    intro events hevents
    rw [htrace] at hevents
    obtain ⟨-, hevents⟩ := Option.ite_none_right_eq_some.mp hevents
    obtain rfl := Option.some.inj hevents
    rw [hposition]
    exact .nil
  obtain ⟨hlogged, hsome⟩ := logged_after hfresh ts k
  rw [hact, absorb]
  refine ⟨fun hoff => ?_, fun hon => ?_⟩
  · rw [htrace, hoff] at hsome
    rw [Option.isSome_eq_false_iff.mp hsome |> Option.isNone_iff_eq_none.mp]
    rfl
  · rw [htrace, hon] at hsome
    obtain ⟨events, hevents⟩ := Option.isSome_iff_exists.mp hsome
    have hsame := samePass_after e ts k
    have htells := hlogged events hevents
    rw [position_after, hposition, Nat.zero_add, hsame.run, hsame.instructions, hsame.timed,
      hinstructions, htimed] at htells
    rw [hevents]
    exact htells

/-! ## Calls that begin none -/

theorem trace_loadWeights (r : Runner) (bytes : Bytes) (t : Thread) :
    (r.loadWeights bytes t).2.1.trace = r.trace := by
  rcases loadWeights_cases r bytes t with ⟨-, c, values, -, -, -, -, hr⟩ | ⟨-, hr⟩
  · rw [hr]
  · rw [hr]

theorem trace_useViews (r : Runner) (views : Outcome (List View)) (body : Kernel) (t : Thread) :
    (r.useViews views body t).2.trace = r.trace := by
  cases views <;> rfl

/-- A call that begins no pass leaves the events alone. -/
theorem trace_act_of_idle (h : ¬ Event.Begins ⟨r, a⟩) : (r.act a).2.trace = r.trace := by
  -- a call for a pass that begins none comes before the runner is compiled
  have hfresh (ha : a.isPass = true) : r.isCompiled = false :=
    Bool.eq_false_of_not_eq_true fun hcompiled => h (begins_iff.mpr ⟨ha, hcompiled⟩)
  cases a with
  | run t => rw [act_of_fresh (hfresh rfl) rfl]
  | runAsync t => rw [act_of_fresh (hfresh rfl) rfl]
  | pass t steps ts => rw [act_of_fresh (hfresh rfl) rfl]
  | compile t =>
    rw [act]
    rcases compile_cases r t with ⟨-, c, -, -, hr⟩ | ⟨-, hr⟩
    · rw [hr]
    · rw [hr]
  | loadWeights bytes t => exact trace_loadWeights r bytes t
  | loadWeightsFrom m t => exact trace_loadWeights r m.weights t
  | setInput name values =>
    rw [act]
    cases hset : r.setInput name values with
    | error f => rfl
    | panic p => rfl
    | ok r' =>
      obtain ⟨c, v, -, -, -, -, rfl⟩ := setInput_eq_ok hset
      rfl
  | useInputs body t => exact trace_useViews r _ body t
  | useOutputs body t => exact trace_useViews r _ body t
  | elementsOf name => rfl
  | weightOf name => rfl
  | equip options sink decoders => rfl

theorem trace_after_of_idle {acts : List Action} (h : ∀ w ∈ r.record acts, ¬ w.Begins) :
    (r.after acts).trace = r.trace := by
  induction acts generalizing r with
  | nil => rfl
  | cons a rest ih =>
    rw [record] at h
    obtain ⟨hfirst, hrest⟩ := List.forall_mem_cons.mp h
    rw [after, ih hrest, trace_act_of_idle hfirst]

/-- A call of a history is made on the runner after the calls before it, and those after it are made
on the runner that it leaves. -/
theorem split_of_record {acts : List Action} {before after : List Event}
    (h : r.record acts = before ++ v :: after) :
    ∃ earlier later, v.runner = r.after earlier ∧ after = (v.runner.act v.action).2.record later ∧
      r.after acts = (v.runner.act v.action).2.after later := by
  induction before generalizing r acts with
  | nil =>
    cases acts with
    | nil => cases h
    | cons a rest =>
      obtain ⟨rfl, hrest⟩ := List.cons.inj h
      exact ⟨[], rest, rfl, hrest.symm, rfl⟩
  | cons w before ih =>
    cases acts with
    | nil => cases h
    | cons a rest =>
      obtain ⟨-, hrest⟩ := List.cons.inj h
      obtain ⟨earlier, later, hrunner, hafter, hend⟩ := ih hrest
      exact ⟨a :: earlier, later, hrunner, hafter, hend⟩

/-- **The trace is what the latest pass has executed.** Let any calls be made on a new runner: runs,
passes that are stepped through and dropped anywhere, changes of the options, whatever fails or is
broken off.

* A call for a pass begins one if the runner is compiled, and no other call does. Before the first
  pass there are no events.
* If events were not to be recorded when the latest pass began, there are none.
* If they were, there is one for each step of that pass that has executed an instruction, in order:
  the first is for instruction 0, the next for instruction 1, and so on, each with the run, with the
  names that stand in the instruction, and with times just if kernels were to be timed. -/
theorem trace_exact (d : Descriptor) (loader : KernelLoader) (acts : List Action) :
    let r := (ofDescriptor d loader).after acts
    let vs := (ofDescriptor d loader).record acts
    (∀ v ∈ vs, v.Begins ↔ v.action.isPass = true ∧ v.runner.isCompiled = true) ∧
    ((∀ v ∈ vs, ¬ v.Begins) → r.trace = []) ∧
    ∀ before v after e os, vs = before ++ v :: after → v.Passes e os → (∀ w ∈ after, ¬ w.Begins) →
      (v.runner.options.traceEvents = false → r.trace = []) ∧
      (v.runner.options.traceEvents = true →
        List.Forall₂ (TraceEvent.Tells e.run d.instructions v.runner.options.timer)
          (List.range (os.count (.ok .executed))) r.trace) := by
  intro r vs
  refine ⟨fun v _ => begins_iff, trace_after_of_idle, ?_⟩
  intro before v after e os hsplit hpasses hidle
  obtain ⟨earlier, later, hrunner, hafter, hend⟩ := split_of_record hsplit
  have hdescriptor : v.runner.descriptor = d := by
    rw [hrunner]
    exact ((Lived.new d loader).after earlier).descriptor
  -- what comes after the latest pass leaves its events alone
  have htrace : r.trace = (v.runner.act v.action).2.trace := by
    rw [hafter] at hidle
    exact (congrArg trace hend).trans (trace_after_of_idle hidle)
  rw [htrace, ← hdescriptor]
  exact trace_of_passes hpasses

/-- The runner that is compiled, with events recorded. -/
def tracing : Runner := { relayed with options := { Options.default with traceEvents := true } }

/-- The first two of its three instructions are executed, and the last one cannot be looked up. -/
theorem outcomes_tracing :
    ∃ e t₀, tracing.start quiet = (.ok e, t₀) ∧
      (List.range 3).map (e.outcomeAt fun _ => quiet) =
        [.ok .executed, .ok .executed, .error (.unresolvedReference .input "c" (some 2))] :=
  ⟨_, _, rfl, rfl⟩

/-- A pass of three steps, with options that change before it and after it. -/
def dropped : List Action :=
  [.compile quiet, .equip tracing.options .log none, .pass quiet 3 fun _ => quiet,
    .equip .default .log none]

/-- Two instructions have been executed, and their events are still there. -/
theorem trace_exact_dropped :
    let r := (ofDescriptor relay.descriptor relay.loader).after dropped
    ∃ run,
      List.Forall₂ (TraceEvent.Tells run relay.descriptor.instructions false) [0, 1] r.trace := by
  intro r
  have hcompiled : (relay.act (.compile quiet)).2 = relayed := (compile_relay quiet).2
  have hrecord : (ofDescriptor relay.descriptor relay.loader).record dropped =
      [⟨relay, .compile quiet⟩, ⟨relayed, .equip tracing.options .log none⟩] ++
        ⟨tracing, .pass quiet 3 fun _ => quiet⟩ ::
          [⟨(tracing.act (.pass quiet 3 fun _ => quiet)).2, .equip .default .log none⟩] := by
    show relay.record dropped = _
    rw [dropped, record, hcompiled]
    rfl
  have hidle (r' : Runner) :
      ∀ w ∈ [(⟨r', .equip .default .log none⟩ : Event)], ¬ w.Begins := by
    intro w hw hbegins
    obtain rfl := List.mem_singleton.mp hw
    cases (begins_iff.mp hbegins).1
  obtain ⟨e, t₀, hstart, houtcomes⟩ := outcomes_tracing
  have hpasses : Event.Passes ⟨tracing, .pass quiet 3 fun _ => quiet⟩ e _ := .pass hstart 3 _
  rw [houtcomes] at hpasses
  obtain ⟨-, -, htrace⟩ := trace_exact relay.descriptor relay.loader dropped
  exact ⟨e.run, (htrace _ _ _ _ _ hrecord hpasses (hidle _)).2 rfl⟩

end Runner

end InferenceEngine
