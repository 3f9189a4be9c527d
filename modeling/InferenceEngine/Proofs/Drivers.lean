import InferenceEngine.Kernel.Observation
import InferenceEngine.Proofs.Calls
import InferenceEngine.Proofs.Journal
import InferenceEngine.Proofs.Runs

/-!
# The three drivers agree

A pass can be driven in three ways: by a run, by a run that suspends after each notification, or by a
caller that takes the steps itself. `Driven` is what they have in common: a driver steps up to the end
or to the first failure, and in between it does something with the notifications. A caller that takes
the steps itself keeps them to itself, the two runs tell the sink.

`Runner.drivers_agree` is the main statement: whatever the kernels do, the three make the same calls
in the same order, end alike and leave the same in the runner; and the sink is told of exactly those
notifications that the caller gets, each at its place.

* `Driven.exists_of_poised` — every driver comes to an end.
* `Driven.tell_sink` — what a driver does with the notifications makes no difference to the steps.
* `Runner.drive_of_driven`, `Runner.Task.settle_of_driven` — the two runs are drivers.
-/

namespace InferenceEngine

/-- Tells a sink of a notification. -/
def ProgressSink.tell (sink : ProgressSink) (p : Progress) (t : Thread) : Thread :=
  t.writeAll (sink.entries p)

/-! ## What a driver sees -/

/-- The notification that a step gives, if it gives one. -/
def Outcome.notice? : Outcome StepOutcome → Option Progress
  | .ok (.yielded p) | .ok (.finished p) => some p
  | _ => none

/-- What there is to see of a step. -/
structure StepRecord where
  /-- how it has ended -/
  outcome : Outcome StepOutcome
  /-- the call that was made, and what was in the variables then -/
  call : Option (Call × Bank)
  /-- what was written meanwhile -/
  written : List Entry

namespace StepRecord

/-- What is written by the step and by the sink that is told of its notification, if it has given
one. -/
def shown (sink : ProgressSink) (s : StepRecord) : List Entry :=
  s.written ++ (s.outcome.notice?.map sink.entries).getD []

end StepRecord

namespace Execution

/-- What there is to see of a step on a thread. -/
def observe (e : Execution) (t : Thread) : StepRecord :=
  ⟨(e.step t).1, e.callAt t, (e.step t).2.2.journal.drop t.journal.length⟩

/-- `Driven tell e t ss o e' t'`: from `e` on `t`, a driver that does `tell` with notifications takes
the steps `ss`, ends with `o`, and leaves `e'` and `t'`. -/
inductive Driven (tell : Progress → Thread → Thread) :
    Execution → Thread → List StepRecord → Outcome Unit → Execution → Thread → Prop
  /-- all instructions have been executed -/
  | finish {e e' : Execution} {t t' : Thread} {p : Progress}
    (h : e.step t = (.ok (.finished p), e', t')) :
    Driven tell e t [e.observe t] (.ok ()) e' (tell p t')
  /-- a step fails, or is broken off -/
  | stop {e e' : Execution} {t t' : Thread} {o : Outcome Unit}
    (h : e.step t = (o.map fun _ => .executed, e', t')) (hstop : ¬ o.Succeeds) :
    Driven tell e t [e.observe t] o e' t'
  /-- an instruction is executed -/
  | execute {e e' e'' : Execution} {t t' t'' : Thread} {ss : List StepRecord} {o : Outcome Unit}
    (h : e.step t = (.ok .executed, e', t')) (rest : Driven tell e' t' ss o e'' t'') :
    Driven tell e t (e.observe t :: ss) o e'' t''
  /-- a step gives way for a notification -/
  | yield {e e' e'' : Execution} {t t' t'' : Thread} {p : Progress} {ss : List StepRecord}
    {o : Outcome Unit} (h : e.step t = (.ok (.yielded p), e', t'))
    (rest : Driven tell e' (tell p t') ss o e'' t'') :
    Driven tell e t (e.observe t :: ss) o e'' t''

/-- What is written on the thread has no part in what there is to see of a step. -/
theorem observe_withJournal {e e' : Execution} {t t' : Thread} {o : Outcome StepOutcome}
    (hk : e.compiled.kernels.Heedless) (h : e.step t = (o, e', t')) :
    t'.journal = t.journal ++ (e.observe t).written ∧
      ∀ j, e.observe (t.withJournal j) = e.observe t ∧
        e.step (t.withJournal j) = (o, e', t'.withJournal (j ++ (e.observe t).written)) := by
  obtain ⟨new, hnew⟩ := heedless_step hk t
  rw [h] at hnew
  have hjournal : t'.journal = t.journal ++ new := by
    have hself := hnew t.journal
    rw [Thread.withJournal_self, h] at hself
    exact congrArg (fun x => x.2.2.journal) hself
  have hwritten : (e.observe t).written = new := by
    rw [observe, h, hjournal, List.drop_left]
  rw [hwritten]
  refine ⟨hjournal, fun j => ⟨?_, hnew j⟩⟩
  have hcall : e.callAt (t.withJournal j) = e.callAt t := rfl
  rw [observe, observe, hcall, hnew j, h, hjournal]
  simp

theorem outcome_observe {e e' : Execution} {t t' : Thread} {o : Outcome StepOutcome}
    (h : e.step t = (o, e', t')) : (e.observe t).outcome = o := congrArg Prod.fst h

theorem total_of_step {e e' : Execution} {t t' : Thread} {o : Outcome StepOutcome}
    (h : e.step t = (o, e', t')) : e'.total = e.total := by
  have hsame := samePass_step e t
  rw [h] at hsame
  exact hsame.total

/-- A step changes no kernel, so they stay heedless. -/
theorem heedless_of_step {e e' : Execution} {t t' : Thread} {o : Outcome StepOutcome}
    (hk : e.compiled.kernels.Heedless) (h : e.step t = (o, e', t')) :
    e'.compiled.kernels.Heedless := by
  have hsame := samePass_step e t
  rw [h] at hsame
  rw [hsame.compiled]
  exact hk

namespace Driven

variable {tell : Progress → Thread → Thread} {e e' : Execution} {t t' : Thread}
  {ss : List StepRecord} {o : Outcome Unit}

/-- Every driver comes to an end, after two steps for each instruction that is left and one more, or
earlier. -/
theorem exists_of_poised (tell : Progress → Thread → Thread) {index since : Nat} {told : Bool}
    (hp : e.Poised index since told) (htold : told = true → index < e.total) {budget : Nat}
    (hbudget : 2 * (e.total - index) + 1 ≤ budget + told.toNat) (t : Thread) :
    ∃ ss o e' t', Driven tell e t ss o e' t' ∧ ss.length ≤ budget := by
  induction budget generalizing e index since told t with
  | zero =>
    -- after a notification there is an instruction left
    cases told with
    | false => simp at hbudget
    | true =>
      have hindex := htold rfl
      simp only [Bool.toNat_true] at hbudget
      omega
  | succ budget ih =>
    by_cases hend : e.position = e.total
    · exact ⟨_, _, _, _, .finish (step_of_end hp.unfinished hend), Nat.succ_le_succ (Nat.zero_le _)⟩
    have hindex : index < e.total := by
      have hpos := hp.position
      have hle := hp.le_total
      omega
    by_cases hdue : e.Due t
    · -- the same instruction is next
      obtain ⟨rfl, -⟩ := hp.due_iff.mp hdue
      have hbudget' : 2 * (e.total - index) + 1 ≤ budget + true.toNat := hbudget
      obtain ⟨ss, o, e', t', hrest, hlength⟩ :=
        ih (hp.notified t) (fun _ => hindex) hbudget' (tell (e.notice t) t.now.2)
      exact ⟨_, _, _, _, .yield (step_of_due hp.unfinished hend hdue) hrest,
        Nat.succ_le_succ hlength⟩
    · have hstep := step_of_not_due hp.unfinished hend hdue
      obtain ⟨b, trace, ⟨-, ho, hstate⟩ | ⟨hfail, ho, hstate⟩⟩ := advance_cases e (e.poll t).2.2
      · rw [← Prod.eta (e.advance _), ← Prod.eta (e.advance _).2, ho, hstate] at hstep
        have hbudget' : 2 * (e.total - (index + 1)) + 1 ≤ budget + false.toNat := by
          have := Bool.toNat_le told
          simp only [Bool.toNat_false]
          omega
        obtain ⟨ss, o, e'', t'', hrest, hlength⟩ :=
          ih (hp.executed hindex b trace) nofun hbudget' (e.advance (e.poll t).2.2).2.2
        exact ⟨_, _, _, _, .execute hstep hrest, Nat.succ_le_succ hlength⟩
      · rw [← Prod.eta (e.advance _), ho] at hstep
        exact ⟨_, _, _, _, .stop hstep hfail, Nat.succ_le_succ (Nat.zero_le _)⟩

/-- Driving a pass takes one step at least. -/
theorem length_pos (h : Driven tell e t ss o e' t') : 0 < ss.length := by
  cases h <;> exact Nat.succ_pos _

/-- A driver that keeps the notifications to itself takes the same steps as one that tells a sink,
and what the sink is told stands in the journal where the driver has told it. -/
theorem tell_sink (h : Driven (fun _ u => u) e t ss o e' t') (hk : e.compiled.kernels.Heedless)
    (sink : ProgressSink) :
    t'.journal = t.journal ++ ss.flatMap StepRecord.written ∧
      ∀ j, Driven sink.tell e (t.withJournal j) ss o e'
        (t'.withJournal (j ++ ss.flatMap (StepRecord.shown sink))) := by
  induction h with
  | @finish e e' t t' p h =>
    obtain ⟨hjournal, hobserve⟩ := observe_withJournal hk h
    refine ⟨by simpa using hjournal, fun j => ?_⟩
    obtain ⟨hsame, hstep⟩ := hobserve j
    have hfinish : Driven sink.tell e _ _ _ _ _ := .finish hstep
    rw [hsame] at hfinish
    simpa [StepRecord.shown, outcome_observe h, Outcome.notice?, ProgressSink.tell] using hfinish
  | @stop e e' t t' o h hstop =>
    obtain ⟨hjournal, hobserve⟩ := observe_withJournal hk h
    have hnotice : (o.map fun _ => StepOutcome.executed).notice? = none := by
      cases o <;> rfl
    refine ⟨by simpa using hjournal, fun j => ?_⟩
    obtain ⟨hsame, hstep⟩ := hobserve j
    have hstopped : Driven sink.tell e _ _ _ _ _ := .stop hstep hstop
    rw [hsame] at hstopped
    simpa [StepRecord.shown, outcome_observe h, hnotice] using hstopped
  | @execute e e' e'' t t' t'' ss o h rest ih =>
    obtain ⟨hjournal, hobserve⟩ := observe_withJournal hk h
    obtain ⟨hrest, hdriven⟩ := ih (heedless_of_step hk h)
    refine ⟨by simp [hrest, hjournal], fun j => ?_⟩
    obtain ⟨hsame, hstep⟩ := hobserve j
    have hexecuted := Driven.execute hstep (hdriven _)
    rw [hsame] at hexecuted
    simpa [StepRecord.shown, outcome_observe h, Outcome.notice?] using hexecuted
  | @yield e e' e'' t t' t'' p ss o h rest ih =>
    obtain ⟨hjournal, hobserve⟩ := observe_withJournal hk h
    obtain ⟨hrest, hdriven⟩ := ih (heedless_of_step hk h)
    refine ⟨by simp [hrest, hjournal], fun j => ?_⟩
    obtain ⟨hsame, hstep⟩ := hobserve j
    -- the sink writes behind what the step has written
    have hyielded : Driven sink.tell e _ _ _ _ _ := .yield hstep (hdriven (_ ++ sink.entries p))
    rw [hsame] at hyielded
    simpa [StepRecord.shown, outcome_observe h, Outcome.notice?] using hyielded

end Driven

end Execution

namespace Runner

open Execution

variable {e e' : Execution} {t t' : Thread} {ss : List StepRecord} {o : Outcome Unit}

/-! ## The two runs are drivers -/

/-- A run that is not short of budget is a driver that tells the sink. -/
theorem drive_of_driven {sink : ProgressSink} (h : Driven sink.tell e t ss o e' t') (spare : Nat) :
    drive sink (spare + ss.length) e t = (o, e', t') := by
  induction h with
  | finish h => exact drive_of_finished h
  | @stop e e' t t' o h hstop =>
    cases o with
    | ok u => exact absurd ⟨u, rfl⟩ hstop
    | error f => exact drive_of_error h
    | panic p => exact drive_of_panic h
  | execute h rest ih =>
    rw [List.length_cons, ← Nat.add_assoc, drive_of_executed h]
    exact ih
  | yield h rest ih =>
    rw [List.length_cons, ← Nat.add_assoc, drive_of_yielded h]
    exact ih

namespace Task

variable {r : Runner} {left : Nat}

/-- A task that is resumed goes on after an instruction, -/
theorem resume_of_executed (h : e.step t = (.ok .executed, e', t')) :
    resume (left + 1) ⟨r, e⟩ t = resume left ⟨r, e'⟩ t' := by
  rw [resume, h]

/-- hands back control after a notification, when the sink has been told of it, -/
theorem resume_of_yielded {p : Progress} (h : e.step t = (.ok (.yielded p), e', t')) :
    resume (left + 1) ⟨r, e⟩ t = (.suspended ⟨r, e'⟩, r.sink.tell p t') := by
  rw [resume, h]
  rfl

/-- and ends with the last notification, when the runner has taken the graph back and the pass has
been closed. -/
theorem resume_of_finished {p : Progress} (h : e.step t = (.ok (.finished p), e', t')) :
    resume (left + 1) ⟨r, e⟩ t = (.ended (.ok ()) (r.absorb e'), e'.close (r.sink.tell p t')) := by
  rw [resume, h]
  rfl

/-- A failure or a panic ends it in the same way, only that nobody is told. -/
theorem resume_of_stop (h : e.step t = (o.map fun _ => .executed, e', t')) (hstop : ¬ o.Succeeds) :
    resume (left + 1) ⟨r, e⟩ t = (.ended o (r.absorb e'), e'.close t') := by
  rw [resume, h]
  cases o with
  | ok u => exact absurd ⟨u, rfl⟩ hstop
  | error f => rfl
  | panic p => rfl

/-- What becomes of a task that has been resumed, if it is resumed until it ends. -/
def settle (rounds : Nat) : Resumed × Thread → Outcome Unit × Runner × Thread
  | (.suspended task, t) => task.complete rounds t
  | (.ended o r, t) => (o, r, t)

/-- One round of completing a task is resuming it and doing the other rounds with what that has come
to. -/
theorem complete_succ (rounds : Nat) (task : Task) (t : Thread) :
    task.complete (rounds + 1) t = settle rounds (task.resume (budget task.execution) t) := by
  rw [complete]
  rcases task.resume (budget task.execution) t with ⟨task' | ⟨o, r⟩, t'⟩ <;> rfl

/-- A task that has enough rounds is a driver that tells the sink, wherever it is suspended. -/
theorem settle_of_driven (h : Driven r.sink.tell e t ss o e' t') (hbudget : ss.length ≤ budget e)
    {rounds : Nat} (hrounds : ss.length ≤ rounds + 1) (spare : Nat) :
    settle rounds (resume (spare + ss.length) ⟨r, e⟩ t) = (o, r.absorb e', e'.close t') := by
  induction h generalizing spare rounds with
  | finish h =>
    rw [List.length_singleton, resume_of_finished h]
    rfl
  | stop h hstop =>
    rw [List.length_singleton, resume_of_stop h hstop]
    rfl
  | @execute e e' e'' t t' t'' ss o h rest ih =>
    have htotal : budget e' = budget e := congrArg (2 * · + 1) (total_of_step h)
    rw [List.length_cons] at hbudget hrounds ⊢
    rw [← Nat.add_assoc, resume_of_executed h]
    exact ih (by omega) (by omega) spare
  | @yield e e' e'' t t' t'' p ss o h rest ih =>
    have htotal : budget e' = budget e := congrArg (2 * · + 1) (total_of_step h)
    have hpos := rest.length_pos
    rw [List.length_cons] at hbudget hrounds ⊢
    -- every round has the budget of a whole pass
    have hleft : 1 ≤ rounds := Nat.le_trans hpos (Nat.le_of_succ_le_succ hrounds)
    obtain ⟨rounds, rfl⟩ := Nat.exists_eq_add_of_le' hleft
    obtain ⟨spare', hspare⟩ := Nat.exists_eq_add_of_le' (Nat.le_of_succ_le (htotal ▸ hbudget))
    rw [← Nat.add_assoc, resume_of_yielded h, settle, complete_succ, hspare]
    exact ih (by omega) (by omega) spare'

end Task

variable {r : Runner}

/-- A pass that has been started is before its first instruction, and nothing has been told of
it. -/
theorem poised_of_start {t₀ : Thread} (h : r.start t = (.ok e, t₀)) :
    r.compiled = some e.compiled ∧ e.Poised 0 e.started false := by
  rw [start] at h
  cases hc : r.compiled with
  | none =>
    rw [hc] at h
    cases h
  | some c =>
    rw [hc] at h
    obtain ⟨he, -⟩ := Prod.mk.inj h
    obtain rfl := Except.ok.inj he
    exact ⟨rfl, Poised.start _ _ _ _ _ _⟩

/-- Every driver of a pass that has just begun comes to an end within the budget of a run. -/
theorem exists_driven {t₀ : Thread} (h : r.start t = (.ok e, t₀))
    (tell : Progress → Thread → Thread) :
    ∃ ss o e' t', Driven tell e t₀ ss o e' t' ∧ ss.length ≤ budget e :=
  Driven.exists_of_poised tell (poised_of_start h).2 nofun (Nat.le_refl _) t₀

/-- A driver of a pass that tells the sink of its runner does what the two runs do. -/
theorem runs_of_driven {t₀ : Thread} (hstart : r.start t = (.ok e, t₀))
    (h : Driven r.sink.tell e t₀ ss o e' t') (hlength : ss.length ≤ budget e) :
    r.run t = (o, r.absorb e', e'.close t') ∧ r.runAsync t = (o, r.absorb e', e'.close t') := by
  obtain ⟨spare, hspare⟩ := Nat.exists_eq_add_of_le' hlength
  constructor
  · rw [run, hstart]
    dsimp only
    rw [hspare, drive_of_driven h]
  · rw [runAsync, begin, hstart]
    dsimp only
    have hrounds : budget e = 2 * e.total + 1 := rfl
    rw [hrounds, Task.complete_succ, hspare]
    exact Task.settle_of_driven h hlength hlength spare

/-- **Runs that suspend do what runs do.** -/
theorem runAsync_eq_run (r : Runner) (t : Thread) : r.runAsync t = r.run t := by
  rcases hstart : r.start t with ⟨f | e, t₀⟩
  · rw [runAsync, begin, run, hstart]
  · obtain ⟨ss, o, e', t', hdriven, hlength⟩ := exists_driven hstart r.sink.tell
    obtain ⟨hrun, hasync⟩ := runs_of_driven hstart hdriven hlength
    rw [hrun, hasync]

/-! ## Agreement -/

/-- **The three drivers agree.** Let a runner be compiled, whatever it holds, and let its kernels not
read what is written. A caller that begins a pass and takes the steps itself comes to an end: to the
announcement or to the first failure. A run and a run that suspends take the same steps, with the same
calls on the same contents of the variables; they end alike and leave the same variables, weights and
events in the runner. While the caller's steps write what they write and nothing else is written, to
a run the sink adds its entries for the very notifications that the steps give, each behind its step
and once. -/
theorem drivers_agree {c : Compiled} (hc : r.compiled = some c) (hk : c.kernels.Heedless)
    (t : Thread) :
    ∃ e t₀ ss o e' t', r.start t = (.ok e, t₀) ∧
      Driven (fun _ u => u) e t₀ ss o e' t' ∧
      t'.journal = t₀.journal ++ ss.flatMap StepRecord.written ∧
      let told := t'.withJournal (t₀.journal ++ ss.flatMap (StepRecord.shown r.sink))
      Driven r.sink.tell e t₀ ss o e' told ∧
      r.run t = (o, r.absorb e', e'.close told) ∧
      r.runAsync t = (o, r.absorb e', e'.close told) := by
  rcases hstart : r.start t with ⟨f | e, t₀⟩
  · rw [start, hc] at hstart
    cases hstart
  · obtain ⟨hcompiled, -⟩ := poised_of_start hstart
    obtain rfl : c = e.compiled := Option.some.inj (hc.symm.trans hcompiled)
    obtain ⟨ss, o, e', t', hdriven, hlength⟩ := exists_driven hstart fun _ u => u
    obtain ⟨hjournal, htell⟩ := hdriven.tell_sink hk r.sink
    have htold := htell t₀.journal
    rw [Thread.withJournal_self] at htold
    obtain ⟨hrun, hasync⟩ := runs_of_driven hstart htold hlength
    exact ⟨e, t₀, ss, o, e', t', rfl, hdriven, hjournal, htold, hrun, hasync⟩

/-- A runner whose second instruction writes an element and then fails, and whose sink keeps the
notifications, one before every instruction. -/
def halting : Runner :=
  { ofDescriptor
      { Descriptor.default with
        instructions := [⟨"label", [], [], [], .default⟩, ⟨"partial", [], ["a"], [], .default⟩,
          ⟨"label", [], [], [], .default⟩] }
      ⟨fun _ => .error .notCompiled⟩ with
    options := { Options.default with progressIntervalMs := 0 }
    sink := .recorder
    compiled := some {
      weights := ⟨[], [], #[]⟩
      buffers := ⟨["a"], [#[.zero]]⟩
      kernels := ⟨[("label", Kernels.label), ("partial", Kernels.partialWrite)]⟩
      program := [⟨some 0, [], [], []⟩, ⟨some 1, [], [.bound 0], []⟩, ⟨some 0, [], [], []⟩]
      inputs := []
      outputs := [] } }

theorem blind_partialWrite (args : Args) : (Kernels.partialWrite args).Blind := by
  show Routine.Blind (Routine.bind (args.output 0) _)
  rw [Args.output]
  cases args.outputs[0]? <;> exact trivial

/-- The kernels of the example are heedless. -/
theorem heedless_halting {c : Compiled} (hc : halting.compiled = some c) : c.kernels.Heedless := by
  obtain rfl := Option.some.inj hc
  intro entry hentry
  rcases List.mem_cons.mp hentry with rfl | hentry
  · exact fun args b t => ⟨[.note (.label t.label)], fun j => rfl⟩
  · obtain rfl := List.mem_singleton.mp hentry
    exact fun args b => Routine.heedless_of_blind args (blind_partialWrite args) b

/-- The sink is told twice, what the kernels do comes in between, and what was written before the
failure stays written. -/
theorem run_halting :
    (∃ c, halting.compiled = some c ∧ c.kernels.Heedless) ∧
      (∃ e t₀ ss e' t', halting.start quiet = (.ok e, t₀) ∧
        Driven (fun _ u => u) e t₀ ss (.error (.custom "partial failure")) e' t' ∧
        t'.journal = ss.flatMap StepRecord.written ∧ e'.bank = [#[.ofInt 9]]) ∧
      (halting.run quiet).1 = .error (.custom "partial failure") ∧
      (halting.runAsync quiet).2.2.journal = [.report ⟨0, 3, 0, false⟩,
        .note (.label (some (Context.label ⟨⟨0, 0⟩, some 0⟩))), .report ⟨1, 3, 0, false⟩] := by
  refine ⟨⟨_, rfl, heedless_halting rfl⟩, ?_, rfl, rfl⟩
  obtain ⟨e, t₀, ss, o, e', t', hstart, hdriven, hjournal, -, hrun, -⟩ :=
    drivers_agree (r := halting) rfl (heedless_halting rfl) quiet
  obtain rfl : o = .error (.custom "partial failure") := (congrArg Prod.fst hrun).symm
  have hbank : e'.bank = [#[.ofInt 9]] := (congrArg (fun x => x.2.1.bank) hrun).symm
  have hempty : t₀.journal = [] := (congrArg (fun x => x.2.journal) hstart).symm
  rw [hempty, List.nil_append] at hjournal
  exact ⟨e, t₀, ss, e', t', hstart, hdriven, hjournal, hbank⟩

end Runner

end InferenceEngine
