import InferenceEngine.Proofs.NestedRuns

/-!
# The label between steps

Between two steps of a pass the label should show the run alone: an instruction belongs to a dispatch.
`Nests.labels_between` says when it does. Every way to end a step clears the instruction but one: when
a kernel breaks off, the dispatch is left on the spot, and its instruction stays in the label until the
next dispatch clears it, or the pass is dropped. So the labels are right after all steps exactly if no
step breaks off, and else every step that does leaves one that is wrong (`Execution.index_left_behind`).

`Nests.invariant` is the induction behind this: what holds of a pass when it begins, and is kept by its
steps, holds of it at all times.
-/

namespace InferenceEngine

/-! ## Steps that break off -/

/-- The step is broken off. -/
def Frame.Breaks (f : Frame) (t : Thread) : Prop := ∃ p, (f.pass.step t).1 = .panic p

namespace Frame

variable {f : Frame} {t : Thread}

/-- Only dispatches break off. -/
theorem dispatches_of_breaks (h : f.Breaks t) : f.pass.Dispatches t := by
  obtain ⟨p, h⟩ := h
  cases hcall : f.pass.callAt t with
  | none => exact ((Execution.step_of_no_call hcall).2 p h).1
  | some made => exact (Execution.callAt_eq_some.mp hcall).1

/-- A step that breaks off leaves its instruction behind. -/
theorem phase_stepped_of_breaks (h : f.Breaks t) :
    (f.stepped t).phase = .between (some f.pass.position) := by
  have hd := dispatches_of_breaks h
  obtain ⟨p, hp⟩ := h
  rw [stepped, left, hp]
  exact if_pos hd

/-- Any other step that dispatches leaves none. -/
theorem phase_stepped_of_dispatches (hd : f.pass.Dispatches t) (h : ¬ f.Breaks t) :
    (f.stepped t).phase = .between none := by
  rw [stepped, left]
  dsimp only
  rw [if_pos hd]
  cases ho : (f.pass.step t).1 with
  | ok o => rfl
  | error g => rfl
  | panic p => exact absurd ⟨p, ho⟩ h

/-- A step that does not dispatch leaves what it has found. -/
theorem phase_stepped_of_not_dispatches (hd : ¬ f.pass.Dispatches t) :
    (f.stepped t).phase = f.phase := if_neg hd

end Frame

/-! ## What becomes of a pass -/

/-- It is so of the pass at rest: now, or before the dispatch that it is about. -/
def Frame.AtRest (P : Frame → Prop) (f : Frame) : Prop := P f ∨ ∃ g, P g ∧ f = g.calling

/-- It is so of all passes of the moment at rest. -/
def Moment.AtRest (P : Frame → Prop) : Moment → Prop
  | during live _ => ∀ f ∈ live, f.AtRest P
  | stepped f _ => P f
  | ended f _ => P f

/-- If a pass takes a step, then this is so of the pass and the thread. -/
def Moment.IfSteps (Q : Frame → Thread → Prop) : Moment → Prop
  | stepped f t => Q f t
  | _ => True

/-- What is said of the steps among some moments is said of just these moments. -/
theorem Moment.forall_ifSteps {Q : Frame → Thread → Prop} {ms : List Moment} :
    (∀ m ∈ ms, m.IfSteps Q) ↔ ∀ f u, .stepped f u ∈ ms → Q f u := by
  refine ⟨fun h f u hm => h _ hm, fun h m hm => ?_⟩
  cases m with
  | during live u => trivial
  | stepped f u => exact h f u hm
  | ended f u => trivial

section

variable {P : Frame → Prop}

/-- Frames that are at rest stay so when others are put in front of them. -/
theorem Frame.atRest_append {own outer : List Frame} (hown : ∀ f ∈ own, P f)
    (houter : ∀ f ∈ outer, f.AtRest P) : ∀ f ∈ own ++ outer, f.AtRest P :=
  List.forall_mem_append.mpr ⟨fun f hf => .inl (hown f hf), houter⟩

theorem Frame.atRest_lookup {f : Frame} {others : List Frame} {t : Thread} (hf : P f)
    (hothers : ∀ g ∈ others, g.AtRest P) : ∀ m ∈ f.lookup others t, m.AtRest P := by
  rw [lookup]
  split
  · exact List.forall_mem_singleton.mpr (List.forall_mem_cons.mpr ⟨.inr ⟨f, hf, rfl⟩, hothers⟩)
  · exact fun _ hm => absurd hm List.not_mem_nil

/-- **What holds of a pass at rest.** What is so when a pass begins, and stays so when it takes a
step, is so of all passes at all times. -/
theorem Nests.invariant {may : Frame → Thread → Prop} (hbegun : ∀ e t, P (.begun e t))
    (hstep : ∀ f t, may f t → P f → P (f.stepped t)) {outer own : List Frame} {args : Args}
    {r : Routine Unit} {b : Bank} {t : Thread} {ms : List Moment} (h : Nests outer args own r b t ms)
    (hms : ∀ m ∈ ms, m.IfSteps may) (houter : ∀ f ∈ outer, f.AtRest P) (hown : ∀ f ∈ own, P f) :
    ∀ m ∈ ms, m.AtRest P := by
  induction h with
  | done | fail | panic | stray | spill => exact List.forall_mem_singleton.mpr houter
  | read hv hx rest ih => exact ih hms houter hown
  | write hv hi rest ih => exact ih hms houter hown
  | become rest ih => exact ih hms houter hown
  | note rest ih | look rest ih | aside h rest ih =>
    have hrest := ih (List.forall_mem_cons.mp hms).2 houter hown
    exact List.forall_mem_cons.mpr ⟨Frame.atRest_append hown houter, hrest⟩
  | @begin outer own args b t t' u ms k r e h rest ih =>
    have hrest := ih (List.forall_mem_cons.mp hms).2 houter
      (List.forall_mem_cons.mpr ⟨hbegun e t, hown⟩)
    exact List.forall_mem_cons.mpr ⟨Frame.atRest_append hown houter, hrest⟩
  | @pass outer own args b t u ms k f h rest ih =>
    obtain ⟨hf, hothers⟩ := List.forall_mem_cons.mp hown
    simp only [List.forall_mem_cons, List.forall_mem_append] at hms
    obtain ⟨-, -, hmay, hms⟩ := hms
    have hrest := ih hms houter (List.forall_mem_cons.mpr ⟨hstep f t hmay hf, hothers⟩)
    refine List.forall_mem_cons.mpr
      ⟨Frame.atRest_append hown houter, List.forall_mem_append.mpr ⟨?_, ?_⟩⟩
    · exact Frame.atRest_lookup hf (Frame.atRest_append hothers houter)
    · exact List.forall_mem_cons.mpr ⟨hf, hrest⟩
  | @call outer own args b t u ms inner k f i call hd hprep hcall rest ihcall ih =>
    obtain ⟨hf, hothers⟩ := List.forall_mem_cons.mp hown
    have hbelow := Frame.atRest_append hothers houter
    simp only [List.forall_mem_cons, List.forall_mem_append] at hms
    obtain ⟨-, ⟨-, hinner⟩, hmay, hms⟩ := hms
    -- for the kernel the pass that calls it is one of those outside
    have hkernel := ihcall hinner (List.forall_mem_cons.mpr ⟨.inr ⟨f, hf, rfl⟩, hbelow⟩)
      fun g hg => absurd hg List.not_mem_nil
    have hrest := ih hms houter (List.forall_mem_cons.mpr ⟨hstep f t hmay hf, hothers⟩)
    refine List.forall_mem_cons.mpr
      ⟨Frame.atRest_append hown houter, List.forall_mem_append.mpr ⟨?_, ?_⟩⟩
    · exact List.forall_mem_append.mpr ⟨Frame.atRest_lookup hf hbelow, hkernel⟩
    · exact List.forall_mem_cons.mpr ⟨hf, hrest⟩
  | drop rest ih =>
    obtain ⟨hf, hothers⟩ := List.forall_mem_cons.mp hown
    have hrest := ih (List.forall_mem_cons.mp (List.forall_mem_cons.mp hms).2).2 houter hothers
    exact List.forall_mem_cons.mpr
      ⟨Frame.atRest_append hown houter, List.forall_mem_cons.mpr ⟨hf, hrest⟩⟩

end

/-- If no step breaks off, then no pass at rest has an instruction left over. -/
theorem Nests.rest_of_not_breaks {args : Args} {r : Routine Unit} {b : Bank} {t : Thread}
    {ms : List Moment} (h : Nests [] args [] r b t ms)
    (hbreaks : ∀ f u, .stepped f u ∈ ms → ¬ f.Breaks u) :
    ∀ m ∈ ms, m.AtRest fun f => f.phase = .between none := by
  refine h.invariant (fun _ _ => rfl) (fun f u hb hf => ?_) (Moment.forall_ifSteps.mpr hbreaks)
    (fun f hf => absurd hf List.not_mem_nil) (fun f hf => absurd hf List.not_mem_nil)
  by_cases hd : f.pass.Dispatches u
  · exact Frame.phase_stepped_of_dispatches hd hb
  · exact (Frame.phase_stepped_of_not_dispatches hd).trans hf

/-! ## Labels between steps -/

namespace Moment.Right

variable {base : Option Context} {f : Frame} {live : List Frame} {u : Thread}

/-- Between two steps the context shows the run of the pass, and the instruction that it was broken
off in, if it was. -/
theorem context_between {broken : Option Nat} (h : (during (f :: live) u).Right base)
    (hf : f.phase = .between broken) : u.context = some ⟨f.pass.run, broken⟩ := by
  rw [show u.context = some f.context from h, Frame.context, hf]
  rfl

/-- After a step the label is that of the run with what the step leaves. -/
theorem label_step (h : (stepped f u).Right base) :
    (f.pass.step u).2.2.label =
      some (Context.label ⟨f.pass.run, (f.stepped u).phase.instruction⟩) := by
  rw [Thread.label, h.2, Frame.context, Frame.run_stepped]
  rfl

/-- After a step that is broken off, the label shows the instruction that was running. -/
theorem label_step_of_breaks (h : (stepped f u).Right base) (hb : f.Breaks u) :
    (f.pass.step u).2.2.label = some (Context.label ⟨f.pass.run, some f.pass.position⟩) := by
  rw [h.label_step, Frame.phase_stepped_of_breaks hb]
  rfl

/-- After one that is not, the label shows no instruction, -/
theorem label_step_of_dispatches (h : (stepped f u).Right base) (hd : f.pass.Dispatches u)
    (hb : ¬ f.Breaks u) :
    (f.pass.step u).2.2.label = some (Context.label ⟨f.pass.run, none⟩) := by
  rw [h.label_step, Frame.phase_stepped_of_dispatches hd hb]
  rfl

/-- and a step that dispatches nothing leaves the label as it is. -/
theorem label_step_of_not_dispatches (h : (stepped f u).Right base)
    (hd : ¬ f.pass.Dispatches u) : (f.pass.step u).2.2.label = u.label := by
  rw [h.label_step, Frame.phase_stepped_of_not_dispatches hd, Thread.label, h.1]
  rfl

end Moment.Right

/-- **Labels between steps.** Let a host, and the kernels of all passes that it begins, to any depth,
step and drop their own passes while these are the youngest, and let none leave a pass open.

A step that breaks off leaves its instruction in the label. Any other step that dispatches leaves the
run alone there, and a step that does not dispatch leaves the label as it is. That label is there until
the pass goes on: while a pass is between two steps and is the youngest, the label is that of the run
with the instruction that the last dispatch has left behind, if it has.

So after all steps the label is that of the run alone exactly if no step breaks off, and then this is
how all lines are labelled that are logged between the steps. -/
theorem Nests.labels_between {host : Routine Unit} {args : Args} {b : Bank} {t : Thread}
    {ms : List Moment} (h : Nests [] args [] host b t ms) :
    (∀ f u, .stepped f u ∈ ms →
      (f.Breaks u → (f.pass.step u).2.2.label =
        some (Context.label ⟨f.pass.run, some f.pass.position⟩)) ∧
      (f.pass.Dispatches u → ¬ f.Breaks u → (f.pass.step u).2.2.label =
        some (Context.label ⟨f.pass.run, none⟩)) ∧
      (¬ f.pass.Dispatches u → (f.pass.step u).2.2.label = u.label)) ∧
      (∀ f live u broken, .during (f :: live) u ∈ ms → f.phase = .between broken →
        u.label = some (Context.label ⟨f.pass.run, broken⟩)) ∧
      ((∀ f u, .stepped f u ∈ ms →
        (f.pass.step u).2.2.label = some (Context.label ⟨f.pass.run, none⟩)) ↔
        ∀ f u, .stepped f u ∈ ms → ¬ f.Breaks u) ∧
      ((∀ f u, .stepped f u ∈ ms → ¬ f.Breaks u) →
        ∀ f live u broken, .during (f :: live) u ∈ ms → f.phase = .between broken →
          ∀ s text line, .log line ∈ (u.emit s text).journal.drop u.journal.length →
            line.context = some ⟨f.pass.run, none⟩) := by
  obtain ⟨hright, -⟩ := h.right_of_host
  refine ⟨fun f u hm => ?_, fun f live u broken hm hf => ?_,
    ⟨fun hall f u hm hb => ?_, fun hnone f u hm => ?_⟩,
    fun hnone f live u broken hm hf s text line hline => ?_⟩
  · have hstep := hright _ hm
    exact ⟨hstep.label_step_of_breaks, hstep.label_step_of_dispatches,
      hstep.label_step_of_not_dispatches⟩
  · exact congrArg (Option.map Context.label) ((hright _ hm).context_between hf)
  · have hlabels := (hall f u hm).symm.trans ((hright _ hm).label_step_of_breaks hb)
    exact Context.label_none_ne _ _ _ (Option.some.inj hlabels)
  · have hrest : f.phase = .between none := h.rest_of_not_breaks hnone _ hm
    rw [(hright _ hm).label_step]
    by_cases hd : f.pass.Dispatches u
    · rw [Frame.phase_stepped_of_dispatches hd (hnone f u hm)]
      rfl
    · rw [Frame.phase_stepped_of_not_dispatches hd, hrest]
      rfl
  · rcases h.rest_of_not_breaks hnone _ hm f List.mem_cons_self with hrest | ⟨g, -, rfl⟩
    · rw [Thread.context_of_emitted hline]
      exact (hright _ hm).context_between hrest
    · -- while it dispatches, the pass is not between two steps
      cases hf

theorem Kernel.nesting_boom : Kernel.Nesting Kernels.boom := fun _ _ _ _ => ⟨_, .panic⟩

/-- The kernel breaks off, and the pass is dropped. -/
theorem Nests.labels_between_boom :
    ∃ host ms, Nests [] idle [] host [] Stage.desk ms ∧
      ∃ f u, .stepped f u ∈ ms ∧ (f.pass.step u).1 = .panic (.custom "boom") ∧
        (f.pass.step u).2.2.label = some "run 00000000 #0" := by
  obtain ⟨u, ms, hnests, -, hmem⟩ := Nests.exists_solo "boom" _ Kernel.nesting_boom
  obtain ⟨hlabels, -⟩ := hnests.labels_between
  have hlabel : Context.label ⟨⟨0, 0⟩, some 0⟩ = "run 00000000 #0" := by decide +kernel
  refine ⟨_, ms, hnests, _, _, hmem, rfl, ?_⟩
  rw [← hlabel]
  exact (hlabels _ _ hmem).1 ⟨_, rfl⟩

/-- A kernel breaks off, alone on its thread, and after the step the label still shows its
instruction. -/
theorem Execution.index_left_behind :
    let (e, t) := Execution.solo "boom" Kernels.boom
    (Runner.solo "boom" Kernels.boom).start Stage.desk = (.ok e, t) ∧ e.isFinished = false ∧
      t.label = some "run 00000000" ∧ (e.step t).1 = .panic (.custom "boom") ∧
      (e.step t).2.2.label = some "run 00000000 #0" ∧
      (e.step t).2.2.label ≠ some (Context.label ⟨e.run, none⟩) := by
  have hnone : Context.label ⟨⟨0, 0⟩, none⟩ = "run 00000000" := by decide +kernel
  have hsome : Context.label ⟨⟨0, 0⟩, some 0⟩ = "run 00000000 #0" := by decide +kernel
  refine ⟨rfl, rfl, ?_, rfl, ?_, fun h => ?_⟩
  · rw [← hnone]
    rfl
  · rw [← hsome]
    rfl
  · exact Context.label_none_ne ⟨0, 0⟩ ⟨0, 0⟩ 0 (Option.some.inj h).symm

end InferenceEngine
