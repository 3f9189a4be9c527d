import InferenceEngine.Kernel.Library
import InferenceEngine.Proofs.Histories
import InferenceEngine.Proofs.Nesting
import InferenceEngine.Proofs.Overlap

/-!
# Labels while runs are nested

`Nests.labels_restored` is what kernels that run programs of their own can rely on: whatever they begin,
drive and drop inside a dispatch, at any depth and however it ends, the label is theirs again
afterwards.

Runs do nest (`Nests.exists_run`), so a kernel that runs a program of nesting kernels nests itself, as
the kernel `nested` of the library does (`Kernel.nesting_nested`).
-/

namespace InferenceEngine

@[simp] theorem Thread.context_writeAll (t : Thread) (es : List Entry) :
    (t.writeAll es).context = t.context := rfl

/-! ## What nests -/

/-- Whatever the kernel is called with, it nests. -/
def Kernel.Nesting (k : Kernel) : Prop :=
  ∀ outer args b t, ∃ ms, Nests outer args [] (k args) b t ms

/-- All kernels nest. -/
def Registry.Nesting (r : Registry) : Prop := ∀ e ∈ r.entries, Kernel.Nesting e.2

/-- All kernels of the runner nest, if it is compiled. -/
def Runner.Nesting (r : Runner) : Prop := ∀ c, r.compiled = some c → c.kernels.Nesting

namespace Nests

variable {outer own : List Frame} {args : Args} {b : Bank} {t u : Thread} {k : Routine Unit}

/-- What leaves the context alone is on the way. -/
theorem exists_aside {t' : Thread} (h : t'.context = t.context)
    (hrest : ∃ ms, Nests outer args own (.become u k) b t' ms) :
    ∃ ms, Nests outer args own (.become u k) b t ms := by
  obtain ⟨ms, hms⟩ := hrest
  exact ⟨_, .aside h hms⟩

/-- So is a step of a pass over nesting kernels. -/
theorem exists_step {f : Frame} (hk : f.pass.compiled.kernels.Nesting)
    (h : ∃ ms, Nests outer args (f.stepped t :: own) (.become u k) b (f.pass.step t).2.2 ms) :
    ∃ ms, Nests outer args (f :: own) (.become u k) b t ms := by
  obtain ⟨ms, hms⟩ := h
  cases hcall : f.pass.callAt t with
  | none => exact ⟨_, .pass hcall hms⟩
  | some made =>
    obtain ⟨hd, -, i, hprep⟩ := Execution.callAt_eq_some.mp hcall
    obtain ⟨name, hmem⟩ := Execution.mem_of_prepare hprep
    obtain ⟨inner, hinner⟩ := hk _ hmem (f.calling :: (own ++ outer)) made.1.args f.pass.bank
      (f.pass.kernelThread i t)
    exact ⟨_, .call hd hprep hinner hms⟩

/-- So is driving it. -/
theorem exists_drive (sink : ProgressSink) (budget : Nat) {f : Frame}
    (hk : f.pass.compiled.kernels.Nesting)
    (h : ∀ f', f'.pass = (Runner.drive sink budget f.pass t).2.1 →
      ∃ ms, Nests outer args (f' :: own) (.become u k) b
        (Runner.drive sink budget f.pass t).2.2 ms) :
    ∃ ms, Nests outer args (f :: own) (.become u k) b t ms := by
  -- what comes after the drive is given for the frame it leaves, and each step puts one more moment
  -- before it
  induction budget generalizing f t with
  | zero => exact h f rfl
  | succ budget ih =>
    have hk' : (f.stepped t).pass.compiled.kernels.Nesting := by
      have hsame := (Execution.samePass_step f.pass t).compiled
      rw [Frame.stepped, hsame]
      exact hk
    apply exists_step hk
    have hpass : (f.stepped t).pass = (f.pass.step t).2.1 := rfl
    rw [Runner.drive] at h
    rcases hs : f.pass.step t with ⟨⟨_ | p | p⟩ | g | p, e', t'⟩
    all_goals
      rw [hs] at h hpass
      subst hpass
    · exact ih hk' h
    · exact exists_aside (Thread.context_writeAll t' (sink.entries p)) (ih hk' h)
    · exact exists_aside (Thread.context_writeAll t' (sink.entries p)) (h _ rfl)
    · exact h _ rfl
    · exact h _ rfl

/-- **Runs nest**: a run of nesting kernels is on the way. -/
theorem exists_run {r : Runner} (hr : r.Nesting)
    (h : ∃ ms, Nests outer args own (.become u k) b (r.run t).2.2 ms) :
    ∃ ms, Nests outer args own (.become u k) b t ms := by
  rw [Runner.run] at h
  rcases hstart : r.start t with ⟨f | e, t₀⟩
  · rw [hstart] at h
    exact exists_aside (Runner.context_start_error hstart) h
  · rw [hstart] at h
    obtain ⟨hcompiled, -⟩ := Runner.context_start hstart
    obtain ⟨ms, hms⟩ : ∃ ms, Nests outer args (.begun e t :: own) (.become u k) b t₀ ms := by
      refine exists_drive r.sink (Runner.budget e) (hr _ hcompiled) fun f' hf' => ?_
      obtain ⟨ms, hms⟩ := h
      have hclosed : Nests outer args own (.become u k) b
          (f'.pass.close (Runner.drive r.sink (Runner.budget e) e t₀).2.2) ms := by
        rw [hf']
        exact hms
      exact ⟨_, .drop hclosed⟩
    exact ⟨_, .begin hstart hms⟩

end Nests

/-! ## The kernel that runs a program -/

theorem Kernel.nesting_label : Kernel.Nesting Kernels.label :=
  fun _ _ _ _ => ⟨_, .look (.note .done)⟩

theorem Kernel.nesting_noop : Kernel.Nesting Kernels.noop := fun _ _ _ _ => ⟨_, .done⟩

/-- Warnings are logged under the label that there is. -/
theorem Runner.context_logWarnings (ws : List LinkWarning) (t : Thread) :
    (logWarnings ws t).context = t.context := by
  induction ws generalizing t with
  | nil => rfl
  | cons w rest ih => exact (ih _).trans (Thread.context_emit t .warning w.text)

/-- Compiling leaves the context alone. -/
theorem Runner.context_compile (r : Runner) (t : Thread) :
    (r.compile t).2.2.context = t.context := by
  rw [compile]
  cases r.compiled with
  | some c => rfl
  | none =>
    cases build r.loader r.descriptor with
    | error f => rfl
    | panic p => rfl
    | ok c => exact (Thread.context_emit _ _ _).trans (context_logWarnings _ t)

/-- The kernels of the program that `nested` runs. -/
theorem Kernels.nesting_innerRunner {t : Thread} (h : (innerRunner.compile t).1 = .ok ()) :
    (innerRunner.compile t).2.1.Nesting := by
  obtain ⟨-, c, hbuild, hr⟩ := Runner.compile_of_ok h
  have hkernels := (Runner.build_spec hbuild).1
  have hentries : c.kernels.entries = [("label", label), ("noop", noop)] :=
    congrArg Registry.entries (Except.ok.inj hkernels).symm
  rw [hr]
  intro c' hc'
  obtain rfl := Option.some.inj hc'
  intro entry hentry
  rw [hentries] at hentry
  rcases List.mem_cons.mp hentry with rfl | hentry
  · exact Kernel.nesting_label
  · obtain rfl := List.mem_singleton.mp hentry
    exact Kernel.nesting_noop

/-- What is done to a runner is part of a routine that nests, if it is on the way, and if the routine
nests from there. -/
theorem Nests.exists_onRunner {outer : List Frame} {args : Args} {b : Bank} {t : Thread}
    {act : Runner → Thread → Outcome Unit × Runner × Thread} {r : Runner}
    {rest : Runner → Routine Unit}
    (hway : ∀ k, (∃ ms, Nests outer args [] (.become (act r t).2.2 k) b (act r t).2.2 ms) →
      ∃ ms, Nests outer args [] (.become (act r t).2.2 k) b t ms)
    (hrest : (act r t).1 = .ok () →
      ∃ ms, Nests outer args [] (rest (act r t).2.1) b (act r t).2.2 ms) :
    ∃ ms, Nests outer args [] ((Kernels.onRunner act r).bind rest) b t ms := by
  obtain ⟨ms, hms⟩ : ∃ ms, Nests outer args []
      (((Routine.ofOutcome (act r t).1).bind fun _ => .done (act r t).2.1).bind rest) b
      (act r t).2.2 ms := by
    cases ho : (act r t).1 with
    | ok u => exact hrest ho
    | error f => exact ⟨_, .fail⟩
    | panic p => exact ⟨_, .panic⟩
  obtain ⟨ms', hms'⟩ := hway _ ⟨_, .become hms⟩
  exact ⟨_, .look hms'⟩

/-- Noting what a run has recorded makes no further calls. -/
theorem Nests.exists_noteRun {outer : List Frame} {args : Args} {b : Bank} {t : Thread}
    (events : List TraceEvent) {rest : Routine Unit}
    (hrest : ∀ t, ∃ ms, Nests outer args [] rest b t ms) :
    ∃ ms, Nests outer args [] ((Kernels.noteRun events).bind fun _ => rest) b t ms := by
  cases events with
  | nil => exact hrest t
  | cons e events =>
    obtain ⟨ms, hms⟩ := hrest (t.write (.note (.innerRun e.run)))
    exact ⟨_, .note hms⟩

/-- A kernel that runs another runner makes the calls of that run, and otherwise notes what came of
it. -/
theorem Kernel.nesting_nested : Kernel.Nesting Kernels.nested := by
  intro outer args b t
  obtain ⟨ms, hms⟩ : ∃ ms, Nests outer args []
      ((Kernels.onRunner Runner.compile Kernels.innerRunner).bind fun r =>
        (Kernels.onRunner Runner.run r).bind fun r =>
          (Kernels.noteRun r.trace).bind fun _ => Kernels.label args) b
      (t.write (.note (.label t.label))) ms := by
    refine Nests.exists_onRunner (fun k => Nests.exists_aside (Runner.context_compile _ _)) fun ho => ?_
    refine Nests.exists_onRunner (fun k => Nests.exists_run (Kernels.nesting_innerRunner ho)) fun _ => ?_
    exact Nests.exists_noteRun _ fun t => ⟨_, .look (.note .done)⟩
  exact ⟨_, .look (.note hms)⟩

/-! ## What kernels can rely on -/

/-- What is emitted on a thread carries the context of the thread. -/
theorem Thread.context_of_emitted {t : Thread} {s : Severity} {text : String} {line : LogLine}
    (h : .log line ∈ (t.emit s text).journal.drop t.journal.length) : line.context = t.context := by
  rw [emit] at h
  by_cases hs : s.passes t.level = true
  · rw [if_pos hs, write, List.drop_left] at h
    obtain rfl := Entry.log.inj (List.mem_singleton.mp h)
    rfl
  · rw [if_neg hs, List.drop_length] at h
    exact absurd h List.not_mem_nil

/-- **Nested runs leave the label as they find it.** Let a host, and the kernels of the passes that it
begins, and the kernels of the passes that these begin in their turn, to any depth, step and drop their
own passes while these are the youngest, and let none leave a pass open when it ends.

While a pass dispatches an instruction and no pass has been begun there that is still live, the label is
that of the pass with the number of the instruction, and every line that is logged then has it. When a
pass is dropped, finished, failed, broken off or none of these, the context is the one that was in
force when it began. And in the end the context is what it was in the beginning. -/
theorem Nests.labels_restored {host : Routine Unit} {args : Args} {b : Bank} {t : Thread}
    {ms : List Moment} (h : Nests [] args [] host b t ms) :
    (∀ f live u index, .during (f :: live) u ∈ ms → f.phase = .dispatching index →
      u.label = some (Context.label ⟨f.pass.run, some index⟩) ∧
      ∀ s text line, .log line ∈ (u.emit s text).journal.drop u.journal.length →
        line.context = some ⟨f.pass.run, some index⟩) ∧
      (∀ f u, .ended f u ∈ ms → u.context = f.found ∧ u.label = f.found.map Context.label) ∧
      (host.run args b t).2.2.context = t.context := by
  obtain ⟨hright, hend⟩ := h.right_of_host
  refine ⟨fun f live u index hm hphase => ?_, fun f u hm => ?_, hend⟩
  · have hcontext : u.context = some ⟨f.pass.run, some index⟩ := by
      rw [hright _ hm, shownBy, Frame.context, hphase, Phase.instruction]
    refine ⟨?_, fun s text line hline => (Thread.context_of_emitted hline).trans hcontext⟩
    rw [Thread.label, hcontext]
    rfl
  · have hfound := hright _ hm
    exact ⟨hfound, congrArg (Option.map Context.label) hfound⟩

/-! ## One instruction alone -/

/-- A call without operands. -/
def idle : Args := ⟨[], [], [], .default⟩

section Solo

variable (name : String) (k : Kernel)

/-- A graph whose only instruction calls the kernel without operands. -/
def Compiled.solo : Compiled where
  weights := ⟨[], [], #[]⟩
  buffers := ⟨[], []⟩
  kernels := ⟨[(name, k)]⟩
  program := [⟨some 0, [], [], []⟩]
  inputs := []
  outputs := []

/-- A runner for this graph. -/
def Runner.solo : Runner :=
  { Runner.ofDescriptor { Descriptor.default with instructions := [.ofEntry name] }
      ⟨fun _ => .ok ⟨[(name, k)]⟩⟩ with
    compiled := some (.solo name k) }

/-- The pass that begins when the runner is started on the desk, and the thread then. -/
def Execution.solo : Execution × Thread :=
  Execution.start [.ofEntry name] (.solo name k) false false
    (Runner.solo name k).options.progressInterval Stage.desk

/-- The same pass among others. -/
def Frame.solo : Frame := .begun (Execution.solo name k).1 Stage.desk

theorem Frame.dispatches_solo :
    (Frame.solo name k).pass.Dispatches (Execution.solo name k).2 :=
  ⟨rfl, Nat.zero_ne_one, fun h => absurd h.2 (Nat.not_succ_le_zero _)⟩

/-- It can be begun, take its first step and be dropped, if the kernel nests. -/
theorem Nests.exists_solo (hk : k.Nesting) :
    ∃ u ms, Nests [] idle [] (.become u (.done ())) [] Stage.desk ms ∧
      .during [(Frame.solo name k).calling]
        ((Frame.solo name k).pass.dispatchThread (Execution.solo name k).2) ∈ ms ∧
      .stepped (Frame.solo name k) (Execution.solo name k).2 ∈ ms := by
  have hstart : (Runner.solo name k).start Stage.desk =
      (.ok (Execution.solo name k).1, (Execution.solo name k).2) := rfl
  have hd := Frame.dispatches_solo name k
  have hprep : (Frame.solo name k).pass.prepare (Frame.solo name k).pass.position =
      .ok (.ofEntry name, ⟨k, idle⟩) := rfl
  obtain ⟨inner, hinner⟩ := hk [(Frame.solo name k).calling] idle (Frame.solo name k).pass.bank
    ((Frame.solo name k).pass.kernelThread (.ofEntry name) (Execution.solo name k).2)
  refine ⟨_, _, .begin hstart (.call hd hprep hinner (.drop (.become .done))), ?_, ?_⟩
  -- first the lookup, then what the kernel does, then the step
  · exact List.mem_cons_of_mem _ (List.mem_cons_of_mem _ (List.mem_append_left _
      (List.mem_append_left _ (Frame.mem_lookup hd []))))
  · exact List.mem_cons_of_mem _ (List.mem_cons_of_mem _ (List.mem_append_right _
      List.mem_cons_self))

end Solo

/-- A pass begins, dispatches the instruction that runs a program, and is dropped. -/
theorem Nests.labels_restored_dive :
    ∃ host ms, Nests [] idle [] host [] Stage.desk ms ∧
      (host.run idle [] Stage.desk).2.2.label = none ∧
      ∃ f u, .during [f] u ∈ ms ∧ f.phase = .dispatching 0 ∧ u.label = some "run 00000000 #0" := by
  obtain ⟨u, ms, hnests, hmem, -⟩ := Nests.exists_solo "nested" _ Kernel.nesting_nested
  obtain ⟨hlabels, -, hend⟩ := hnests.labels_restored
  have hlabel : Context.label ⟨⟨0, 0⟩, some 0⟩ = "run 00000000 #0" := by decide +kernel
  refine ⟨_, ms, hnests, congrArg (Option.map Context.label) hend, _, _, hmem, rfl, ?_⟩
  rw [← hlabel]
  exact (hlabels _ [] _ 0 hmem rfl).1

end InferenceEngine
