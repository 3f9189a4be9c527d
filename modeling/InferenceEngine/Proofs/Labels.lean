import Mathlib.Data.Nat.Digits.Defs
import InferenceEngine.Proofs.Step

/-!
# The label in force

A thread shows which run is active on it, and the label of that run is on every line of the log. A
pass makes its run the active one when it begins and puts back what it has found when it is closed.
In between it only ever sets the number of the instruction, in the context of whichever run is the
active one then.

`Execution.dispatchThread` is the thread on which a step looks up and calls its instruction, and
`Execution.label_dispatchThread` the label that is shown there. `Execution.context_step` says what a
step leaves of the context: the active run stays the same, and unless the step dispatches, so does
the number of the instruction.
-/

namespace InferenceEngine

namespace Thread

@[simp] theorem context_emit (t : Thread) (s : Severity) (text : String) :
    (t.emit s text).context = t.context := by
  rw [emit]
  split <;> rfl

@[simp] theorem context_focus (t : Thread) (instruction : Option Nat) :
    (t.focus instruction).context = t.context.map fun c => { c with instruction } := rfl

end Thread

/-! ## Labels -/

namespace RunId

/-- The first part of a run id has eight digits. -/
theorem length_lead (id : RunId) : id.lead.length = 8 := by
  have hlt : id.high.toNat / 0x100000000 < 16 ^ 8 := by
    have := id.high.toNat_lt
    omega
  have hdigits := Nat.toDigits_length 16 _ 8 (by decide) hlt
  rw [lead, String.length_ofList, Text.paddedHex, List.length_append, List.length_replicate,
    Text.hex]
  omega

end RunId

namespace Context

/-- Every label begins with the run. -/
theorem label_eq (c : Context) : ∃ tail, c.label = "run " ++ (c.run.lead ++ tail) := by
  rw [label]
  rcases c.instruction with _ | index
  · exact ⟨"", by rw [String.append_empty]⟩
  · exact ⟨s!" #{index}", String.append_assoc⟩

/-- Contexts with the same label are of runs with the same first digits. -/
theorem lead_eq_of_label_eq {c c' : Context} (h : c.label = c'.label) :
    c.run.lead = c'.run.lead := by
  obtain ⟨tail, hc⟩ := c.label_eq
  obtain ⟨tail', hc'⟩ := c'.label_eq
  rw [hc, hc'] at h
  have hlists := congrArg String.toList h
  rw [String.toList_append, String.toList_append, String.toList_append,
    String.toList_append] at hlists
  -- leads are of one length, so what follows them in the labels does not matter
  have hlength : c.run.lead.toList.length = c'.run.lead.toList.length := by
    rw [String.length_toList, String.length_toList, RunId.length_lead, RunId.length_lead]
  exact String.toList_inj.mp (List.append_inj_left (List.append_cancel_left hlists) hlength)

/-- Labels with the same number of the instruction differ in the first digits of the run only. -/
theorem label_eq_iff {run run' : RunId} {instruction : Option Nat} :
    label ⟨run, instruction⟩ = label ⟨run', instruction⟩ ↔ run.lead = run'.lead := by
  refine ⟨fun h => ?_, fun h => ?_⟩
  · have hlead := lead_eq_of_label_eq h
    exact hlead
  · rcases instruction with _ | index
    · exact congrArg ("run " ++ ·) h
    · exact congrArg ("run " ++ · ++ s!" #{index}") h

/-- The number of an instruction is seen in the label. -/
theorem label_none_ne (run run' : RunId) (index : Nat) :
    label ⟨run, none⟩ ≠ label ⟨run', some index⟩ := by
  intro h
  have hnumber : 2 ≤ s!" #{index}".length := by
    rw [String.length_append]
    exact Nat.le_add_right _ _
  have hlength := congrArg String.length h
  rw [label, label, String.length_append, String.length_append, String.length_append,
    RunId.length_lead, RunId.length_lead] at hlength
  omega

end Context

/-! ## Kernels that keep the context -/

/-- The kernel leaves the context as it finds it, whatever it does in between. -/
def Kernel.Steady (k : Kernel) : Prop :=
  ∀ args b t, ((k args).run args b t).2.2.context = t.context

/-- All kernels keep the context. -/
def Registry.Steady (r : Registry) : Prop := ∀ e ∈ r.entries, Kernel.Steady e.2

namespace Execution

variable {e : Execution} {t : Thread} {index : Nat} {i : Instruction} {call : Call}

/-- What an instruction calls is made of what its references lead to. -/
theorem prepare_eq_ok (h : e.prepare index = .ok (i, call)) :
    ∃ (s : Step) (handle : Nat), s.kernel = some handle ∧
      e.compiled.kernels.entry handle = .ok call.kernel ∧
      Slot.fetchAll .input index e.compiled.buffers.view s.inputs = .ok call.args.inputs ∧
      Slot.fetchAll .output index e.compiled.buffers.view s.outputs = .ok call.args.outputs := by
  obtain ⟨⟨i', s⟩, -, h⟩ := Outcome.bind_eq_ok.mp h
  obtain ⟨call', hresolve, h⟩ := Outcome.bind_eq_ok.mp h
  obtain ⟨-, rfl⟩ := Prod.mk.inj (Outcome.ok.inj h)
  obtain ⟨inputs, hinputs, hresolve⟩ := Outcome.bind_eq_ok.mp hresolve
  obtain ⟨outputs, houtputs, hresolve⟩ := Outcome.bind_eq_ok.mp hresolve
  obtain ⟨weights, -, hresolve⟩ := Outcome.bind_eq_ok.mp hresolve
  rcases hk : s.kernel with _ | handle
  · rw [hk] at hresolve
    cases hresolve
  · rw [hk] at hresolve
    obtain ⟨k, hentry, hresolve⟩ := Outcome.bind_eq_ok.mp hresolve
    obtain rfl := Outcome.ok.inj hresolve
    exact ⟨s, handle, hk, hentry, hinputs, houtputs⟩

/-- What is called is an entry point of the graph. -/
theorem mem_of_prepare (h : e.prepare index = .ok (i, call)) :
    ∃ name, (name, call.kernel) ∈ e.compiled.kernels.entries := by
  obtain ⟨s, handle, -, hentry, -⟩ := prepare_eq_ok h
  rw [Registry.entry, Registry.entry?] at hentry
  rcases he : e.compiled.kernels.entries[handle]? with _ | entry
  · rw [he] at hentry
    cases hentry
  · rw [he] at hentry
    have hkernel := Outcome.ok.inj hentry
    exact ⟨entry.1, hkernel ▸ List.mem_of_getElem? he⟩

/-- The kernels of the pass keep the context. -/
def Steady (e : Execution) : Prop := e.compiled.kernels.Steady

theorem context_mark (e : Execution) (t : Thread) : (e.mark t).context = t.context := by
  rw [mark]
  split <;> rfl

/-- A dispatch keeps the context if its kernel does. -/
theorem context_dispatch_of_call
    (h : ∀ i call, e.prepare index = .ok (i, call) →
      (invoke call e.bank (e.callThread index i t)).2.2.context = t.context) :
    (e.dispatch index t).2.2.context = t.context := by
  rw [dispatch]
  rcases hprep : e.prepare index with ⟨i, call⟩ | f | p
  · have hcall := h i call hprep
    dsimp only
    rw [execute_eq]
    rcases hinvoke : invoke call e.bank (e.callThread index i t) with ⟨_ | f | p, b, t'⟩
    all_goals rw [hinvoke] at hcall
    · exact (context_mark e t').trans hcall
    · exact hcall
    · exact hcall
  · rfl
  · rfl

/-- Dispatching an instruction leaves the context as it is, if its kernel does. -/
theorem context_dispatch (h : e.Steady) (index : Nat) (t : Thread) :
    (e.dispatch index t).2.2.context = t.context := by
  refine context_dispatch_of_call fun i call hprep => ?_
  obtain ⟨name, hmem⟩ := mem_of_prepare hprep
  rw [invoke, h _ hmem call.args e.bank (e.callThread index i t), callThread, context_mark,
    Thread.context_emit]

/-! ## Steps -/

/-- A step on this thread dispatches the next instruction. -/
def Dispatches (e : Execution) (t : Thread) : Prop :=
  e.isFinished = false ∧ e.position ≠ e.total ∧ ¬ e.Due t

/-- The thread on which a step looks up the next instruction and calls it. -/
def dispatchThread (e : Execution) (t : Thread) : Thread :=
  (e.poll t).2.2.focus (some e.position)

theorem context_poll (e : Execution) (t : Thread) : (e.poll t).2.2.context = t.context := by
  rw [poll_thread]
  split <;> rfl

/-- During a dispatch the label shows the number of the instruction, and whichever run is active. -/
theorem label_dispatchThread (e : Execution) (t : Thread) :
    (e.dispatchThread t).label =
      t.context.map fun c => Context.label ⟨c.run, some e.position⟩ := by
  rw [dispatchThread, Thread.label, Thread.context_focus, context_poll, Option.map_map]
  rfl

/-- The label that a kernel reads is the one that is shown while its instruction is dispatched. -/
theorem label_callThread (e : Execution) (i : Instruction) (t : Thread) :
    (e.callThread e.position i (e.dispatchThread t)).label = (e.dispatchThread t).label := by
  rw [Thread.label, callThread, context_mark, Thread.context_emit, Thread.label]

/-- Unless it dispatches, a step keeps the context. -/
theorem context_step_of_not_dispatches (h : ¬ e.Dispatches t) :
    (e.step t).2.2.context = t.context := by
  rcases step_cases e t with ⟨-, hs⟩ | ⟨-, -, hs⟩ | ⟨-, -, -, hs⟩ | ⟨hfin, hend, hdue, -⟩
  · rw [hs]
  · rw [hs]
    rfl
  · rw [hs]
    rfl
  · exact absurd ⟨hfin, hend, hdue⟩ h

/-- A step keeps the active run, and unless it dispatches the whole context. -/
theorem context_step (h : e.Steady) (t : Thread) :
    (¬ e.Dispatches t → (e.step t).2.2.context = t.context) ∧
      (e.step t).2.2.context.map Context.run = t.context.map Context.run := by
  refine ⟨context_step_of_not_dispatches, ?_⟩
  rcases step_cases e t with ⟨-, hs⟩ | ⟨-, -, hs⟩ | ⟨-, -, -, hs⟩ | ⟨-, -, -, hs⟩
  · rw [hs]
  · rw [hs]
    rfl
  · rw [hs]
    rfl
  · -- a break leaves the number of the instruction behind, so only the run is sure to be kept
    have hdispatch := context_dispatch h e.position (e.dispatchThread t)
    have hrun : (e.dispatchThread t).context.map Context.run = t.context.map Context.run := by
      rw [dispatchThread, Thread.context_focus, context_poll, Option.map_map]
      rfl
    rw [hs, advance, ← dispatchThread]
    rw [← hrun, ← hdispatch]
    rcases e.dispatch e.position (e.dispatchThread t) with ⟨_ | f | p, e', t'⟩
    · simp [Function.comp_def]
    · simp [Function.comp_def]
    · rfl

end Execution

end InferenceEngine
