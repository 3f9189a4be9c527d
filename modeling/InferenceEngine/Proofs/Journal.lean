import InferenceEngine.Proofs.Interpreter
import InferenceEngine.Proofs.Labels

/-!
# What is written is not read

Whatever a run writes on its thread goes to the end of the journal, and nothing that a run does looks
at what stands there. So two threads that differ in their journals only are as good as one: a step
comes to the same on both, and writes the same on both.

* `Heedless` says this of an action, and `Registry.Heedless` of the kernels of a graph. Kernels that
  leave the thread alone are heedless (`Routine.heedless_of_blind`), and so are those that log, or
  read the label.
* `Execution.heedless_step` — steps are heedless if the kernels are.
-/

namespace InferenceEngine

namespace Thread

/-- The thread with something else written on it so far. -/
def withJournal (t : Thread) (j : List Entry) : Thread := { t with journal := j }

@[simp] theorem journal_withJournal (t : Thread) (j : List Entry) :
    (t.withJournal j).journal = j := rfl

@[simp] theorem withJournal_self (t : Thread) : t.withJournal t.journal = t := rfl

@[simp] theorem focus_withJournal (t : Thread) (j : List Entry) (instruction : Option Nat) :
    (t.withJournal j).focus instruction = (t.focus instruction).withJournal j := rfl

/-- What is written later comes behind whatever the journal was. -/
@[simp] theorem writeAll_withJournal (t : Thread) (j es : List Entry) :
    (t.withJournal j).writeAll es = t.withJournal (j ++ es) := rfl

/-- Whether a line is logged, and which, does not depend on what is written before. -/
theorem emit_withJournal (t : Thread) (s : Severity) (text : String) :
    ∃ new, ∀ j, (t.withJournal j).emit s text = (t.emit s text).withJournal (j ++ new) := by
  by_cases hs : s.passes t.level
  · refine ⟨[.log ⟨t.clock t.readings / 1000000000, s, t.context, text⟩], fun j => ?_⟩
    have hs' : s.passes (t.withJournal j).level := hs
    rw [emit, emit, if_pos hs, if_pos hs']
    rfl
  · refine ⟨[], fun j => ?_⟩
    have hs' : ¬ s.passes (t.withJournal j).level := hs
    rw [emit, emit, if_neg hs, if_neg hs', List.append_nil]

end Thread

/-- The action comes to the same whatever was written on the thread before, and writes the same to
the end of it. -/
def Heedless {α β : Type} (act : Thread → α × β × Thread) : Prop :=
  ∀ t, ∃ new, ∀ j,
    act (t.withJournal j) = ((act t).1, (act t).2.1, (act t).2.2.withJournal (j ++ new))

/-- The kernel does not read what is written, whatever it is called with. -/
def Kernel.Heedless (k : Kernel) : Prop :=
  ∀ args b, InferenceEngine.Heedless fun t => (k args).run args b t

/-- No kernel reads what is written. -/
def Registry.Heedless (r : Registry) : Prop := ∀ e ∈ r.entries, Kernel.Heedless e.2

/-! ## Kernels -/

namespace Routine

variable {α : Type}

/-- Routines that leave the thread alone do not read what is written on it. -/
theorem heedless_of_blind (args : Args) {r : Routine α} (h : r.Blind) (b : Bank) :
    Heedless fun t => r.run args b t := by
  intro t
  induction r generalizing b t with
  | done x => exact ⟨[], fun j => by simp [run]⟩
  | fail e => exact ⟨[], fun j => by simp [run]⟩
  | panic p => exact ⟨[], fun j => by simp [run]⟩
  | read pin i k ih =>
    simp only [run]
    cases pin.view? args with
    | none => exact ⟨[], fun j => by simp⟩
    | some v =>
      dsimp only
      cases b.get? v.cell i with
      | none => exact ⟨[], fun j => by simp⟩
      | some x => exact ih x (h x) b t
  | write pin i x k ih =>
    simp only [run]
    cases pin.view? args with
    | none => exact ⟨[], fun j => by simp⟩
    | some v =>
      dsimp only
      by_cases hi : i < b.size v.cell
      · simp only [if_pos hi]
        exact ih h _ t
      · simp only [if_neg hi]
        exact ⟨[], fun j => by simp⟩
  | note n k ih =>
    -- the note comes first, and then whatever else is written
    obtain ⟨new, hnew⟩ := ih h b (t.write (.note n))
    refine ⟨.note n :: new, fun j => ?_⟩
    have hj := hnew (j ++ [.note n])
    rw [List.append_assoc] at hj
    exact hj
  | look k ih => exact h.elim
  | become s k ih => exact h.elim

end Routine

namespace Execution

variable {e : Execution} {index : Nat} {i : Instruction} {call : Call}

/-! ## Calls -/

/-- Marking the instruction that runs has nothing to do with the journal. -/
theorem mark_withJournal (e : Execution) (t : Thread) (j : List Entry) :
    e.mark (t.withJournal j) = (e.mark t).withJournal j := by
  rw [mark, mark]
  split <;> rfl

/-- What is emitted while a call is prepared does not depend on the journal, and is appended to
it. -/
theorem callThread_withJournal (e : Execution) (index : Nat) (i : Instruction) (t : Thread) :
    ∃ new, ∀ j,
      e.callThread index i (t.withJournal j) = (e.callThread index i t).withJournal (j ++ new) := by
  obtain ⟨new, hnew⟩ := t.emit_withJournal .trace (dispatchText index i)
  refine ⟨new, fun j => ?_⟩
  rw [callThread, hnew, mark_withJournal, callThread]

/-- An instruction is heedless if the kernel that it calls is, for whatever buffers it is called
with. -/
theorem heedless_execute (hcall : ∀ b, Heedless (invoke call b)) :
    Heedless (e.execute index i call) := by
  intro t
  obtain ⟨line, hline⟩ := e.callThread_withJournal index i t
  obtain ⟨new, hnew⟩ := hcall e.bank (e.callThread index i t)
  obtain ⟨line', hline'⟩ := t.emit_withJournal .trace (dispatchText index i)
  refine ⟨line ++ new, fun j => ?_⟩
  rw [execute_eq, execute_eq, hline, hnew, List.append_assoc, hline']
  rcases invoke call e.bank (e.callThread index i t) with ⟨_ | f | p, b, t'⟩
  · -- the time the call took is read off the clock, which does not know what is written
    simp only [mark_withJournal]
    rfl
  · rfl
  · rfl

/-- A call that an instruction is prepared for is heedless if all registered kernels are. -/
theorem heedless_call (h : e.compiled.kernels.Heedless) (hprep : e.prepare index = .ok (i, call))
    (b : Bank) : Heedless (invoke call b) := by
  obtain ⟨name, hmem⟩ := mem_of_prepare hprep
  exact h _ hmem call.args b

/-- So is the dispatch of an instruction, whether it comes to a call or is refused before. -/
theorem heedless_dispatch (h : e.compiled.kernels.Heedless) (index : Nat) :
    Heedless (e.dispatch index) := by
  intro t
  simp only [dispatch]
  rcases hprep : e.prepare index with ⟨i, call⟩ | f | p
  · exact heedless_execute (heedless_call h hprep) t
  · exact ⟨[], fun j => by simp⟩
  · exact ⟨[], fun j => by simp⟩

/-! ## Steps -/

theorem heedless_advance (h : e.compiled.kernels.Heedless) : Heedless e.advance := by
  intro t
  obtain ⟨new, hnew⟩ := heedless_dispatch h e.position (t.focus (some e.position))
  simp only [advance, Thread.focus_withJournal, hnew]
  rcases e.dispatch e.position (t.focus (some e.position)) with ⟨_ | f | p, e', t'⟩
  · exact ⟨new, fun j => by simp⟩
  · -- a failure is logged
    obtain ⟨line, hline⟩ := t'.emit_withJournal .error (failureText e.position f)
    exact ⟨new ++ line, fun j => by simp [hline]⟩
  · exact ⟨new, fun j => by simp⟩

/-- Asking whether a notification is due looks at the clock alone. -/
theorem poll_withJournal (e : Execution) (t : Thread) (j : List Entry) :
    (e.poll (t.withJournal j)).2.2 = (e.poll t).2.2.withJournal j := by
  rw [poll_thread, poll_thread]
  split <;> rfl

/-- **Steps are heedless**: whatever was written on the thread before, a step comes to the same and
writes the same, if this is so for the kernels. -/
theorem heedless_step (h : e.compiled.kernels.Heedless) : Heedless e.step := by
  intro t
  rcases step_cases e t with ⟨hfin, hs⟩ | ⟨hfin, hend, hs⟩ | ⟨hfin, hend, hdue, hs⟩ |
    ⟨hfin, hend, hdue, hs⟩
  · refine ⟨[], fun j => ?_⟩
    rw [hs, step_of_finished hfin, List.append_nil]
  · refine ⟨[], fun j => ?_⟩
    rw [hs, step_of_end hfin hend, List.append_nil]
    rfl
  · refine ⟨[], fun j => ?_⟩
    have hdue' : e.Due (t.withJournal j) := hdue
    rw [hs, step_of_due hfin hend hdue', List.append_nil]
    rfl
  · obtain ⟨new, hnew⟩ := heedless_advance h (e.poll t).2.2
    refine ⟨new, fun j => ?_⟩
    have hdue' : ¬ e.Due (t.withJournal j) := hdue
    rw [hs, step_of_not_due hfin hend hdue', poll_withJournal, hnew]

end Execution

end InferenceEngine
