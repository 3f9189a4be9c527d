import InferenceEngine.Proofs.Interpreter
import InferenceEngine.Proofs.Labels

/-!
# The call that a step makes

A step makes one call at most. `Execution.callAt` is that call, together with the contents of the
variables that it is made on.

* `Execution.step_of_call` — a step that makes a call ends as the call does, and leaves in the
  variables what the call leaves in them.
* `Execution.step_of_no_call` — any other step leaves the variables alone, and if it is broken off,
  then by looking up the instruction.
* `Execution.shape_step` — no step changes the length of a variable.
-/

namespace InferenceEngine.Execution

variable {e : Execution} {t : Thread} {i : Instruction} {call : Call} {b : Bank}

instance (e : Execution) (t : Thread) : Decidable (e.Dispatches t) :=
  inferInstanceAs (Decidable (_ ∧ _ ∧ ¬ (_ ∧ _)))

/-- The call that a step makes, if it makes one, and what is in the variables then. -/
def callAt (e : Execution) (t : Thread) : Option (Call × Bank) :=
  if e.Dispatches t then
    match e.prepare e.position with
    | .ok (_, call) => some (call, e.bank)
    | _ => none
  else none

theorem callAt_eq_some :
    e.callAt t = some (call, b) ↔
      e.Dispatches t ∧ b = e.bank ∧ ∃ i, e.prepare e.position = .ok (i, call) := by
  rw [callAt]
  by_cases hd : e.Dispatches t
  · rw [if_pos hd]
    cases hprep : e.prepare e.position with
    | ok p =>
      obtain ⟨i, call'⟩ := p
      constructor
      · intro h
        obtain ⟨rfl, rfl⟩ := Prod.mk.inj (Option.some.inj h)
        exact ⟨hd, rfl, i, rfl⟩
      · rintro ⟨-, rfl, i', hi⟩
        obtain ⟨rfl, rfl⟩ := Prod.mk.inj (Outcome.ok.inj hi)
        rfl
    | error f => exact ⟨nofun, fun ⟨_, _, i, hi⟩ => nomatch hi⟩
    | panic p => exact ⟨nofun, fun ⟨_, _, i, hi⟩ => nomatch hi⟩
  · rw [if_neg hd]
    exact ⟨nofun, fun h => absurd h.1 hd⟩

theorem step_of_dispatches (h : e.Dispatches t) : e.step t = e.advance (e.poll t).2.2 :=
  step_of_not_due h.1 h.2.1 h.2.2

/-- The thread on which a step calls a kernel for the instruction `i`. -/
def kernelThread (e : Execution) (i : Instruction) (t : Thread) : Thread :=
  e.callThread e.position i (e.dispatchThread t)

/-- A step that makes a call ends as the call does. -/
theorem step_of_call (hd : e.Dispatches t) (hprep : e.prepare e.position = .ok (i, call)) :
    (e.step t).1 = (invoke call e.bank (e.kernelThread i t)).1.map (fun _ => .executed) ∧
      (e.step t).2.1.bank = (invoke call e.bank (e.kernelThread i t)).2.1 := by
  rw [step_of_dispatches hd]
  rcases hinvoke : invoke call e.bank (e.kernelThread i t) with ⟨o, b, t'⟩
  rcases advance_of_call rfl hprep hinvoke with ⟨rfl, trace, hadvance⟩ |
    ⟨t'', ⟨f, rfl, hadvance⟩ | ⟨p, rfl, hadvance⟩⟩
  · rw [hadvance]
    exact ⟨rfl, rfl⟩
  · rw [hadvance]
    exact ⟨rfl, rfl⟩
  · rw [hadvance]
    exact ⟨rfl, rfl⟩

/-- A step that makes no call leaves the variables alone, and only looking up the instruction can
break it off. -/
theorem step_of_no_call (h : e.callAt t = none) :
    (e.step t).2.1.bank = e.bank ∧
      ∀ p, (e.step t).1 = .panic p → e.Dispatches t ∧ e.prepare e.position = .panic p := by
  by_cases hd : e.Dispatches t
  · rw [step_of_dispatches hd, advance, dispatch]
    cases hprep : e.prepare e.position with
    -- an instruction that can be prepared would be called
    | ok p =>
      have hcall : e.callAt t = some (p.2, e.bank) := callAt_eq_some.mpr ⟨hd, rfl, p.1, hprep⟩
      rw [hcall] at h
      cases h
    | error f => exact ⟨rfl, by simp⟩
    | panic p =>
      refine ⟨rfl, fun q hq => ⟨hd, ?_⟩⟩
      cases hq
      rfl
  · rcases step_cases e t with ⟨-, hs⟩ | ⟨-, -, hs⟩ | ⟨-, -, -, hs⟩ | ⟨hfin, hend, hdue, -⟩
    · rw [hs]
      exact ⟨rfl, by simp⟩
    · rw [hs]
      exact ⟨rfl, by simp⟩
    · rw [hs]
      exact ⟨rfl, by simp⟩
    · exact absurd ⟨hfin, hend, hdue⟩ hd

/-- No step changes the length of a variable. -/
theorem shape_step (e : Execution) (t : Thread) : (e.step t).2.1.bank.shape = e.bank.shape := by
  cases hcall : e.callAt t with
  | none => rw [(step_of_no_call hcall).1]
  | some made =>
    obtain ⟨hd, -, i, hprep⟩ := callAt_eq_some.mp hcall
    rw [(step_of_call hd hprep).2]
    exact Routine.shape_run made.1.args (made.1.kernel made.1.args) e.bank (e.kernelThread i t)

end InferenceEngine.Execution
