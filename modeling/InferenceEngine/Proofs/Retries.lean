import InferenceEngine.Kernel.Observation
import InferenceEngine.Proofs.Calls
import InferenceEngine.Proofs.Pass
import InferenceEngine.Proofs.Runs

/-!
# Steps that are taken again

A step that fails or is broken off leaves the pass where it is, and the caller may step on as often
as it likes. `Execution.retries_of_start` says what such a caller can rely on, whatever mixture of
notifications, successes, failures and breaks the steps bring.

* `Execution.frame_step` — only a step that executes an instruction or announces the end changes more
  of a pass than the contents of its variables and the notes about its last notification.
* `Execution.Told` — why there is no second notification for an instruction: the first one is
  remembered as long as the pass stays there.
* `Execution.Stuck` — why a reference that cannot be looked up once never can be: what is looked up
  depends on nothing that a step without a call changes.
-/

namespace InferenceEngine

/-- The failure of a name that is looked up when its instruction is reached. -/
def Failure.isLookup : Failure → Bool
  | unresolvedReference _ _ _ | missingEntryPoint _ _ => true
  | _ => false

namespace Execution

variable {e : Execution} {t : Thread}

/-! ## One step -/

/-- Only a dispatch that succeeds adds to the events. -/
theorem trace_dispatch {index : Nat} (h : ¬ (e.dispatch index t).1.Succeeds) :
    (e.dispatch index t).2.1.trace = e.trace := by
  rcases hprep : e.prepare index with ⟨i, call⟩ | f | p
  · rcases hinvoke : invoke call e.bank (e.callThread index i t) with ⟨_ | f | p, b, t'⟩
    all_goals simp only [dispatch, hprep, execute_eq, hinvoke] at h ⊢
    · exact absurd ⟨(), rfl⟩ h
    · rfl
    · rfl
  · rw [dispatch, hprep]
  · rw [dispatch, hprep]

theorem trace_advance (h : (e.advance t).1 ≠ .ok .executed) :
    (e.advance t).2.1.trace = e.trace := by
  have hfail : ¬ (e.dispatch e.position (t.focus (some e.position))).1.Succeeds := by
    rintro ⟨⟨⟩, hok⟩
    apply h
    rw [advance]
    rcases hd : e.dispatch e.position (t.focus (some e.position)) with ⟨o, e', t'⟩
    rw [hd] at hok
    obtain rfl : o = .ok () := hok
    rfl
  have htrace := trace_dispatch hfail
  rw [advance]
  rcases hd : e.dispatch e.position (t.focus (some e.position)) with ⟨_ | f | p, e', t'⟩
  · exact absurd ⟨(), congrArg Prod.fst hd⟩ hfail
  · rw [hd] at htrace
    exact htrace
  · rw [hd] at htrace
    exact htrace

/-- A step that executes an instruction has dispatched it. -/
theorem dispatches_of_executed (h : (e.step t).1 = .ok .executed) : e.Dispatches t := by
  rcases step_cases e t with ⟨-, hs⟩ | ⟨-, -, hs⟩ | ⟨-, -, -, hs⟩ | ⟨hfin, hend, hdue, -⟩
  · rw [hs] at h
    cases h
  · rw [hs] at h
    cases h
  · rw [hs] at h
    cases h
  · exact ⟨hfin, hend, hdue⟩

/-- So has a step that fails, unless the pass is at its end. -/
theorem dispatches_of_failed (hfin : e.isFinished = false) (h : ¬ (e.step t).1.Succeeds) :
    e.Dispatches t := by
  rcases step_cases e t with ⟨hend, -⟩ | ⟨-, -, hs⟩ | ⟨-, -, -, hs⟩ | ⟨-, hend, hdue, -⟩
  · exact absurd hend (ne_true_of_eq_false hfin)
  · rw [hs] at h
    exact absurd ⟨_, rfl⟩ h
  · rw [hs] at h
    exact absurd ⟨_, rfl⟩ h
  · exact ⟨hfin, hend, hdue⟩

/-- A step that neither executes an instruction nor announces the end leaves the pass where it
is. -/
theorem frame_step (h : (e.step t).1 ≠ .ok .executed)
    (hlast : ∀ p, (e.step t).1 ≠ .ok (.finished p)) :
    (e.step t).2.1.position = e.position ∧ (e.step t).2.1.isFinished = e.isFinished ∧
      (e.step t).2.1.trace = e.trace := by
  rcases step_cases e t with ⟨-, hs⟩ | ⟨-, -, hs⟩ | ⟨-, -, -, hs⟩ | ⟨-, -, -, hs⟩
  · rw [hs]
    exact ⟨rfl, rfl, rfl⟩
  · exact absurd (congrArg Prod.fst hs) (hlast _)
  · rw [hs]
    exact ⟨rfl, rfl, rfl⟩
  · rw [hs] at h ⊢
    refine ⟨?_, ?_, trace_advance h⟩
    all_goals
      obtain ⟨b, trace, ⟨-, ho, -⟩ | ⟨-, -, hstate⟩⟩ := advance_cases e (e.poll t).2.2
      · exact absurd ho h
      · rw [hstate]
        rfl

theorem position_step_of_not_executed (h : (e.step t).1 ≠ .ok .executed) :
    (e.step t).2.1.position = e.position := by
  rw [position_step, List.count_singleton, beq_false_of_ne h]
  rfl

theorem position_step_of_executed (h : (e.step t).1 = .ok .executed) :
    (e.step t).2.1.position = e.position + 1 := by
  rw [position_step, h]
  rfl

/-- If the pass is at instruction `index`, then a notification has been given for it. -/
def Told (e : Execution) (index : Nat) : Prop :=
  index ≤ e.position ∧ (e.position = index → e.reportedAt = some index)

theorem told_of_yielded {p : Progress} (h : (e.step t).1 = .ok (.yielded p)) :
    p.processed = e.position ∧ (e.step t).2.1.Told e.position := by
  rcases step_cases e t with ⟨-, hs⟩ | ⟨-, -, hs⟩ | ⟨-, -, -, hs⟩ | ⟨-, -, -, hs⟩
  · rw [hs] at h
    cases h
  · rw [hs] at h
    cases h
  · rw [hs] at h ⊢
    cases h
    exact ⟨rfl, Nat.le_refl _, fun _ => rfl⟩
  · rw [hs] at h
    obtain ⟨b, trace, ⟨-, ho, -⟩ | ⟨hfail, ho, -⟩⟩ := advance_cases e (e.poll t).2.2
    · rw [ho] at h
      cases h
    · rw [ho] at h
      exact absurd (Outcome.succeeds_of_map_eq_ok h) hfail

/-- What has been told stays told, and is not told again. -/
theorem told_step {index : Nat} (h : e.Told index) (t : Thread) :
    (e.step t).2.1.Told index ∧
      ∀ p, (e.step t).1 = .ok (.yielded p) → index < e.position := by
  obtain ⟨hle, htold⟩ := h
  rcases step_cases e t with ⟨-, hs⟩ | ⟨-, -, hs⟩ | ⟨-, -, hdue, hs⟩ | ⟨-, -, -, hs⟩
  · rw [hs]
    exact ⟨⟨hle, htold⟩, nofun⟩
  · rw [hs]
    exact ⟨⟨hle, htold⟩, nofun⟩
  · have hlt : index < e.position :=
      Nat.lt_of_le_of_ne hle fun h => hdue.1 (h ▸ htold h.symm)
    rw [hs]
    exact ⟨⟨hle, fun h => absurd h (Nat.ne_of_gt hlt)⟩, fun _ _ => hlt⟩
  · rw [hs]
    obtain ⟨b, trace, ⟨-, ho, hstate⟩ | ⟨hfail, ho, hstate⟩⟩ := advance_cases e (e.poll t).2.2
    · rw [ho, hstate]
      refine ⟨⟨Nat.le_succ_of_le hle, fun h => ?_⟩, nofun⟩
      exact absurd h (Nat.ne_of_gt (Nat.lt_succ_of_le hle))
    · rw [ho, hstate]
      exact ⟨⟨hle, htold⟩, fun p hp => absurd (Outcome.succeeds_of_map_eq_ok hp) hfail⟩

/-- The pass is at an instruction that cannot be looked up. -/
structure Stuck (e : Execution) (f : Failure) : Prop where
  /-- the end has not been announced -/
  unfinished : e.isFinished = false
  /-- there is an instruction left -/
  left : e.position ≠ e.total
  /-- looking it up fails -/
  prepare : e.prepare e.position = .error f

/-- A step from there fails in the same way, unless a notification comes first; it makes no call and
leads nowhere else. -/
theorem Stuck.step {f : Failure} (h : e.Stuck f) (t : Thread) :
    e.callAt t = none ∧ (e.step t).2.1.bank = e.bank ∧
      ((e.step t).1 = .error f ∨ ∃ p, (e.step t).1 = .ok (.yielded p)) ∧
      (e.step t).2.1.Stuck f := by
  have hcall : e.callAt t = none := by
    rw [callAt, h.prepare]
    exact ite_self none
  refine ⟨hcall, (step_of_no_call hcall).1, ?_⟩
  by_cases hdue : e.Due t
  · rw [step_of_due h.unfinished h.left hdue]
    exact ⟨.inr ⟨_, rfl⟩, h.unfinished, h.left, h.prepare⟩
  · obtain ⟨t', hadvance⟩ := advance_of_error (t := (e.poll t).2.2) rfl h.prepare
    rw [step_of_not_due h.unfinished h.left hdue, hadvance]
    exact ⟨.inl rfl, h⟩

/-- A failure of a lookup is the answer of the kernel that was called, or the pass is stuck. -/
theorem stuck_of_lookup {f : Failure} (hf : f.isLookup = true) (h : (e.step t).1 = .error f) :
    (∃ i call, e.callAt t = some (call, e.bank) ∧
      (invoke call e.bank (e.kernelThread i t)).1 = .error f) ∨ e.Stuck f := by
  have hfin : e.isFinished = false := by
    cases hfin : e.isFinished with
    | false => rfl
    | true =>
      rw [step_of_finished hfin] at h
      cases h
      cases hf
  have hd : e.Dispatches t := dispatches_of_failed hfin fun ⟨_, hok⟩ => nomatch h.symm.trans hok
  -- if the instruction can be prepared the failure is the kernel's own
  cases hprep : e.prepare e.position with
  | ok p =>
    obtain ⟨i, call⟩ := p
    refine .inl ⟨i, call, callAt_eq_some.mpr ⟨hd, rfl, i, hprep⟩, ?_⟩
    exact Outcome.map_eq_error.mp ((step_of_call hd hprep).1.symm.trans h)
  | error f' =>
    obtain ⟨t', hadvance⟩ := advance_of_error (t := (e.poll t).2.2) rfl hprep
    rw [step_of_dispatches hd, hadvance] at h
    cases h
    exact .inr ⟨hd.1, hd.2.1, hprep⟩
  | panic p =>
    rw [step_of_dispatches hd, advance, dispatch, hprep] at h
    cases h

/-! ## Any number of steps -/

variable (e : Execution) (ts : Nat → Thread)

/-- The instruction that step `k` dispatches, if it dispatches one. -/
def dispatchedAt (k : Nat) : Option Nat :=
  if (e.after ts k).Dispatches (ts k) then some (e.after ts k).position else none

/-- The instructions that are executed before step `k`, in the order of the steps. -/
def executed (k : Nat) : List Nat :=
  (List.range k).filterMap fun j =>
    if e.outcomeAt ts j = .ok .executed then e.dispatchedAt ts j else none

variable {e ts} {j k index : Nat}

theorem dispatchedAt_eq_some :
    e.dispatchedAt ts k = some index ↔
      (e.after ts k).Dispatches (ts k) ∧ (e.after ts k).position = index := by
  rw [dispatchedAt, Option.ite_none_right_eq_some, Option.some.injEq]

theorem dispatchedAt_of_executed (h : e.outcomeAt ts k = .ok .executed) :
    e.dispatchedAt ts k = some (e.after ts k).position :=
  dispatchedAt_eq_some.mpr ⟨dispatches_of_executed h, rfl⟩

/-- As long as nothing is dispatched the position stays. -/
theorem position_after_of_idle (hjk : j ≤ k)
    (hidle : ∀ m, j ≤ m → m < k → e.dispatchedAt ts m = none) :
    (e.after ts k).position = (e.after ts j).position := by
  induction hjk with
  | refl => rfl
  | @step k hjk ih =>
    rw [← ih fun m hm hmk => hidle m hm (Nat.lt_succ_of_lt hmk), after]
    apply position_step_of_not_executed
    intro hexecuted
    have hnone := hidle k hjk (Nat.lt_succ_self k)
    rw [dispatchedAt_of_executed hexecuted] at hnone
    cases hnone

/-- After a failure the instruction that is dispatched next is the one that failed. -/
theorem dispatchedAt_of_failed (hjk : j < k) (hfail : ¬ (e.outcomeAt ts j).Succeeds)
    (hidle : ∀ m, j < m → m < k → e.dispatchedAt ts m = none)
    (h : e.dispatchedAt ts k = some index) : e.dispatchedAt ts j = some index := by
  obtain ⟨hd, hpos⟩ := dispatchedAt_eq_some.mp h
  have hfin : (e.after ts j).isFinished = false := by
    cases hfin : (e.after ts j).isFinished with
    | false => rfl
    | true =>
      obtain ⟨m, rfl⟩ := Nat.exists_eq_add_of_le (Nat.le_of_lt hjk)
      rw [(after_of_finished hfin m).1] at hd
      exact absurd hfin (ne_true_of_eq_false hd.1)
  refine dispatchedAt_eq_some.mpr ⟨dispatches_of_failed hfin hfail, ?_⟩
  rw [← hpos, position_after_of_idle hjk hidle, after]
  exact (position_step_of_not_executed fun hok => hfail ⟨_, hok⟩).symm

/-- What has been told before step `j` is still told before step `k`. -/
theorem told_after (h : (e.after ts j).Told index) (hjk : j ≤ k) : (e.after ts k).Told index := by
  induction hjk with
  | refl => exact h
  | step hjk ih => exact (told_step ih _).1

/-- A later notification is for a later instruction. -/
theorem position_lt_of_yielded {p q : Progress} (hjk : j < k)
    (hj : e.outcomeAt ts j = .ok (.yielded p)) (hk : e.outcomeAt ts k = .ok (.yielded q)) :
    (e.after ts j).position < (e.after ts k).position := by
  have htold : (e.after ts (j + 1)).Told (e.after ts j).position := (told_of_yielded hj).2
  exact (told_step (told_after htold hjk) (ts k)).2 q hk

/-- The instructions are executed in order, each once. -/
theorem executed_eq (h : (e.after ts 0).position = 0) (k : Nat) :
    e.executed ts k = List.range (e.after ts k).position := by
  induction k with
  | zero =>
    rw [h]
    rfl
  | succ k ih =>
    rw [executed, List.range_succ, List.filterMap_append, ← executed, ih, List.filterMap_cons,
      List.filterMap_nil, after]
    by_cases hk : e.outcomeAt ts k = .ok .executed
    · rw [if_pos hk, dispatchedAt_of_executed hk, position_step_of_executed hk]
      exact List.range_succ.symm
    · rw [if_neg hk, position_step_of_not_executed hk]
      exact List.append_nil _

/-- Whoever has come past an instruction has executed it. -/
theorem exists_executed (h : (e.after ts 0).position = 0)
    (hk : index < (e.after ts k).position) :
    ∃ j < k, e.dispatchedAt ts j = some index ∧ e.outcomeAt ts j = .ok .executed := by
  have hmem : index ∈ e.executed ts k := by
    rw [executed_eq h]
    exact List.mem_range.mpr hk
  obtain ⟨j, hj, hindex⟩ := List.mem_filterMap.mp hmem
  obtain ⟨hexecuted, hdispatched⟩ := Option.ite_none_right_eq_some.mp hindex
  exact ⟨j, List.mem_range.mp hj, hdispatched, hexecuted⟩

theorem stuck_after {f : Failure} (h : (e.after ts j).Stuck f) (hjk : j ≤ k) :
    (e.after ts k).Stuck f ∧ (e.after ts k).bank = (e.after ts j).bank := by
  induction hjk with
  | refl => exact ⟨h, rfl⟩
  | step hjk ih =>
    obtain ⟨hstuck, hbank⟩ := ih
    obtain ⟨-, hkeep, -, hnext⟩ := hstuck.step (ts _)
    exact ⟨hnext, hkeep.trans hbank⟩

/-- **Steps that are taken again.** Let a fresh pass be stepped any number of times, whatever fails
or is broken off, and whatever the caller does on the thread between the steps.

A step that neither executes an instruction nor announces the end leaves the position, the end mark
and the events as they are. After a failed step the next instruction that is dispatched is the one
that failed. Two notifications are for different instructions. A kernel is called for an instruction
only after the one before has been executed, and the instructions executed so far are those before
the position, each once and in order. A failure of a lookup that is not the answer of the kernel
itself comes without a call: from then on no step makes a call or changes a variable, and each fails
in the same way or gives way. -/
theorem retries_of_start (instructions : List Instruction) (compiled : Compiled)
    (traced timed : Bool) (interval : Nat) (t : Thread) (ts : Nat → Thread) :
    let e := (Execution.start instructions compiled traced timed interval t).1
    (∀ k, e.outcomeAt ts k ≠ .ok .executed → (∀ p, e.outcomeAt ts k ≠ .ok (.finished p)) →
      (e.after ts (k + 1)).position = (e.after ts k).position ∧
        (e.after ts (k + 1)).isFinished = (e.after ts k).isFinished ∧
        (e.after ts (k + 1)).trace = (e.after ts k).trace) ∧
      (∀ j k, j < k → ¬ (e.outcomeAt ts j).Succeeds →
        (∀ m, j < m → m < k → e.dispatchedAt ts m = none) →
        ∀ index, e.dispatchedAt ts k = some index → e.dispatchedAt ts j = some index) ∧
      (∀ j k p q, j < k → e.outcomeAt ts j = .ok (.yielded p) →
        e.outcomeAt ts k = .ok (.yielded q) →
        p.processed = (e.after ts j).position ∧ p.processed < q.processed) ∧
      (∀ k index made, (e.after ts k).callAt (ts k) = some made →
        (e.after ts k).position = index + 1 →
        ∃ j < k, e.dispatchedAt ts j = some index ∧ e.outcomeAt ts j = .ok .executed) ∧
      (∀ k, e.executed ts k = List.range (e.after ts k).position) ∧
      ∀ k f, e.outcomeAt ts k = .error f → f.isLookup = true →
        (∃ i call, (e.after ts k).callAt (ts k) = some (call, (e.after ts k).bank) ∧
          (invoke call (e.after ts k).bank ((e.after ts k).kernelThread i (ts k))).1 = .error f) ∨
        ∀ j, k ≤ j → (e.after ts j).callAt (ts j) = none ∧
          (e.after ts (j + 1)).bank = (e.after ts k).bank ∧
          (e.outcomeAt ts j = .error f ∨ ∃ p, e.outcomeAt ts j = .ok (.yielded p)) := by
  intro e
  have hzero : (e.after ts 0).position = 0 := rfl
  refine ⟨fun k => frame_step,
    fun j k hjk hfail hidle index => dispatchedAt_of_failed hjk hfail hidle,
    fun j k p q hjk hj hk => ?_, fun k index made hmade hpos => ?_, executed_eq hzero,
    fun k f hk hf => ?_⟩
  · -- a notification tells of the position, which has moved on before the next one
    have hprocessed := (told_of_yielded hj).1
    refine ⟨hprocessed, ?_⟩
    rw [hprocessed, (told_of_yielded hk).1]
    exact position_lt_of_yielded hjk hj hk
  · refine exists_executed hzero ?_
    rw [hpos]
    exact Nat.lt_succ_self index
  · -- a pass that is stuck stays so, and its bank stays the same
    refine (stuck_of_lookup hf hk).imp id fun hstuck j hkj => ?_
    obtain ⟨hj, hbank⟩ := stuck_after hstuck hkj
    obtain ⟨hcall, hkeep, ho, -⟩ := hj.step (ts j)
    exact ⟨hcall, hkeep.trans hbank, ho⟩

/-- A graph whose second instruction names a variable that there is not. -/
def strayGraph : Compiled where
  weights := ⟨[], [], #[]⟩
  buffers := ⟨[], []⟩
  kernels := ⟨[("noop", Kernels.noop)]⟩
  program := [⟨some 0, [], [], []⟩, ⟨some 0, [.unresolved "x"], [], []⟩]
  inputs := []
  outputs := []

/-- A pass over it, which gives way before every instruction. -/
def stray : Execution :=
  (Execution.start [.ofEntry "noop", { Instruction.ofEntry "noop" with inputs := ["x"] }] strayGraph
    true false 0 Runner.quiet).1

/-- Four steps come to the reference, and no further step gets past it. -/
theorem retries_of_start_stray :
    stray.executed (fun _ => Runner.quiet) 4 = [0] ∧
      ∀ j, 3 ≤ j → (stray.after (fun _ => Runner.quiet) j).callAt Runner.quiet = none ∧
        (stray.outcomeAt (fun _ => Runner.quiet) j = .error (.unresolvedReference .input "x" (some 1)) ∨
          ∃ p, stray.outcomeAt (fun _ => Runner.quiet) j = .ok (.yielded p)) := by
  obtain ⟨-, -, -, -, hexecuted, hlookup⟩ := retries_of_start
    [.ofEntry "noop", { Instruction.ofEntry "noop" with inputs := ["x"] }] strayGraph true false 0
    Runner.quiet fun _ => Runner.quiet
  refine ⟨hexecuted 4, fun j hj => ?_⟩
  rcases hlookup 3 (.unresolvedReference .input "x" (some 1)) rfl rfl with ⟨i, call, hcall, -⟩ | hstuck
  · cases hcall
  · obtain ⟨hcall, -, ho⟩ := hstuck j hj
    exact ⟨hcall, ho⟩

end Execution

end InferenceEngine
