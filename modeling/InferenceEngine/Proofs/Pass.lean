import Mathlib.Data.List.Count
import InferenceEngine.Proofs.Step

/-!
# The outcomes of a pass

A pass is driven from outside, one step at a time, and the host may do on the thread what it likes
in between. `Course.Pass` is the grammar of the outcomes that it sees: for each instruction at most
one notification and then the execution, and at the end one announcement; a failure ends the pass
where it happens. Which words of the grammar are seen is decided by the readings of the clock and by
what becomes of the instructions, and by nothing else.

`Execution.outcomes_of_start` is the main statement: the steps of a fresh pass follow the grammar.
What a host relies on is read off from the words: the number of steps (`Pass.length_le`), the order
of the notifications (`Pass.pairwise_processed`), and how many there are if the interval always or
never passes (`Pass.processed_of_interval_zero`, `Pass.notifications_of_early`).
-/

namespace InferenceEngine

/-! ## The grammar -/

/-- What decides the course of a pass. -/
structure Course where
  /-- the number of instructions -/
  total : Nat
  /-- the least time between two notifications -/
  interval : Nat
  /-- the reading of the clock at the start -/
  started : Nat
  /-- the reading of the clock that each step would take -/
  reading : Nat → Nat
  /-- what becomes of the next instruction, if the step comes to dispatch it -/
  attempt : Nat → Outcome Unit

namespace Course

/-- `c.Pass k index since told os`: from step `k` on the outcomes are `os` up to the end, when
`index` instructions have been executed, the last notification was at the reading `since`, and
`told` says whether it was for the next instruction. -/
inductive Pass (c : Course) :
    (k index since : Nat) → (told : Bool) → List (Outcome StepOutcome) → Prop
  /-- all instructions have been executed -/
  | finish {k since : Nat} :
    Pass c k c.total since false
      [.ok (.finished ⟨c.total, c.total, Progress.millis (c.reading k - c.started), true⟩)]
  /-- the interval has passed since the last notification -/
  | yield {k index since : Nat} {os : List (Outcome StepOutcome)} (hindex : index < c.total)
    (hdue : c.interval ≤ c.reading k - since) (rest : Pass c (k + 1) index (c.reading k) true os) :
    Pass c k index since false
      (.ok (.yielded ⟨index, c.total, Progress.millis (c.reading k - c.started), false⟩) :: os)
  /-- the next instruction succeeds -/
  | execute {k index since : Nat} {told : Bool} {os : List (Outcome StepOutcome)}
    (hindex : index < c.total) (hearly : told = true ∨ c.reading k - since < c.interval)
    (hok : c.attempt k = .ok ()) (rest : Pass c (k + 1) (index + 1) since false os) :
    Pass c k index since told (.ok .executed :: os)
  /-- the next instruction fails -/
  | fail {k index since : Nat} {told : Bool} (hindex : index < c.total)
    (hearly : told = true ∨ c.reading k - since < c.interval) (hfail : ¬ (c.attempt k).Succeeds) :
    Pass c k index since told [(c.attempt k).map fun _ => .executed]

end Course

/-- The notifications among the outcomes of a pass, but for the announcement of the end. -/
def notifications (os : List (Outcome StepOutcome)) : List Progress :=
  os.filterMap fun
    | .ok (.yielded p) => some p
    | _ => none

/-- The instructions that were dispatched. -/
def dispatches (os : List (Outcome StepOutcome)) : Nat :=
  os.countP fun
    | .ok (.yielded _) | .ok (.finished _) => false
    | _ => true

@[simp] theorem notifications_yielded (p : Progress) (os : List (Outcome StepOutcome)) :
    notifications (.ok (.yielded p) :: os) = p :: notifications os := rfl

@[simp] theorem notifications_map (o : Outcome Unit) (os : List (Outcome StepOutcome)) :
    notifications (o.map (fun _ => .executed) :: os) = notifications os := by
  cases o <;> rfl

@[simp] theorem notifications_executed (os : List (Outcome StepOutcome)) :
    notifications (.ok .executed :: os) = notifications os := rfl

@[simp] theorem dispatches_yielded (p : Progress) (os : List (Outcome StepOutcome)) :
    dispatches (.ok (.yielded p) :: os) = dispatches os := by
  simp [dispatches]

@[simp] theorem dispatches_map (o : Outcome Unit) (os : List (Outcome StepOutcome)) :
    dispatches (o.map (fun _ => .executed) :: os) = dispatches os + 1 := by
  cases o <;> simp [dispatches, Outcome.map]

@[simp] theorem dispatches_executed (os : List (Outcome StepOutcome)) :
    dispatches (.ok .executed :: os) = dispatches os + 1 := by
  simp [dispatches]

namespace Course.Pass

variable {c : Course} {k index since : Nat} {told : Bool} {os : List (Outcome StepOutcome)}

/-- A pass takes two steps for each instruction at most, and one for the end. -/
theorem length_le (h : c.Pass k index since told os) :
    os.length + told.toNat ≤ 2 * (c.total - index) + 1 := by
  induction h with
  | finish => simp
  | yield hindex hdue rest ih =>
    simp only [List.length_cons, Bool.toNat_true, Bool.toNat_false] at ih ⊢
    omega
  | @execute k index since told os hindex hearly hok rest ih =>
    have htold := Bool.toNat_le told
    simp only [List.length_cons, Bool.toNat_false] at ih ⊢
    omega
  | @fail k index since told hindex hearly hfail =>
    have htold := Bool.toNat_le told
    simp only [List.length_singleton]
    omega

/-- A notification tells of an instruction that is not executed yet, and of none that a notification
has told of before. -/
theorem notifications_spec (h : c.Pass k index since told os) :
    ∀ p ∈ notifications os, index + told.toNat ≤ p.processed ∧ p.processed < c.total ∧
      p.total = c.total ∧ p.finished = false := by
  induction h with
  | finish => simp [notifications]
  | yield hindex hdue rest ih =>
    intro p hp
    rw [notifications_yielded] at hp
    rcases List.mem_cons.mp hp with rfl | hp
    · exact ⟨Nat.le_refl _, hindex, rfl, rfl⟩
    · obtain ⟨hle, hrest⟩ := ih p hp
      exact ⟨Nat.le_of_succ_le hle, hrest⟩
  | @execute k index since told os hindex hearly hok rest ih =>
    intro p hp
    obtain ⟨hle, hrest⟩ := ih p hp
    -- the rest is about later instructions, none of which has been told of
    have htold := Bool.toNat_le told
    refine ⟨?_, hrest⟩
    simp only [Bool.toNat_false] at hle
    omega
  | fail hindex hearly hfail =>
    intro p hp
    rw [notifications_map] at hp
    exact absurd hp List.not_mem_nil

/-- The numbers that the notifications give ascend. -/
theorem pairwise_processed (h : c.Pass k index since told os) :
    ((notifications os).map Progress.processed).Pairwise (· < ·) := by
  induction h with
  | finish => exact List.Pairwise.nil
  | yield hindex hdue rest ih =>
    rw [notifications_yielded, List.map_cons]
    refine List.pairwise_cons.mpr ⟨fun m hm => ?_, ih⟩
    obtain ⟨p, hp, rfl⟩ := List.mem_map.mp hm
    exact (rest.notifications_spec p hp).1
  | execute hindex hearly hok rest ih => exact ih
  | fail hindex hearly hfail =>
    rw [notifications_map]
    exact List.Pairwise.nil

/-- After a notification an instruction is dispatched. -/
theorem dispatches_pos (h : c.Pass k index since true os) : 0 < dispatches os := by
  cases h with
  | execute hindex hearly hok rest =>
    rw [dispatches_executed]
    exact Nat.succ_pos _
  | fail hindex hearly hfail =>
    rw [dispatches_map]
    exact Nat.succ_pos _

/-- If the interval always passes, every instruction that is dispatched has its notification. -/
theorem processed_of_interval_zero (h : c.Pass k index since told os) (hzero : c.interval = 0) :
    (notifications os).map Progress.processed =
      List.range' (index + told.toNat) (dispatches os - told.toNat) := by
  induction h with
  | finish => rfl
  | @yield k index since os hindex hdue rest ih =>
    obtain ⟨m, hm⟩ := Nat.exists_eq_succ_of_ne_zero (Nat.ne_of_gt rest.dispatches_pos)
    rw [notifications_yielded, List.map_cons, ih, dispatches_yielded, hm]
    exact List.range'_succ.symm
  | execute hindex hearly hok rest ih =>
    -- the interval has passed, so a notification must have come before
    obtain rfl := hearly.resolve_right (by omega)
    rw [notifications_executed, ih, dispatches_executed]
    rfl
  | fail hindex hearly hfail =>
    obtain rfl := hearly.resolve_right (by omega)
    rw [notifications_map, dispatches_map]
    rfl

/-- If the interval never passes, there are no notifications but the last. -/
theorem notifications_of_early (h : c.Pass k index since told os)
    (hearly : ∀ j, c.reading j - since < c.interval) : notifications os = [] := by
  induction h with
  | finish => rfl
  | yield hindex hdue rest ih => exact absurd hdue (Nat.not_le.mpr (hearly _))
  | execute hindex _ hok rest ih =>
    rw [notifications_executed]
    exact ih hearly
  | fail hindex _ hfail => exact notifications_map _ _

end Course.Pass

namespace Execution

/-! ## Passes that are stepped through -/

variable (e : Execution) (ts : Nat → Thread)

/-- The execution before step `k`, if each step is taken on the given thread. -/
def after : Nat → Execution
  | 0 => e
  | k + 1 => ((after k).step (ts k)).2.1

/-- The outcome of step `k`. -/
def outcomeAt (k : Nat) : Outcome StepOutcome := ((e.after ts k).step (ts k)).1

/-- What decides the course of a pass whose steps are taken on the given threads. -/
def course : Course where
  total := e.total
  interval := e.interval
  started := e.started
  reading k := reading (ts k)
  attempt k := (e.after ts k).attempt (ts k)

theorem samePass_after (k : Nat) : e.SamePass (e.after ts k) := by
  induction k with
  | zero => exact SamePass.refl e
  | succ k ih => exact ih.trans (samePass_step _ _)

/-- From step `k` on, the outcomes up to the end follow the grammar. -/
def Follows (k index since : Nat) (told : Bool) : Prop :=
  ∃ os, (e.course ts).Pass k index since told os ∧
    os = (List.range' k os.length).map (e.outcomeAt ts)

variable {e ts} {k index since : Nat} {told : Bool}

/-- From where an instruction is dispatched, the outcomes follow the grammar if they do from where
the next one is reached. -/
theorem follows_of_dispatch (hp : (e.after ts k).Poised index since told)
    (hindex : index < e.total) (hearly : told = true ∨ reading (ts k) - since < e.interval)
    (hnext : (e.after ts (k + 1)).Poised (index + 1) since false →
      e.Follows ts (k + 1) (index + 1) since false) :
    e.Follows ts k index since told := by
  have hsame := samePass_after e ts k
  have hend : (e.after ts k).position ≠ (e.after ts k).total := by
    rw [hp.position, hsame.total]
    exact Nat.ne_of_lt hindex
  have hdue : ¬ (e.after ts k).Due (ts k) := by
    rw [hp.due_iff, hsame.interval]
    rintro ⟨rfl, hle⟩
    exact absurd hle (Nat.not_le.mpr (hearly.resolve_left nofun))
  have hstep := step_of_not_due hp.unfinished hend hdue
  obtain ⟨b, trace, ⟨hok, ho, hstate⟩ | ⟨hfail, ho, hstate⟩⟩ :=
    advance_cases (e.after ts k) ((e.after ts k).poll (ts k)).2.2
  · -- the instruction succeeds
    have hpoised : (e.after ts (k + 1)).Poised (index + 1) since false := by
      rw [after, hstep, hstate]
      refine hp.executed ?_ b trace
      rw [hsame.total]
      exact hindex
    obtain ⟨os, hpass, hos⟩ := hnext hpoised
    refine ⟨.ok .executed :: os, .execute hindex hearly hok hpass, ?_⟩
    rw [List.length_cons, List.range'_succ, List.map_cons, ← hos, outcomeAt, hstep, ho]
  · -- the instruction fails
    refine ⟨_, .fail hindex hearly hfail, ?_⟩
    rw [List.length_singleton, List.range'_one, List.map_singleton, outcomeAt, hstep, ho]
    rfl

/-- From wherever a pass is, its outcomes up to the end follow the grammar. -/
theorem follows_of_poised (hp : (e.after ts k).Poised index since false) :
    e.Follows ts k index since false := by
  have hsame := samePass_after e ts k
  have hle : index ≤ e.total := by
    rw [← hsame.total]
    exact hp.le_total
  -- by induction on the number of instructions that are left
  induction hn : e.total - index generalizing k index since with
  | zero =>
    obtain rfl : index = e.total := by omega
    have hend : (e.after ts k).position = (e.after ts k).total := by
      rw [hp.position, hsame.total]
    refine ⟨_, .finish, ?_⟩
    rw [List.length_singleton, List.range'_one, List.map_singleton, outcomeAt,
      step_of_end hp.unfinished hend, lastNotice, hsame.total, hsame.started]
    rfl
  | succ n ih =>
    have hindex : index < e.total := by omega
    have hnext : ∀ {j since'}, (e.after ts j).Poised (index + 1) since' false →
        e.Follows ts j (index + 1) since' false :=
      fun hj => ih hj (samePass_after e ts _) hindex (by omega)
    by_cases hdue : e.interval ≤ reading (ts k) - since
    · -- a notification, and then the instruction is dispatched
      have hend : (e.after ts k).position ≠ (e.after ts k).total := by
        rw [hp.position, hsame.total]
        exact Nat.ne_of_lt hindex
      have hstep := step_of_due hp.unfinished hend (hp.due_iff.mpr ⟨rfl, by rwa [hsame.interval]⟩)
      have hpoised : (e.after ts (k + 1)).Poised index (reading (ts k)) true := by
        rw [after, hstep]
        exact hp.notified (ts k)
      obtain ⟨os, hpass, hos⟩ := follows_of_dispatch hpoised hindex (.inl rfl) hnext
      refine ⟨_, .yield hindex hdue hpass, ?_⟩
      rw [List.length_cons, List.range'_succ, List.map_cons, ← hos, outcomeAt, hstep, notice,
        hp.position, hsame.total, hsame.started]
      rfl
    · exact follows_of_dispatch hp hindex (.inr (Nat.not_le.mp hdue)) hnext

/-- The position is the number of instructions that have been executed. -/
theorem position_after (e : Execution) (ts : Nat → Thread) (k : Nat) :
    (e.after ts k).position =
      e.position + ((List.range k).map (e.outcomeAt ts)).count (.ok .executed) := by
  induction k with
  | zero => rfl
  | succ k ih =>
    rw [List.range_succ, List.map_append, List.count_append, ← Nat.add_assoc, ← ih, after,
      position_step]
    rfl

/-- After the end nothing changes any more. -/
theorem after_of_finished (h : (e.after ts k).isFinished = true) (j : Nat) :
    e.after ts (k + j) = e.after ts k ∧ e.outcomeAt ts (k + j) = .error .finished := by
  induction j with
  | zero => exact ⟨rfl, congrArg Prod.fst (step_of_finished h)⟩
  | succ j ih =>
    have hstate : e.after ts (k + (j + 1)) = e.after ts k := by
      rw [← Nat.add_assoc, after, ih.1, step_of_finished h]
    refine ⟨hstate, ?_⟩
    rw [outcomeAt, hstate, step_of_finished h]

/-- **The outcomes of a pass.** Whatever happens on the thread between the steps, the outcomes of
stepping through a fresh pass are, up to its end or first failure, a word `os` of the grammar. So
the pass takes at most two steps for each instruction and one more; its notifications give
ascending numbers below the number of instructions, one for each that is dispatched if the interval
is zero, and none if the interval never passes; the position is the number of instructions executed
so far; and after the end every step is refused and changes nothing. -/
theorem outcomes_of_start (instructions : List Instruction) (compiled : Compiled)
    (traced timed : Bool) (interval : Nat) (t : Thread) (ts : Nat → Thread) :
    let e := (Execution.start instructions compiled traced timed interval t).1
    ∃ os, (e.course ts).Pass 0 0 (reading t) false os ∧
      os = (List.range os.length).map (e.outcomeAt ts) ∧
      os.length ≤ 2 * compiled.program.length + 1 ∧
      ((notifications os).map Progress.processed).Pairwise (· < ·) ∧
      (∀ p ∈ notifications os, p.processed < compiled.program.length) ∧
      (interval = 0 → (notifications os).map Progress.processed = List.range (dispatches os)) ∧
      ((∀ k, reading (ts k) - reading t < interval) → notifications os = []) ∧
      (∀ k, (e.after ts k).position =
        ((List.range k).map (e.outcomeAt ts)).count (.ok .executed)) ∧
      ∀ k p, e.outcomeAt ts k = .ok (.finished p) → ∀ j,
        e.outcomeAt ts (k + 1 + j) = .error .finished ∧
          e.after ts (k + 1 + j) = e.after ts (k + 1) := by
  intro e
  have hstart : (e.after ts 0).Poised 0 (reading t) false :=
    Poised.start instructions compiled traced timed interval t
  -- everything but the last two parts is read off the word of the grammar
  obtain ⟨os, hpass, hos⟩ := follows_of_poised hstart
  refine ⟨os, hpass, ?_, hpass.length_le, hpass.pairwise_processed, ?_, ?_, ?_, ?_, ?_⟩
  · rw [List.range_eq_range']
    exact hos
  · exact fun p hp => (hpass.notifications_spec p hp).2.1
  · intro hzero
    rw [hpass.processed_of_interval_zero hzero, List.range_eq_range']
    rfl
  · exact hpass.notifications_of_early
  · intro k
    rw [position_after]
    exact Nat.zero_add _
  · intro k p hk j
    have hfin : (e.after ts (k + 1)).isFinished = true := isFinished_of_step hk
    obtain ⟨hstate, ho⟩ := after_of_finished hfin j
    exact ⟨ho, hstate⟩

end Execution

end InferenceEngine
