import InferenceEngine.Execution

/-!
# What one step of a pass does

Whatever is proved about passes starts from the lemmas of this file, which say once what a step can
do; later files do not unfold `Execution.step` again.

* `Execution.perform_eq`, `Execution.execute_eq` — a call in one equation: what the kernel does to
  the variables and the thread, and what is put around it.
* `Execution.dispatch_frame`, `Execution.advance_cases` — a dispatch changes the variables and the
  events, and nothing else of a pass but the position, and that only if it succeeds.
* `Execution.step_cases` — the four things that a step can do.
* `Execution.Poised` — where a pass is between two steps, and how a step leads on from there.
-/

namespace InferenceEngine

namespace Outcome

variable {α β : Type}

/-- The operation ended in a value. -/
def Succeeds (o : Outcome α) : Prop := ∃ x, o = .ok x

theorem succeeds_of_map_eq_ok {o : Outcome α} {f : α → β} {y : β} (h : o.map f = .ok y) :
    o.Succeeds := by
  cases o with
  | ok x => exact ⟨x, rfl⟩
  | error e => cases h
  | panic p => cases h

end Outcome

namespace Execution

/-! ## Calls -/

/-- The contents of the variables. -/
abbrev bank (e : Execution) : Bank := e.compiled.buffers.bank

/-- A pass with other contents in its variables and other events. -/
def put (e : Execution) (bank : Bank) (trace : Option (List TraceEvent)) : Execution :=
  { e with compiled.buffers.bank := bank, trace }

/-- The thread after a reading of the clock, if kernels are timed. -/
def mark (e : Execution) (t : Thread) : Thread := if e.timed then t.now.2 else t

/-- The time between the readings of the clock on two threads, if kernels are timed. -/
def timing (e : Execution) (before after : Thread) : Timing :=
  if e.timed then .ofNanos (after.now.1 - before.now.1) else .none

/-- What a call does to the variables and the thread it is made on. -/
def invoke (call : Call) (b : Bank) (t : Thread) : Outcome Unit × Bank × Thread :=
  (call.kernel call.args).run call.args b t

/-- A call that succeeds is timed and clears the label, and one that does not leaves both alone. The
buffers are kept in either case. -/
theorem perform_eq (e : Execution) (call : Call) (t : Thread) :
    e.perform call t =
      match invoke call e.bank (e.mark t) with
      | (.ok (), b, t') => (.ok (e.timing t t'), e.put b e.trace, e.mark t')
      | (.error f, b, t') => (.error f, e.put b e.trace, t')
      | (.panic p, b, t') => (.panic p, e.put b e.trace, t') := by
  rw [perform]
  by_cases ht : e.timed
  · simp only [mark, timing, if_pos ht, invoke]
    rcases (call.kernel call.args).run call.args e.bank t.now.2 with ⟨_ | _ | _, b, t'⟩ <;> rfl
  · simp only [mark, timing, if_neg ht, invoke]
    rcases (call.kernel call.args).run call.args e.bank t with ⟨_ | _ | _, b, t'⟩ <;> rfl

/-- The thread on which the kernel of instruction `index` is called. -/
def callThread (e : Execution) (index : Nat) (i : Instruction) (t : Thread) : Thread :=
  e.mark (t.emit .trace (dispatchText index i))

/-- The events after a call that has succeeded. -/
def recorded (e : Execution) (index : Nat) (i : Instruction) (timing : Timing) :
    Option (List TraceEvent) :=
  e.trace.map fun events =>
    events ++ [⟨e.run, index, i.entry, i.inputs, i.outputs, i.weights, timing⟩]

/-- An instruction is announced, called and recorded. What is recorded is told only of a call that
has succeeded. -/
theorem execute_eq (e : Execution) (index : Nat) (i : Instruction) (call : Call) (t : Thread) :
    e.execute index i call t =
      match invoke call e.bank (e.callThread index i t) with
      | (.ok (), b, t') =>
        (.ok (), e.put b (e.recorded index i (e.timing (t.emit .trace (dispatchText index i)) t')),
          e.mark t')
      | (.error f, b, t') => (.error f, e.put b e.trace, t')
      | (.panic p, b, t') => (.panic p, e.put b e.trace, t') := by
  rw [execute, perform_eq, callThread]
  rcases invoke call e.bank (e.mark (t.emit .trace (dispatchText index i))) with
    ⟨_ | _ | _, b, t'⟩ <;> rfl

/-- A dispatch changes nothing of a pass but its variables and its events. -/
theorem dispatch_frame (e : Execution) (index : Nat) (t : Thread) :
    ∃ b trace, (e.dispatch index t).2.1 = e.put b trace := by
  rw [dispatch]
  rcases e.prepare index with ⟨i, call⟩ | f | p
  · rcases hinv : invoke call e.bank (e.callThread index i t) with ⟨_ | _ | _, b, t'⟩
    all_goals
      simp only [execute_eq, hinv]
      exact ⟨_, _, rfl⟩
  · exact ⟨e.bank, e.trace, rfl⟩
  · exact ⟨e.bank, e.trace, rfl⟩

/-! ## Steps -/

/-- What becomes of the next instruction if a step on this thread comes to dispatch it. -/
def attempt (e : Execution) (t : Thread) : Outcome Unit :=
  (e.dispatch e.position ((e.poll t).2.2.focus (some e.position))).1

/-- Advancing reports what became of the instruction. The position moves on if it succeeded; if not,
nothing but the variables and the events may have changed. -/
theorem advance_cases (e : Execution) (t : Thread) :
    ∃ b trace,
      ((e.dispatch e.position (t.focus (some e.position))).1 = .ok () ∧
        (e.advance t).1 = .ok .executed ∧
        (e.advance t).2.1 = { e.put b trace with position := e.position + 1 }) ∨
      (¬ (e.dispatch e.position (t.focus (some e.position))).1.Succeeds ∧
        (e.advance t).1 =
          (e.dispatch e.position (t.focus (some e.position))).1.map (fun _ => .executed) ∧
        (e.advance t).2.1 = e.put b trace) := by
  -- the same frame serves all three ways in which the dispatch can end
  obtain ⟨b, trace, hframe⟩ := dispatch_frame e e.position (t.focus (some e.position))
  refine ⟨b, trace, ?_⟩
  rw [advance]
  rcases hd : e.dispatch e.position (t.focus (some e.position)) with ⟨_ | f | p, e', t'⟩
  all_goals
    rw [hd] at hframe
    obtain rfl : e' = e.put b trace := hframe
  · exact .inl ⟨rfl, rfl, rfl⟩
  · exact .inr ⟨nofun, rfl, rfl⟩
  · exact .inr ⟨nofun, rfl, rfl⟩

/-- The reading of the clock that is taken next. -/
def reading (t : Thread) : Nat := t.now.1

/-- The pass after a notification. -/
def notified (e : Execution) (t : Thread) : Execution :=
  { e with lastReport := reading t, reportedAt := some e.position }

/-- The notification that is given if one is due. -/
def notice (e : Execution) (t : Thread) : Progress :=
  ⟨e.position, e.total, Progress.millis (reading t - e.started), false⟩

/-- The notification of the end. -/
def lastNotice (e : Execution) (t : Thread) : Progress :=
  ⟨e.total, e.total, Progress.millis (reading t - e.started), true⟩

/-- A notification is due: none has been given for the next instruction, and the interval has
passed since the last one. -/
def Due (e : Execution) (t : Thread) : Prop :=
  e.reportedAt ≠ some e.position ∧ e.interval ≤ reading t - e.lastReport

variable {e : Execution} {t : Thread}

/-- A notification that is due is given, with the clock read for it. -/
theorem poll_of_due (h : e.Due t) : e.poll t = (some (e.notice t), e.notified t, t.now.2) := by
  have hlt : ¬ t.now.1 - e.lastReport < e.interval := Nat.not_lt.mpr h.2
  rw [poll, if_neg h.1]
  simp only [if_neg hlt]
  rfl

/-- Unless a notification is due, a poll leaves the pass as it is. -/
theorem poll_of_not_due (h : ¬ e.Due t) : e.poll t = (none, e, (e.poll t).2.2) := by
  rw [poll]
  by_cases hr : e.reportedAt = some e.position
  · rw [if_pos hr]
  · have hlt : t.now.1 - e.lastReport < e.interval := Nat.lt_of_not_le fun hle => h ⟨hr, hle⟩
    rw [if_neg hr]
    simp only [if_pos hlt]

/-- A poll reads the clock unless a notification for the next instruction has been given. -/
theorem poll_thread (e : Execution) (t : Thread) :
    (e.poll t).2.2 = if e.reportedAt = some e.position then t else t.now.2 := by
  rw [poll]
  by_cases hr : e.reportedAt = some e.position
  · rw [if_pos hr, if_pos hr]
  · rw [if_neg hr, if_neg hr]
    dsimp only
    split <;> rfl

/-- After the end every step is refused. -/
theorem step_of_finished (h : e.isFinished = true) : e.step t = (.error .finished, e, t) := by
  rw [step, if_pos h]

/-- When all instructions have been executed, a step announces the end. -/
theorem step_of_end (h : e.isFinished = false) (hend : e.position = e.total) :
    e.step t = (.ok (.finished (e.lastNotice t)), { e with isFinished := true }, t.now.2) := by
  rw [step, if_neg (ne_true_of_eq_false h), if_pos hend]
  rfl

/-- If a notification is due, a step gives way. -/
theorem step_of_due (h : e.isFinished = false) (hend : e.position ≠ e.total) (hdue : e.Due t) :
    e.step t = (.ok (.yielded (e.notice t)), e.notified t, t.now.2) := by
  rw [step, if_neg (ne_true_of_eq_false h), if_neg hend, poll_of_due hdue]

/-- Otherwise a step dispatches the next instruction. -/
theorem step_of_not_due (h : e.isFinished = false) (hend : e.position ≠ e.total)
    (hdue : ¬ e.Due t) : e.step t = e.advance (e.poll t).2.2 := by
  rw [step, if_neg (ne_true_of_eq_false h), if_neg hend, poll_of_not_due hdue]

/-- **What a step can do**: refuse after the end, announce the end, give way for a notification
that is due, or dispatch the next instruction. -/
theorem step_cases (e : Execution) (t : Thread) :
    (e.isFinished = true ∧ e.step t = (.error .finished, e, t)) ∨
    (e.isFinished = false ∧ e.position = e.total ∧
      e.step t = (.ok (.finished (e.lastNotice t)), { e with isFinished := true }, t.now.2)) ∨
    (e.isFinished = false ∧ e.position ≠ e.total ∧ e.Due t ∧
      e.step t = (.ok (.yielded (e.notice t)), e.notified t, t.now.2)) ∨
    (e.isFinished = false ∧ e.position ≠ e.total ∧ ¬ e.Due t ∧
      e.step t = e.advance (e.poll t).2.2) := by
  rcases hfin : e.isFinished with _ | _
  · by_cases hend : e.position = e.total
    · exact .inr (.inl ⟨rfl, hend, step_of_end hfin hend⟩)
    · by_cases hdue : e.Due t
      · exact .inr (.inr (.inl ⟨rfl, hend, hdue, step_of_due hfin hend hdue⟩))
      · exact .inr (.inr (.inr ⟨rfl, hend, hdue, step_of_not_due hfin hend hdue⟩))
  · exact .inl ⟨rfl, step_of_finished hfin⟩

/-- A step moves on by one instruction if it has executed one, and else not at all. -/
theorem position_step (e : Execution) (t : Thread) :
    (e.step t).2.1.position = e.position + [(e.step t).1].count (.ok .executed) := by
  rcases step_cases e t with ⟨-, h⟩ | ⟨-, -, h⟩ | ⟨-, -, -, h⟩ | ⟨-, -, -, h⟩
  · rw [h]
    rfl
  · rw [h]
    rfl
  · rw [h]
    rfl
  · rw [h]
    obtain ⟨b, trace, ⟨-, ho, hstate⟩ | ⟨hfail, ho, hstate⟩⟩ := advance_cases e (e.poll t).2.2
    · rw [ho, hstate]
      rfl
    · have hne : ((e.advance (e.poll t).2.2).1 == .ok .executed) = false := by
        rw [ho]
        exact beq_false_of_ne fun h => hfail (Outcome.succeeds_of_map_eq_ok h)
      rw [List.count_singleton, hne, hstate]
      rfl

/-- The end is announced by the step that ends the pass. -/
theorem isFinished_of_step {p : Progress} (h : (e.step t).1 = .ok (.finished p)) :
    (e.step t).2.1.isFinished = true := by
  rcases step_cases e t with ⟨-, hs⟩ | ⟨-, -, hs⟩ | ⟨-, -, -, hs⟩ | ⟨-, -, -, hs⟩
  · rw [hs] at h
    cases h
  · rw [hs]
  · rw [hs] at h
    cases h
  · rw [hs] at h
    obtain ⟨b, trace, ⟨-, ho, -⟩ | ⟨hfail, ho, -⟩⟩ := advance_cases e (e.poll t).2.2
    · rw [ho] at h
      cases h
    · rw [ho] at h
      exact absurd (Outcome.succeeds_of_map_eq_ok h) hfail

/-! ## What no step changes -/

/-- Two states of one pass: they differ at most in how far it has come, in the contents of the
variables and in the events. -/
structure SamePass (e e' : Execution) : Prop where
  /-- the instructions as written -/
  instructions : e'.instructions = e.instructions
  /-- the compiled graph but for its variables -/
  compiled : e'.compiled = { e.compiled with buffers.bank := e'.bank }
  /-- whether kernels are timed -/
  timed : e'.timed = e.timed
  /-- the least time between two notifications -/
  interval : e'.interval = e.interval
  /-- the start -/
  started : e'.started = e.started
  /-- the identifier of the run -/
  run : e'.run = e.run
  /-- the context to put back -/
  outer : e'.outer = e.outer

/-- A pass is the same as itself. -/
theorem SamePass.refl (e : Execution) : e.SamePass e := ⟨rfl, rfl, rfl, rfl, rfl, rfl, rfl⟩

/-- Being the same pass carries along several steps. -/
theorem SamePass.trans {e₁ e₂ e₃ : Execution} (h : e₁.SamePass e₂) (h' : e₂.SamePass e₃) :
    e₁.SamePass e₃ where
  instructions := h'.instructions.trans h.instructions
  compiled := by
    rw [h'.compiled, h.compiled]
  timed := h'.timed.trans h.timed
  interval := h'.interval.trans h.interval
  started := h'.started.trans h.started
  run := h'.run.trans h.run
  outer := h'.outer.trans h.outer

theorem SamePass.total {e' : Execution} (h : e.SamePass e') : e'.total = e.total := by
  rw [Execution.total, h.compiled]
  rfl

/-- What a pass holds, and what it has recorded, has no part in which pass it is. -/
theorem samePass_put (e : Execution) (b : Bank) (trace : Option (List TraceEvent)) :
    e.SamePass (e.put b trace) := ⟨rfl, rfl, rfl, rfl, rfl, rfl, rfl⟩

theorem samePass_notified (e : Execution) (t : Thread) : e.SamePass (e.notified t) :=
  ⟨rfl, rfl, rfl, rfl, rfl, rfl, rfl⟩

/-- An instruction leaves the pass the same, whether it succeeds or not. -/
theorem samePass_advance (e : Execution) (t : Thread) : e.SamePass (e.advance t).2.1 := by
  obtain ⟨b, trace, ⟨-, -, h⟩ | ⟨-, -, h⟩⟩ := advance_cases e t
  · rw [h]
    exact ⟨rfl, rfl, rfl, rfl, rfl, rfl, rfl⟩
  · rw [h]
    exact samePass_put e b trace

/-- A step goes on with the same pass. -/
theorem samePass_step (e : Execution) (t : Thread) : e.SamePass (e.step t).2.1 := by
  rcases step_cases e t with ⟨-, h⟩ | ⟨-, -, h⟩ | ⟨-, -, -, h⟩ | ⟨-, -, -, h⟩
  · rw [h]
    exact SamePass.refl e
  · rw [h]
    exact ⟨rfl, rfl, rfl, rfl, rfl, rfl, rfl⟩
  · rw [h]
    exact ⟨rfl, rfl, rfl, rfl, rfl, rfl, rfl⟩
  · rw [h]
    exact samePass_advance e _

/-! ## Between two steps -/

/-- A pass that is under way: `index` instructions have been executed, the last notification was at
the reading `since` of the clock, and `told` says whether it was for the next instruction. -/
structure Poised (e : Execution) (index since : Nat) (told : Bool) : Prop where
  /-- the end has not been announced -/
  unfinished : e.isFinished = false
  /-- the next instruction -/
  position : e.position = index
  /-- there may be none left -/
  le_total : index ≤ e.total
  /-- the last notification -/
  lastReport : e.lastReport = since
  /-- whether a notification for the next instruction has been given -/
  reportedAt : e.reportedAt = some index ↔ told = true
  /-- no notification was for a later instruction -/
  reportedAt_le : ∀ j, e.reportedAt = some j → j ≤ index

namespace Poised

variable {index since : Nat} {told : Bool}

/-- A pass is poised before its first instruction when it is started, and nothing has been told. -/
theorem start (instructions : List Instruction) (compiled : Compiled)
    (traced timed : Bool) (interval : Nat) (t : Thread) :
    let e := (Execution.start instructions compiled traced timed interval t).1
    e.Poised 0 e.started false where
  unfinished := rfl
  position := rfl
  le_total := Nat.zero_le _
  lastReport := rfl
  reportedAt := ⟨nofun, nofun⟩
  reportedAt_le := nofun

/-- A notification is due if none was given since the last instruction and the interval has
passed. -/
theorem due_iff (h : e.Poised index since told) :
    e.Due t ↔ told = false ∧ e.interval ≤ reading t - since := by
  rw [Due, h.position, h.lastReport, Ne, h.reportedAt, Bool.not_eq_true]

/-- A notification leaves the pass at the same instruction. -/
theorem notified (h : e.Poised index since false) (t : Thread) :
    (e.notified t).Poised index (reading t) true where
  unfinished := h.unfinished
  position := h.position
  le_total := h.le_total
  lastReport := rfl
  reportedAt := by
    rw [← h.position]
    exact ⟨fun _ => rfl, fun _ => rfl⟩
  reportedAt_le j hj := by
    obtain rfl := Option.some.inj hj
    exact Nat.le_of_eq h.position

/-- An executed instruction leaves the pass at the next one. -/
theorem executed (h : e.Poised index since told) (hindex : index < e.total) (b : Bank)
    (trace : Option (List TraceEvent)) :
    ({ e.put b trace with position := e.position + 1 } : Execution).Poised (index + 1) since
      false where
  unfinished := h.unfinished
  position := congrArg (· + 1) h.position
  le_total := hindex
  lastReport := h.lastReport
  reportedAt := by
    refine ⟨fun hr => ?_, nofun⟩
    exact absurd (h.reportedAt_le _ hr) (Nat.not_succ_le_self _)
  reportedAt_le j hj := Nat.le_succ_of_le (h.reportedAt_le j hj)

end Poised

end Execution

end InferenceEngine
