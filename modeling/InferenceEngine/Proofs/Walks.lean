import InferenceEngine.Proofs.Drivers

/-!
# What is left of a pass

Whoever steps through a pass may do anything on its thread between two steps: tell a sink, wait,
log, run something else. `Attendant` is all of that, and `Execution.attend` is a pass that is
stepped through in this way, of which a run is a case (`Runner.run_eq_walk`).

`Execution.rest` is what the instructions that are left of a pass come to with none of this around
them. If kernels are functions of what they are called with (`Kernel.Determined`), a pass comes to
the same (`Execution.comesTo_attend`). This is by induction on the steps: a notification leaves what
is left of the pass as it is, and a dispatch takes one instruction off it
(`Execution.comesTo_of_dispatches`).
-/

namespace InferenceEngine

/-! ## Kernels that are functions -/

/-- What a call of the kernel comes to, and what it leaves in the variables, depends on its
arguments and on the elements that it finds, and not on the thread. -/
def Kernel.Determined (k : Kernel) : Prop :=
  ∀ args b t t', ((k args).run args b t).1 = ((k args).run args b t').1 ∧
    ((k args).run args b t).2.1 = ((k args).run args b t').2.1

/-- All kernels are functions. -/
def Registry.Determined (r : Registry) : Prop := ∀ e ∈ r.entries, Kernel.Determined e.2

/-- Kernels that leave the thread alone are functions. -/
theorem Kernel.determined_of_blind {k : Kernel} (h : ∀ args, (k args).Blind) :
    Kernel.Determined k :=
  fun args b t t' => Routine.run_of_blind args (h args) b t t'

/-- Does as it likes on the thread between two steps: it is given the number of the step and what
the step has done. -/
abbrev Attendant := Nat → StepOutcome → Thread → Thread

/-- What a run does between its steps: it tells the sink. -/
def ProgressSink.attendant (sink : ProgressSink) : Attendant
  | _, .yielded p, t | _, .finished p, t => sink.tell p t
  | _, .executed, t => t

namespace Execution

/-- Steps through a pass to its end. Gives back how it has ended, the pass, and the calls that were
made, each with what was in the variables then. -/
def attend (host : Attendant) : Nat → Nat → Execution → Thread →
    Outcome Unit × Execution × List (Call × Bank)
  | 0, _, e, _ => (.panic .overrun, e, [])
  | budget + 1, k, e, t =>
    match e.step t with
    | (.ok .executed, e', t') =>
      let rest := attend host budget (k + 1) e' (host k .executed t')
      (rest.1, rest.2.1, (e.callAt t).toList ++ rest.2.2)
    | (.ok (.yielded p), e', t') =>
      let rest := attend host budget (k + 1) e' (host k (.yielded p) t')
      (rest.1, rest.2.1, (e.callAt t).toList ++ rest.2.2)
    | (.ok (.finished _), e', _) => (.ok (), e', (e.callAt t).toList)
    | (.error f, e', _) => (.error f, e', (e.callAt t).toList)
    | (.panic p, e', _) => (.panic p, e', (e.callAt t).toList)

/-- What so many instructions come to from the next one on, if their kernels are called on the
thread `u`: how they end, what they leave in the variables, and the calls. -/
def rest (u : Thread) : Nat → Execution → Outcome Unit × Bank × List (Call × Bank)
  | 0, e => (.ok (), e.bank, [])
  | left + 1, e =>
    match e.prepare e.position with
    | .error f => (.error f, e.bank, [])
    | .panic p => (.panic p, e.bank, [])
    | .ok (_, call) =>
      match invoke call e.bank u with
      | (.ok (), b, _) =>
        let next := rest u left { e.put b none with position := e.position + 1 }
        (next.1, next.2.1, (call, e.bank) :: next.2.2)
      | (.error f, b, _) => (.error f, b, [(call, e.bank)])
      | (.panic p, b, _) => (.panic p, b, [(call, e.bank)])

/-- A pass that was stepped through has come to what its instructions come to. -/
structure ComesTo (x : Outcome Unit × Execution × List (Call × Bank))
    (y : Outcome Unit × Bank × List (Call × Bank)) : Prop where
  /-- how it has ended -/
  outcome : x.1 = y.1
  /-- what it has left in the variables -/
  bank : x.2.1.bank = y.2.1
  /-- the calls that were made -/
  calls : x.2.2 = y.2.2
  /-- if it has ended well, the end was announced -/
  announced : x.1 = .ok () → x.2.1.isFinished = true

/-- Two passes that are at the same instruction of the same graph, with the same elements in the
variables. They may be observed in different ways. -/
structure Alike (e e' : Execution) : Prop where
  /-- the instructions as written -/
  instructions : e.instructions = e'.instructions
  /-- the graph and the variables -/
  compiled : e.compiled = e'.compiled
  /-- the next instruction -/
  position : e.position = e'.position

variable {e e' : Execution} {t t' u u' : Thread} {index since budget k left : Nat} {told : Bool}
  {i : Instruction} {call : Call} {b : Bank} {host : Attendant} {f : Failure} {p : Panic}

/-! ## What is left of a pass -/

/-- Alike passes prepare the same call. -/
theorem Alike.prepare (h : e.Alike e') (index : Nat) : e.prepare index = e'.prepare index := by
  rw [Execution.prepare, Execution.prepare, fetch, fetch, h.instructions, h.compiled]

/-- An instruction that is refused ends the rest of a pass, and nothing is called. -/
theorem rest_of_error (h : e.prepare e.position = .error f) :
    e.rest u (left + 1) = (.error f, e.bank, []) := by
  rw [rest, h]

theorem rest_of_panic (h : e.prepare e.position = .panic p) :
    e.rest u (left + 1) = (.panic p, e.bank, []) := by
  rw [rest, h]

/-- A call that succeeds is followed by the rest of the pass, over the buffers that it leaves. -/
theorem rest_of_call_ok (h : e.prepare e.position = .ok (i, call))
    (hinvoke : invoke call e.bank u = (.ok (), b, u')) :
    e.rest u (left + 1) =
      let next := rest u left { e.put b none with position := e.position + 1 }
      (next.1, next.2.1, (call, e.bank) :: next.2.2) := by
  simp only [rest, h, hinvoke]

/-- A call that fails is the last one, and its buffers are kept. -/
theorem rest_of_call_error (h : e.prepare e.position = .ok (i, call))
    (hinvoke : invoke call e.bank u = (.error f, b, u')) :
    e.rest u (left + 1) = (.error f, b, [(call, e.bank)]) := by
  simp only [rest, h, hinvoke]

theorem rest_of_call_panic (h : e.prepare e.position = .ok (i, call))
    (hinvoke : invoke call e.bank u = (.panic p, b, u')) :
    e.rest u (left + 1) = (.panic p, b, [(call, e.bank)]) := by
  simp only [rest, h, hinvoke]

/-- Alike passes come to the same. -/
theorem Alike.rest (h : e.Alike e') (u : Thread) (left : Nat) : e.rest u left = e'.rest u left := by
  have hbank : e.bank = e'.bank := congrArg (fun c => c.buffers.bank) h.compiled
  induction left generalizing e e' with
  | zero => rw [Execution.rest, Execution.rest, hbank]
  | succ left ih =>
    -- both prepare the same call, so both end here in the same way or both go on
    have hprepare : e.prepare e.position = e'.prepare e'.position := by
      rw [h.position, h.prepare]
    cases hprep : e.prepare e.position with
    | error f => rw [rest_of_error hprep, rest_of_error (hprepare ▸ hprep), hbank]
    | panic p => rw [rest_of_panic hprep, rest_of_panic (hprepare ▸ hprep), hbank]
    | ok next =>
      obtain ⟨i, call⟩ := next
      have hprep' : e'.prepare e'.position = .ok (i, call) := hprepare ▸ hprep
      rcases hinvoke : invoke call e.bank u with ⟨_ | f | p, b, u'⟩
      · have hnext : Alike { e.put b none with position := e.position + 1 }
            { e'.put b none with position := e'.position + 1 } := by
          refine ⟨h.instructions, ?_, congrArg (· + 1) h.position⟩
          rw [put, put, h.compiled]
        rw [rest_of_call_ok hprep hinvoke, rest_of_call_ok hprep' (hbank ▸ hinvoke), ih hnext rfl,
          hbank]
      · rw [rest_of_call_error hprep hinvoke, rest_of_call_error hprep' (hbank ▸ hinvoke), hbank]
      · rw [rest_of_call_panic hprep hinvoke, rest_of_call_panic hprep' (hbank ▸ hinvoke), hbank]

/-! ## Stepping to the end -/

/-- After an instruction the attendant has its turn, and then the pass goes on with what is left of
the budget. -/
theorem attend_of_executed (h : e.step t = (.ok .executed, e', t')) :
    attend host (budget + 1) k e t =
      let rest := attend host budget (k + 1) e' (host k .executed t')
      (rest.1, rest.2.1, (e.callAt t).toList ++ rest.2.2) := by
  rw [attend, h]

/-- So it has after a notification. -/
theorem attend_of_yielded {p : Progress} (h : e.step t = (.ok (.yielded p), e', t')) :
    attend host (budget + 1) k e t =
      let rest := attend host budget (k + 1) e' (host k (.yielded p) t')
      (rest.1, rest.2.1, (e.callAt t).toList ++ rest.2.2) := by
  rw [attend, h]

/-- The last notification ends the pass. -/
theorem attend_of_finished {p : Progress} (h : e.step t = (.ok (.finished p), e', t')) :
    attend host (budget + 1) k e t = (.ok (), e', (e.callAt t).toList) := by
  rw [attend, h]

theorem attend_of_error (h : e.step t = (.error f, e', t')) :
    attend host (budget + 1) k e t = (.error f, e', (e.callAt t).toList) := by
  rw [attend, h]

theorem attend_of_panic (h : e.step t = (.panic p, e', t')) :
    attend host (budget + 1) k e t = (.panic p, e', (e.callAt t).toList) := by
  rw [attend, h]

/-- Whatever the attendant does between the steps, the pass stays the same one: only its steps
change it. -/
theorem samePass_attend (host : Attendant) (budget k : Nat) (e : Execution) (t : Thread) :
    e.SamePass (attend host budget k e t).2.1 := by
  induction budget generalizing k e t with
  | zero => exact SamePass.refl e
  | succ budget ih =>
    have hstep := samePass_step e t
    rcases hs : e.step t with ⟨⟨_ | p | p⟩ | f | p, e', t'⟩
    all_goals rw [hs] at hstep
    · rw [attend_of_executed hs]
      exact hstep.trans (ih _ e' _)
    · rw [attend_of_yielded hs]
      exact hstep.trans (ih _ e' _)
    · rw [attend_of_finished hs]
      exact hstep
    · rw [attend_of_error hs]
      exact hstep
    · rw [attend_of_panic hs]
      exact hstep

theorem callAt_of_not_dispatches (h : ¬ e.Dispatches t) : e.callAt t = none := if_neg h

/-- An instruction that is refused calls nothing. -/
theorem callAt_of_unprepared (h : ∀ next, e.prepare e.position ≠ .ok next) : e.callAt t = none := by
  rw [Option.eq_none_iff_forall_ne_some]
  rintro ⟨call, b⟩ hcall
  obtain ⟨-, -, i, hprep⟩ := callAt_eq_some.mp hcall
  exact h _ hprep

theorem advance_of_panic (hpos : e.position = index) (h : e.prepare index = .panic p) :
    ∃ t', e.advance t = (.panic p, e, t') := by
  rw [advance, dispatch, hpos, h]
  exact ⟨_, rfl⟩

/-- What a call comes to does not depend on the thread that it is made on. -/
theorem exists_invoke_of_determined (hk : e.compiled.kernels.Determined)
    (h : e.prepare index = .ok (i, call)) (b : Bank) (t u : Thread) :
    ∃ o b' t' u', invoke call b t = (o, b', t') ∧ invoke call b u = (o, b', u') := by
  obtain ⟨name, hmem⟩ := mem_of_prepare h
  obtain ⟨ho, hb⟩ := hk _ hmem call.args b t u
  exact ⟨_, _, (invoke call b t).2.2, (invoke call b u).2.2, rfl,
    Prod.ext ho.symm (Prod.ext hb.symm rfl)⟩

/-- From where an instruction is dispatched, a pass comes to what is left of it if it does from
where the next one is reached. -/
theorem comesTo_of_dispatches (hk : e.compiled.kernels.Determined) (hd : e.Dispatches t) (u : Thread)
    (hnext : ∀ b trace t',
      let e' : Execution := { e.put b trace with position := e.position + 1 }
      ComesTo (attend host budget (k + 1) e' t') (e'.rest u left)) :
    ComesTo (attend host (budget + 1) k e t) (e.rest u (left + 1)) := by
  have hstep := step_of_dispatches hd
  cases hprep : e.prepare e.position with
  | error f =>
    obtain ⟨t', hadvance⟩ := advance_of_error (t := (e.poll t).2.2) rfl hprep
    have hnone : e.callAt t = none := callAt_of_unprepared (by simp [hprep])
    rw [attend_of_error (hstep.trans hadvance), rest_of_error hprep, hnone]
    exact ⟨rfl, rfl, rfl, by simp⟩
  | panic p =>
    obtain ⟨t', hadvance⟩ := advance_of_panic (t := (e.poll t).2.2) rfl hprep
    have hnone : e.callAt t = none := callAt_of_unprepared (by simp [hprep])
    rw [attend_of_panic (hstep.trans hadvance), rest_of_panic hprep, hnone]
    exact ⟨rfl, rfl, rfl, by simp⟩
  | ok next =>
    obtain ⟨i, call⟩ := next
    have hcall : e.callAt t = some (call, e.bank) := callAt_eq_some.mpr ⟨hd, rfl, i, hprep⟩
    obtain ⟨o, b, t', u', ht, hu⟩ :=
      exists_invoke_of_determined hk hprep e.bank (e.kernelThread i t) u
    rcases advance_of_call rfl hprep ht with ⟨rfl, trace, hadvance⟩ |
      ⟨t'', ⟨f, rfl, hadvance⟩ | ⟨p, rfl, hadvance⟩⟩
    · -- what was recorded has no part in the rest
      have halike : Alike { e.put b trace with position := e.position + 1 }
          { e.put b none with position := e.position + 1 } := ⟨rfl, rfl, rfl⟩
      have hrest := hnext b trace (host k .executed ((e.mark t').focus none))
      rw [attend_of_executed (hstep.trans hadvance), rest_of_call_ok hprep hu, hcall,
        ← halike.rest]
      exact ⟨hrest.outcome, hrest.bank, congrArg ((call, e.bank) :: ·) hrest.calls,
        hrest.announced⟩
    · rw [attend_of_error (hstep.trans hadvance), rest_of_call_error hprep hu, hcall]
      exact ⟨rfl, rfl, rfl, by simp⟩
    · rw [attend_of_panic (hstep.trans hadvance), rest_of_call_panic hprep hu, hcall]
      exact ⟨rfl, rfl, rfl, by simp⟩

/-- **What a pass comes to** does not depend on who steps through it, on the threads that it is
stepped on, or on what is observed of it. Two steps for each instruction that is left and one more,
or one less after a notification, bring it to its end. -/
theorem comesTo_attend (hk : e.compiled.kernels.Determined) (hp : e.Poised index since told)
    (htold : told = true → index < e.total)
    (hbudget : 2 * (e.total - index) + 1 ≤ budget + told.toNat) (k : Nat) (t u : Thread) :
    ComesTo (attend host budget k e t) (e.rest u (e.total - index)) := by
  -- on the budget; the part of the host and the threads are new at every step
  induction budget generalizing e index since told k t with
  | zero =>
    -- after a notification there is an instruction left
    cases told with
    | false => simp at hbudget
    | true =>
      have hindex := htold rfl
      simp only [Bool.toNat_true] at hbudget
      omega
  | succ budget ih =>
    by_cases hend : e.position = e.total
    · have hnone : e.callAt t = none := callAt_of_not_dispatches fun hd => hd.2.1 hend
      have hleft : e.total - index = 0 := by
        rw [← hp.position, hend, Nat.sub_self]
      rw [attend_of_finished (step_of_end hp.unfinished hend), hnone, hleft]
      exact ⟨rfl, rfl, rfl, fun _ => rfl⟩
    have hindex : index < e.total := by
      have hpos := hp.position
      have hle := hp.le_total
      omega
    by_cases hdue : e.Due t
    · -- the notification changes nothing of what is left
      obtain ⟨rfl, -⟩ := hp.due_iff.mp hdue
      have hnone : e.callAt t = none := callAt_of_not_dispatches fun hd => hd.2.2 hdue
      have halike : (e.notified t).Alike e := ⟨rfl, rfl, rfl⟩
      have hrest := ih (e := e.notified t) hk (hp.notified t) (fun _ => hindex) hbudget (k + 1)
        (host k (.yielded (e.notice t)) t.now.2)
      rw [halike.rest] at hrest
      rw [attend_of_yielded (step_of_due hp.unfinished hend hdue), hnone]
      exact ⟨hrest.outcome, hrest.bank, hrest.calls, hrest.announced⟩
    · -- an instruction uses up two of the budget, one of them for the notification before the next
      have hleft : e.total - index = e.total - (index + 1) + 1 := by omega
      have hbudget' : 2 * (e.total - (index + 1)) + 1 ≤ budget + false.toNat := by
        have htoNat := Bool.toNat_le told
        simp only [Bool.toNat_false]
        omega
      rw [hleft]
      apply comesTo_of_dispatches hk ⟨hp.unfinished, hend, hdue⟩
      intro b trace t'
      exact ih (e := { e.put b trace with position := e.position + 1 }) hk
        (hp.executed hindex b trace) (by simp) hbudget' (k + 1) t'

end Execution

/-! ## Runners -/

namespace Runner

open Execution

variable {r : Runner} {c : Compiled}

/-- Begins a pass and steps through it to its end. -/
def walk (r : Runner) (host : Attendant) (t : Thread) :
    Outcome Unit × Runner × List (Call × Bank) :=
  match r.start t with
  | (.error f, _) => (.error f, r, [])
  | (.ok e, t) =>
    let x := attend host (budget e) 0 e t
    (x.1, r.absorb x.2.1, x.2.2)

/-- Driving a pass with a sink is attending to it with an attendant who tells the sink what is
yielded. -/
theorem drive_eq_attend (sink : ProgressSink) (budget k : Nat) (e : Execution) (t : Thread) :
    (drive sink budget e t).1 = (attend sink.attendant budget k e t).1 ∧
      (drive sink budget e t).2.1 = (attend sink.attendant budget k e t).2.1 := by
  induction budget generalizing k e t with
  | zero => exact ⟨rfl, rfl⟩
  | succ budget ih =>
    rcases hs : e.step t with ⟨⟨_ | p | p⟩ | f | p, e', t'⟩
    · rw [drive_of_executed hs, attend_of_executed hs]
      exact ih (k + 1) e' t'
    · rw [drive_of_yielded hs, attend_of_yielded hs]
      exact ih (k + 1) e' _
    · rw [drive_of_finished hs, attend_of_finished hs]
      exact ⟨rfl, rfl⟩
    · rw [drive_of_error hs, attend_of_error hs]
      exact ⟨rfl, rfl⟩
    · rw [drive_of_panic hs, attend_of_panic hs]
      exact ⟨rfl, rfl⟩

/-- A run is a pass that is stepped through by someone who tells the sink. -/
theorem run_eq_walk (r : Runner) (t : Thread) :
    (r.run t).1 = (r.walk r.sink.attendant t).1 ∧
      (r.run t).2.1 = (r.walk r.sink.attendant t).2.1 := by
  rw [run, walk]
  rcases r.start t with ⟨f | e, t₀⟩
  · exact ⟨rfl, rfl⟩
  · obtain ⟨ho, he⟩ := drive_eq_attend r.sink (budget e) 0 e t₀
    exact ⟨ho, congrArg r.absorb he⟩

/-- What a pass over a graph comes to. -/
def passed (d : Descriptor) (c : Compiled) : Outcome Unit × Bank × List (Call × Bank) :=
  (Execution.start d.instructions c false false 0 quiet).1.rest quiet c.program.length

/-- Without a compiled graph there is nothing to walk through. -/
theorem walk_of_fresh (h : r.compiled = none) (host : Attendant) (t : Thread) :
    r.walk host t = (.error .notCompiled, r, []) := by
  rw [walk, start, h]

/-- However a pass over a graph is stepped through and whatever is observed of it, the runner is
left with what the pass comes to. -/
theorem walk_of_compiled (h : r.compiled = some c) (hk : c.kernels.Determined) (host : Attendant)
    (t : Thread) :
    ∃ trace, r.walk host t =
      ((passed r.descriptor c).1,
        { r with compiled := some { c with buffers.bank := (passed r.descriptor c).2.1 }, trace },
        (passed r.descriptor c).2.2) := by
  obtain ⟨e, t₀, hstart, hcompiled, hinstructions, hposition⟩ :
      ∃ e t₀, r.start t = (.ok e, t₀) ∧ e.compiled = c ∧
        e.instructions = r.descriptor.instructions ∧ e.position = 0 := by
    rw [start, h]
    exact ⟨_, _, rfl, rfl, rfl, rfl⟩
  -- the pass that begins differs from the plain one in what is recorded only
  subst hcompiled
  have hrest : ComesTo (attend host (budget e) 0 e t₀) (passed r.descriptor e.compiled) := by
    have halike : e.Alike
        (Execution.start r.descriptor.instructions e.compiled false false 0 quiet).1 :=
      ⟨hinstructions, rfl, hposition⟩
    rw [passed, ← halike.rest]
    exact comesTo_attend hk (poised_of_start hstart).2 (by simp) (Nat.le_refl _) 0 t₀ quiet
  have hsame := samePass_attend host (budget e) 0 e t₀
  refine ⟨(attend host (budget e) 0 e t₀).2.1.trace.getD [], ?_⟩
  rw [walk, hstart, ← hrest.outcome, ← hrest.bank, ← hrest.calls]
  dsimp only
  rw [absorb, hsame.compiled]

end Runner

end InferenceEngine
