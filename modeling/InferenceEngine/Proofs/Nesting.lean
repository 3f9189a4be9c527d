import InferenceEngine.Proofs.Calls
import InferenceEngine.Proofs.Stage

/-!
# Runs inside runs

A kernel may begin passes of its own on the thread it is called on, take steps of them, whose kernels
may do the same, and drop them before it returns. `Nests` says that a routine does this and nothing
else to the context: each pass is stepped and dropped only while it is the youngest, and none is left
open. Anything a routine does besides has to leave the context alone, since only the beginning, the
steps and the end of a pass can reach it. A derivation of `Nests` is the tree of the calls, and what is
there to be seen of it is a list of `Moment`s, at any depth in one list.

`Nests.right` says what a moment looks like: the context is that of the youngest live pass, and when a
pass has ended the one that it has found. The induction is on the derivation, so it goes through all
depths at once. What carries it is `Standing`: every live pass will put back what the one below it
shows.
-/

namespace InferenceEngine

/-! ## Live passes -/

/-- What a live pass is about. -/
inductive Phase
  /-- it is between two steps; if the last dispatch was broken off, its instruction is still shown -/
  | between (broken : Option Nat)
  /-- it is dispatching an instruction -/
  | dispatching (index : Nat)

/-- The instruction that is shown. -/
def Phase.instruction : Phase → Option Nat
  | between broken => broken
  | dispatching index => some index

/-- A live pass. -/
structure Frame where
  /-- the pass as it is -/
  pass : Execution
  /-- the context in force when it began -/
  found : Option Context
  /-- what it is about -/
  phase : Phase

namespace Frame

/-- The context that the pass shows. -/
def context (f : Frame) : Context := ⟨f.pass.run, f.phase.instruction⟩

/-- A pass that has just begun. -/
def begun (e : Execution) (t : Thread) : Frame := ⟨e, t.context, .between none⟩

/-- The pass while its next instruction is dispatched. -/
def calling (f : Frame) : Frame := { f with phase := .dispatching f.pass.position }

/-- The instruction that a step leaves in the label, if it dispatches: none, unless it is broken
off. -/
def left (f : Frame) (t : Thread) : Option Nat :=
  match (f.pass.step t).1 with
  | .panic _ => some f.pass.position
  | _ => none

/-- The pass after a step. -/
def stepped (f : Frame) (t : Thread) : Frame :=
  { f with
    pass := (f.pass.step t).2.1
    phase := if f.pass.Dispatches t then .between (f.left t) else f.phase }

end Frame

/-- What there is to be seen while passes are nested. -/
inductive Moment
  /-- the thread while these passes are live, the youngest first -/
  | during (live : List Frame) (t : Thread)
  /-- the youngest pass, and the thread on which it has taken a step -/
  | stepped (f : Frame) (t : Thread)
  /-- a pass that has been dropped, and the thread after that -/
  | ended (f : Frame) (t : Thread)

/-- What is to be seen of a lookup: it is part of the dispatch, if there is one. -/
def Frame.lookup (f : Frame) (others : List Frame) (t : Thread) : List Moment :=
  if f.pass.Dispatches t then [.during (f.calling :: others) (f.pass.dispatchThread t)] else []

theorem Frame.mem_lookup {f : Frame} {t : Thread} (hd : f.pass.Dispatches t) (others : List Frame) :
    .during (f.calling :: others) (f.pass.dispatchThread t) ∈ f.lookup others t := by
  rw [lookup, if_pos hd]
  exact List.mem_singleton_self _

/-! ## Routines that nest -/

/-- `Nests outer args own r b t ms`: while the passes `outer` are live, a call with `args` that has
opened the passes `own` carries out `r` on `b` and `t`, with the moments `ms`, and leaves no pass
open. -/
inductive Nests : (outer : List Frame) → Args → (own : List Frame) → Routine Unit → Bank → Thread →
    List Moment → Prop
  /-- the end -/
  | done {outer : List Frame} {args : Args} {b : Bank} {t : Thread} :
    Nests outer args [] (.done ()) b t [.during outer t]
  /-- a refusal -/
  | fail {outer : List Frame} {args : Args} {b : Bank} {t : Thread} {f : Failure} :
    Nests outer args [] (.fail f) b t [.during outer t]
  /-- a break, after the passes were dropped -/
  | panic {outer : List Frame} {args : Args} {b : Bank} {t : Thread} {p : Panic} :
    Nests outer args [] (.panic p) b t [.during outer t]
  /-- an element is read -/
  | read {outer own : List Frame} {args : Args} {b : Bank} {t : Thread} {ms : List Moment}
    {pin : Pin} {v : View} {i : Nat} {x : Single} {k : Single → Routine Unit}
    (hv : pin.view? args = some v) (hx : b.get? v.cell i = some x)
    (rest : Nests outer args own (k x) b t ms) : Nests outer args own (.read pin i k) b t ms
  /-- a read is broken off -/
  | stray {outer : List Frame} {args : Args} {b : Bank} {t : Thread} {pin : Pin} {i : Nat}
    {k : Single → Routine Unit} (h : ∀ v, pin.view? args = some v → b.get? v.cell i = none) :
    Nests outer args [] (.read pin i k) b t [.during outer t]
  /-- an element is written -/
  | write {outer own : List Frame} {args : Args} {b : Bank} {t : Thread} {ms : List Moment}
    {pin : Pin} {v : View} {i : Nat} {x : Single} {k : Routine Unit}
    (hv : pin.view? args = some v) (hi : i < b.size v.cell)
    (rest : Nests outer args own k (b.put v.cell i x) t ms) :
    Nests outer args own (.write pin i x k) b t ms
  /-- a write is broken off -/
  | spill {outer : List Frame} {args : Args} {b : Bank} {t : Thread} {pin : Pin} {i : Nat}
    {x : Single} {k : Routine Unit} (h : ∀ v, pin.view? args = some v → b.size v.cell ≤ i) :
    Nests outer args [] (.write pin i x k) b t [.during outer t]
  /-- something is noted -/
  | note {outer own : List Frame} {args : Args} {b : Bank} {t : Thread} {ms : List Moment}
    {content : Note} {k : Routine Unit} (rest : Nests outer args own k b (t.write (.note content)) ms) :
    Nests outer args own (.note content k) b t (.during (own ++ outer) t :: ms)
  /-- the thread is looked at -/
  | look {outer own : List Frame} {args : Args} {b : Bank} {t : Thread} {ms : List Moment}
    {k : Thread → Routine Unit} (rest : Nests outer args own (k t) b t ms) :
    Nests outer args own (.look k) b t (.during (own ++ outer) t :: ms)
  /-- the thread has become what it should -/
  | become {outer own : List Frame} {args : Args} {b : Bank} {t : Thread} {ms : List Moment}
    {k : Routine Unit} (rest : Nests outer args own k b t ms) :
    Nests outer args own (.become t k) b t ms
  /-- on the way there: something that leaves the context alone, such as logging a line -/
  | aside {outer own : List Frame} {args : Args} {b : Bank} {t t' u : Thread} {ms : List Moment}
    {k : Routine Unit} (h : t'.context = t.context)
    (rest : Nests outer args own (.become u k) b t' ms) :
    Nests outer args own (.become u k) b t (.during (own ++ outer) t :: ms)
  /-- on the way there: a pass begins -/
  | begin {outer own : List Frame} {args : Args} {b : Bank} {t t' u : Thread} {ms : List Moment}
    {k : Routine Unit} {r : Runner} {e : Execution} (h : r.start t = (.ok e, t'))
    (rest : Nests outer args (.begun e t :: own) (.become u k) b t' ms) :
    Nests outer args own (.become u k) b t (.during (own ++ outer) t :: ms)
  /-- on the way there: the youngest pass takes a step that calls no kernel -/
  | pass {outer own : List Frame} {args : Args} {b : Bank} {t u : Thread} {ms : List Moment}
    {k : Routine Unit} {f : Frame} (h : f.pass.callAt t = none)
    (rest : Nests outer args (f.stepped t :: own) (.become u k) b (f.pass.step t).2.2 ms) :
    Nests outer args (f :: own) (.become u k) b t
      (.during (f :: own ++ outer) t :: (f.lookup (own ++ outer) t ++ .stepped f t :: ms))
  /-- on the way there: the youngest pass takes a step that calls a kernel, which nests in its
  turn -/
  | call {outer own : List Frame} {args : Args} {b : Bank} {t u : Thread} {ms inner : List Moment}
    {k : Routine Unit} {f : Frame} {i : Instruction} {call : Call} (hd : f.pass.Dispatches t)
    (hprep : f.pass.prepare f.pass.position = .ok (i, call))
    (hcall : Nests (f.calling :: (own ++ outer)) call.args [] (call.kernel call.args) f.pass.bank
      (f.pass.kernelThread i t) inner)
    (rest : Nests outer args (f.stepped t :: own) (.become u k) b (f.pass.step t).2.2 ms) :
    Nests outer args (f :: own) (.become u k) b t
      (.during (f :: own ++ outer) t :: (f.lookup (own ++ outer) t ++ inner ++ .stepped f t :: ms))
  /-- on the way there: the youngest pass is dropped -/
  | drop {outer own : List Frame} {args : Args} {b : Bank} {t u : Thread} {ms : List Moment}
    {k : Routine Unit} {f : Frame}
    (rest : Nests outer args own (.become u k) b (f.pass.close t) ms) :
    Nests outer args (f :: own) (.become u k) b t
      (.during (f :: own ++ outer) t :: .ended f (f.pass.close t) :: ms)

/-! ## What is in force -/

/-- The context that live passes show, if `base` was in force before: that of the youngest. -/
def shownBy (base : Option Context) : List Frame → Option Context
  | [] => base
  | f :: _ => some f.context

/-- Every live pass has found, and will put back, what those below it show. -/
def Standing (base : Option Context) : List Frame → Prop
  | [] => True
  | f :: rest => f.found = shownBy base rest ∧ f.pass.outer = f.found ∧ Standing base rest

/-- What a moment should look like, if `base` was in force before. -/
def Moment.Right (base : Option Context) : Moment → Prop
  | during live t => t.context = shownBy base live
  | stepped f t => t.context = some f.context ∧
    (f.pass.step t).2.2.context = some (f.stepped t).context
  | ended f t => t.context = f.found

namespace Frame

variable {f : Frame} {t : Thread}

theorem run_stepped (f : Frame) (t : Thread) : (f.stepped t).pass.run = f.pass.run :=
  (Execution.samePass_step f.pass t).run

theorem outer_stepped (f : Frame) (t : Thread) : (f.stepped t).pass.outer = f.pass.outer :=
  (Execution.samePass_step f.pass t).outer

/-- During a dispatch the instruction is shown. -/
theorem context_dispatchThread (h : t.context = some f.context) :
    (f.pass.dispatchThread t).context = some f.calling.context := by
  rw [Execution.dispatchThread, Thread.context_focus, Execution.context_poll, h]
  rfl

theorem context_kernelThread (h : t.context = some f.context) (i : Instruction) :
    (f.pass.kernelThread i t).context = some f.calling.context := by
  rw [Execution.kernelThread, Execution.callThread, Execution.context_mark, Thread.context_emit,
    context_dispatchThread h]

/-- A step that dispatches shows no instruction afterwards, unless it is broken off. -/
theorem context_step_of_dispatches (hd : f.pass.Dispatches t) (h : t.context = some f.context)
    (hcall : ∀ i call, f.pass.prepare f.pass.position = .ok (i, call) →
      (Execution.invoke call f.pass.bank (f.pass.kernelThread i t)).2.2.context =
        some f.calling.context) :
    (f.pass.step t).2.2.context = some (f.stepped t).context := by
  -- whatever the kernel has done inside, it leaves the context of its call
  have hdispatch : (f.pass.dispatch f.pass.position (f.pass.dispatchThread t)).2.2.context =
      some f.calling.context := by
    rw [← context_dispatchThread h]
    refine Execution.context_dispatch_of_call fun i call hprep => ?_
    rw [context_dispatchThread h]
    exact hcall i call hprep
  rw [context, run_stepped, stepped, if_pos hd, left, Execution.step_of_dispatches hd,
    Execution.advance, ← Execution.dispatchThread]
  rcases hend : f.pass.dispatch f.pass.position (f.pass.dispatchThread t) with ⟨_ | g | p, e', t'⟩
  all_goals rw [hend] at hdispatch
  · show (t'.focus none).context = _
    rw [Thread.context_focus, hdispatch]
    rfl
  · show ((t'.emit .error _).focus none).context = _
    rw [Thread.context_focus, Thread.context_emit, hdispatch]
    rfl
  · exact hdispatch

/-- Any other step leaves the context as it is. -/
theorem context_step_of_not_dispatches (hd : ¬ f.pass.Dispatches t)
    (h : t.context = some f.context) :
    (f.pass.step t).2.2.context = some (f.stepped t).context := by
  rw [context, run_stepped, stepped, if_neg hd, ← context, ← h]
  exact Execution.context_step_of_not_dispatches hd

end Frame

/-! ## Every moment is right -/

/-- A lookup shows the instruction, if there is one. -/
theorem Frame.right_of_mem_lookup {base : Option Context} {f : Frame} {others : List Frame}
    {t : Thread} (h : t.context = some f.context) : ∀ m ∈ f.lookup others t, m.Right base := by
  intro m hm
  rw [lookup] at hm
  by_cases hd : f.pass.Dispatches t
  · rw [if_pos hd] at hm
    obtain rfl := List.mem_singleton.mp hm
    exact context_dispatchThread h
  · rw [if_neg hd] at hm
    exact absurd hm List.not_mem_nil

/-- A step leaves every pass below the youngest as it is. -/
theorem Standing.stepped {base : Option Context} {f : Frame} {others : List Frame}
    (h : Standing base (f :: others)) (t : Thread) : Standing base (f.stepped t :: others) :=
  ⟨h.1, (f.outer_stepped t).trans h.2.1, h.2.2⟩

/-- **What nesting preserves.** If the live passes will put back what they have found, then a call that
nests makes all moments right and leaves the context that it has found. -/
theorem Nests.right {outer own : List Frame} {args : Args} {r : Routine Unit} {b : Bank}
    {t : Thread} {ms : List Moment} (h : Nests outer args own r b t ms) {base : Option Context}
    (hstanding : Standing base (own ++ outer)) (ht : t.context = shownBy base (own ++ outer)) :
    (∀ m ∈ ms, m.Right base) ∧ (r.run args b t).2.2.context = shownBy base outer := by
  induction h with
  | done | fail | panic => exact ⟨List.forall_mem_singleton.mpr ht, ht⟩
  | read hv hx rest ih =>
    simp only [Routine.run, hv, hx]
    exact ih hstanding ht
  | @stray outer args b t pin i k h =>
    refine ⟨List.forall_mem_singleton.mpr ht, ?_⟩
    simp only [Routine.run]
    cases hv : pin.view? args with
    | none => exact ht
    | some v =>
      dsimp only
      rw [h v hv]
      exact ht
  | write hv hi rest ih =>
    simp only [Routine.run, hv, if_pos hi]
    exact ih hstanding ht
  | @spill outer args b t pin i x k h =>
    refine ⟨List.forall_mem_singleton.mpr ht, ?_⟩
    simp only [Routine.run]
    cases hv : pin.view? args with
    | none => exact ht
    | some v =>
      dsimp only
      rw [if_neg (Nat.not_lt.mpr (h v hv))]
      exact ht
  | note rest ih | look rest ih =>
    obtain ⟨hrest, hend⟩ := ih hstanding ht
    exact ⟨List.forall_mem_cons.mpr ⟨ht, hrest⟩, hend⟩
  | become rest ih => exact ih hstanding ht
  | aside h rest ih =>
    obtain ⟨hrest, hend⟩ := ih hstanding (h.trans ht)
    exact ⟨List.forall_mem_cons.mpr ⟨ht, hrest⟩, hend⟩
  | begin h rest ih =>
    obtain ⟨-, houter, hcontext⟩ := Runner.context_start h
    obtain ⟨hrest, hend⟩ := ih ⟨ht, houter, hstanding⟩ hcontext
    exact ⟨List.forall_mem_cons.mpr ⟨ht, hrest⟩, hend⟩
  | @pass outer own args b t u ms k f h rest ih =>
    have hstep : (f.pass.step t).2.2.context = some (f.stepped t).context := by
      by_cases hd : f.pass.Dispatches t
      · refine Frame.context_step_of_dispatches hd ht fun i call hprep => ?_
        have hcall := Execution.callAt_eq_some.mpr ⟨hd, rfl, i, hprep⟩
        cases h.symm.trans hcall
      · exact Frame.context_step_of_not_dispatches hd ht
    obtain ⟨hrest, hend⟩ := ih (hstanding.stepped t) hstep
    refine ⟨List.forall_mem_cons.mpr ⟨ht, List.forall_mem_append.mpr ⟨?_, ?_⟩⟩, hend⟩
    · exact Frame.right_of_mem_lookup ht
    · exact List.forall_mem_cons.mpr ⟨⟨ht, hstep⟩, hrest⟩
  | @call outer own args b t u ms inner k f i call hd hprep hcall rest ihcall ih =>
    -- the kernel finds the instruction in the label, and leaves it there
    obtain ⟨hinner, hkernel⟩ := ihcall hstanding (Frame.context_kernelThread ht i)
    have hstep : (f.pass.step t).2.2.context = some (f.stepped t).context := by
      refine Frame.context_step_of_dispatches hd ht fun i' call' hprep' => ?_
      obtain ⟨rfl, rfl⟩ := Prod.mk.inj (Outcome.ok.inj (hprep.symm.trans hprep'))
      exact hkernel
    obtain ⟨hrest, hend⟩ := ih (hstanding.stepped t) hstep
    refine ⟨List.forall_mem_cons.mpr ⟨ht, List.forall_mem_append.mpr ⟨?_, ?_⟩⟩, hend⟩
    · exact List.forall_mem_append.mpr ⟨Frame.right_of_mem_lookup ht, hinner⟩
    · exact List.forall_mem_cons.mpr ⟨⟨ht, hstep⟩, hrest⟩
  | @drop outer own args b t u ms k f rest ih =>
    obtain ⟨hfound, hback, hbelow⟩ := hstanding
    obtain ⟨hrest, hend⟩ := ih hbelow (hback.trans hfound)
    exact ⟨List.forall_mem_cons.mpr ⟨ht, List.forall_mem_cons.mpr ⟨hback, hrest⟩⟩, hend⟩

/-- For a host there is nothing outside. -/
theorem Nests.right_of_host {args : Args} {r : Routine Unit} {b : Bank} {t : Thread}
    {ms : List Moment} (h : Nests [] args [] r b t ms) :
    (∀ m ∈ ms, m.Right t.context) ∧ (r.run args b t).2.2.context = t.context :=
  h.right trivial rfl

end InferenceEngine
