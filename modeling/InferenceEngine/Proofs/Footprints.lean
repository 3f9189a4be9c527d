import InferenceEngine.Proofs.Traces

/-!
# What a run leaves alone

A kernel reaches elements through the views of its call, and a call has a view of a variable only if
its instruction names it. So whatever the kernels are, a pass leaves every variable alone that none
of the dispatched instructions names. `Runner.run_footprint` is the main statement; it also says
which instructions a run dispatches.

* `Routine.getElem?_run_other` — a routine leaves the buffers alone that no view of its call is of.
* `Execution.spares_step`, `Execution.spares_after` — a step does, and a pass, by induction over its
  steps: failures and second attempts included.
* `Execution.Driven.dispatched` — a run dispatches the instructions in order, up to the last one or
  to the one that fails.
-/

namespace InferenceEngine

/-! ## One call -/

/-- A routine leaves the buffers alone that no view of its call is of. -/
theorem Routine.getElem?_run_other {α : Type} {args : Args} {cell : Nat}
    (h : ∀ v ∈ args.inputs ++ args.outputs, v.cell ≠ cell) (r : Routine α) (b : Bank) (t : Thread) :
    (r.run args b t).2.1[cell]? = b[cell]? := by
  induction r generalizing b t with
  | done x => rfl
  | fail e => rfl
  | panic p => rfl
  | read pin i k ih =>
    simp only [run]
    cases pin.view? args with
    | none => rfl
    | some v =>
      dsimp only
      cases b.get? v.cell i with
      | none => rfl
      | some x => exact ih x b t
  | write pin i x k ih =>
    simp only [run]
    cases hv : pin.view? args with
    | none => rfl
    | some v =>
      dsimp only
      by_cases hi : i < b.size v.cell
      · -- a write goes to a buffer of the call, and `cell` is none of these
        rw [if_pos hi, ih, Bank.put, List.getElem?_modify_ne _ _ (h v (Pin.mem_of_view? hv))]
      · rw [if_neg hi]
  | note n k ih => exact ih b _
  | look k ih => exact ih t b t
  | become s k ih => exact ih b s

/-- What is found has one of the names that are looked up. -/
theorem exists_name_of_lookupAll {α : Type} {role : Role} {index : Nat} {find : String → Option α}
    {names : List String} {xs : List α} (h : lookupAll role index find names = .ok xs) :
    ∀ x ∈ xs, ∃ name ∈ names, find name = some x := by
  intro x hx
  obtain ⟨k, hk, rfl⟩ := List.getElem_of_mem hx
  obtain ⟨hlength, hfound⟩ := List.forall₂_iff_get.mp (forall₂_of_lookupAll h)
  exact ⟨names[k], List.getElem_mem _, hfound k (hlength ▸ hk) hk⟩

/-! ## Instructions that name a variable -/

/-- One of the instructions with these indices names the variable, as an input or as an output. -/
def Touches (instructions : List Instruction) (indices : List Nat) (name : String) : Prop :=
  ∃ index ∈ indices, ∃ i, instructions[index]? = some i ∧ name ∈ i.inputs ++ i.outputs

theorem touches_append {instructions : List Instruction} {is js : List Nat} {name : String} :
    Touches instructions (is ++ js) name ↔
      Touches instructions is name ∨ Touches instructions js name := by
  simp [Touches, or_and_right, exists_or]

namespace Execution

variable {e e' : Execution} {t t' : Thread} {tb : Tables} {i : Instruction} {call : Call}
  {index k : Nat} {name : String} {v : View} {ts : Nat → Thread}

/-- A call has no view of a variable that its instruction does not name. -/
theorem Runs.cell_ne (h : e.Runs tb) (hprep : e.prepare index = .ok (i, call))
    (hv : tb.buffer? name = some v) (hname : name ∉ i.inputs ++ i.outputs) :
    ∀ w ∈ call.args.inputs ++ call.args.outputs, w.cell ≠ v.cell := by
  obtain ⟨hinputs, houtputs, -⟩ := Tables.call_eq_ok (h.call_of_prepare hprep).2
  intro w hw
  obtain ⟨other, hother, hfound⟩ : ∃ other ∈ i.inputs ++ i.outputs, tb.buffer? other = some w := by
    rcases List.mem_append.mp hw with hw | hw
    · obtain ⟨other, hother, hfound⟩ := exists_name_of_lookupAll hinputs w hw
      exact ⟨other, List.mem_append_left _ hother, hfound⟩
    · obtain ⟨other, hother, hfound⟩ := exists_name_of_lookupAll houtputs w hw
      exact ⟨other, List.mem_append_right _ hother, hfound⟩
  refine Tables.cell_ne_of_buffer? hfound hv ?_
  rintro rfl
  exact hname hother

/-! ## Steps -/

/-- **What one step leaves alone.** -/
theorem spares_step (h : e.Runs tb) (hv : tb.buffer? name = some v)
    (hname : e.Dispatches t → ¬ Touches e.instructions [e.position] name) :
    (e.step t).2.1.bank[v.cell]? = e.bank[v.cell]? := by
  cases hcall : e.callAt t with
  | none => rw [(step_of_no_call hcall).1]
  | some made =>
    obtain ⟨hd, -, i, hprep⟩ := callAt_eq_some.mp hcall
    have hunnamed : name ∉ i.inputs ++ i.outputs := fun hnamed =>
      hname hd ⟨e.position, List.mem_singleton_self _, i, instruction_of_prepare hprep, hnamed⟩
    rw [(step_of_call hd hprep).2]
    exact Routine.getElem?_run_other (h.cell_ne hprep hv hunnamed) _ _ _

/-- The instructions that the first `k` steps dispatch, in the order of the steps. -/
def dispatchedBefore (e : Execution) (ts : Nat → Thread) (k : Nat) : List Nat :=
  (List.range k).filterMap (e.dispatchedAt ts)

theorem dispatchedBefore_succ (e : Execution) (ts : Nat → Thread) (k : Nat) :
    e.dispatchedBefore ts (k + 1) = e.dispatchedBefore ts k ++ (e.dispatchedAt ts k).toList := by
  rw [dispatchedBefore, List.range_succ, List.filterMap_append, dispatchedBefore]
  cases h : e.dispatchedAt ts k <;> simp [h]

/-- **What any number of steps leave alone.** -/
theorem spares_after (h : e.Runs tb) (hv : tb.buffer? name = some v)
    (hname : ¬ Touches e.instructions (e.dispatchedBefore ts k) name) :
    (e.after ts k).bank[v.cell]? = e.bank[v.cell]? := by
  induction k with
  | zero => rfl
  | succ k ih =>
    have honward := Onward.after e ts k
    rw [dispatchedBefore_succ, touches_append, not_or] at hname
    obtain ⟨hbefore, hlast⟩ := hname
    rw [← ih hbefore]
    refine spares_step (h.of_samePass honward.same honward.shape) hv fun hd => ?_
    rw [honward.same.instructions]
    rwa [dispatchedAt_eq_some.mpr ⟨hd, rfl⟩] at hlast

/-! ## Which instructions a run dispatches -/

/-- The first of the steps may be set apart. -/
theorem dispatchedBefore_cons (e : Execution) (t : Thread) (ts : Nat → Thread) (k : Nat) :
    e.dispatchedBefore (fun | 0 => t | j + 1 => ts j) (k + 1) =
      (if e.Dispatches t then some e.position else none).toList ++
        (e.step t).2.1.dispatchedBefore ts k := by
  have hrest (j : Nat) : e.dispatchedAt (fun | 0 => t | j + 1 => ts j) (j + 1) =
      (e.step t).2.1.dispatchedAt ts j := by
    have hafter : e.after (fun | 0 => t | j + 1 => ts j) (j + 1) = (e.step t).2.1.after ts j :=
      after_cons ts j
    rw [dispatchedAt, hafter, dispatchedAt]
  induction k with
  | zero =>
    rw [dispatchedBefore_succ]
    exact (List.append_nil _).symm
  | succ k ih => rw [dispatchedBefore_succ, ih, hrest, List.append_assoc, ← dispatchedBefore_succ]

/-- A step that dispatches an instruction executes it or fails. -/
theorem executed_of_dispatches (hd : e.Dispatches t) (h : (e.step t).1.Succeeds) :
    (e.step t).1 = .ok .executed := by
  rw [step_of_dispatches hd] at h ⊢
  obtain ⟨b, trace, ⟨-, ho, -⟩ | ⟨hfail, ho, -⟩⟩ := advance_cases e (e.poll t).2.2
  · exact ho
  · rw [ho] at h
    obtain ⟨x, hx⟩ := h
    exact absurd (Outcome.succeeds_of_map_eq_ok hx) hfail

/-- The end is announced when no instruction is left. -/
theorem position_eq_of_announced {p : Progress} (h : (e.step t).1 = .ok (.finished p)) :
    e.position = e.total := by
  by_contra hleft
  rcases step_cases e t with ⟨-, hs⟩ | ⟨-, hend, -⟩ | ⟨-, -, -, hs⟩ | ⟨hfin, -, hdue, -⟩
  · rw [hs] at h
    cases h
  · exact hleft hend
  · rw [hs] at h
    cases h
  · cases h.symm.trans (executed_of_dispatches ⟨hfin, hleft, hdue⟩ ⟨_, h⟩)

/-- Only the announcement of the end ends a pass. -/
theorem unfinished_step (hfin : e.isFinished = false)
    (h : ∀ p, (e.step t).1 ≠ .ok (.finished p)) : (e.step t).2.1.isFinished = false := by
  rcases step_cases e t with ⟨hend, -⟩ | ⟨-, -, hs⟩ | ⟨-, -, -, hs⟩ | ⟨-, -, -, hs⟩
  · cases hfin.symm.trans hend
  · rw [hs] at h
    exact absurd rfl (h _)
  · rw [hs]
    exact hfin
  · obtain ⟨b, trace, ⟨-, -, hstate⟩ | ⟨-, -, hstate⟩⟩ := advance_cases e (e.poll t).2.2
    · rw [hs, hstate]
      exact hfin
    · rw [hs, hstate]
      exact hfin

/-- A driver dispatches the instructions that are left in order: all of them if it comes to the end,
and otherwise those up to the one that fails. -/
theorem Driven.dispatched {tell : Progress → Thread → Thread} {ss : List StepRecord}
    {o : Outcome Unit} (h : Driven tell e t ss o e' t') (hfin : e.isFinished = false)
    (hle : e.position ≤ e.total) :
    ∃ ts count, e' = e.after ts ss.length ∧
      e.dispatchedBefore ts ss.length = List.range' e.position count ∧
      (o = .ok () → e.position + count = e.total) ∧
      (¬ o.Succeeds → e'.position + 1 = e.position + count ∧ e'.position < e.total) := by
  induction h with
  | @finish e e' t t' p h =>
    -- nothing is dispatched at the end of the pass
    have hend : e.position = e.total := position_eq_of_announced (congrArg Prod.fst h)
    have hidle : ¬ e.Dispatches t := fun hd => hd.2.1 hend
    refine ⟨fun _ => t, 0, ?_, ?_, fun _ => hend, fun hfail => absurd ⟨(), rfl⟩ hfail⟩
    · rw [List.length_singleton, after, after, h]
    · rw [List.length_singleton, dispatchedBefore_succ, dispatchedAt, after, if_neg hidle]
      rfl
  | @stop e e' t t' o h hstop =>
    have hfail : ¬ (e.step t).1.Succeeds := by
      rw [h]
      rintro ⟨x, hx⟩
      exact hstop (Outcome.succeeds_of_map_eq_ok hx)
    -- only a dispatch fails, and it leaves the position where it was
    have hd : e.Dispatches t := dispatches_of_failed hfin hfail
    have hstay := position_step_of_not_executed fun hok => hfail ⟨_, hok⟩
    rw [h] at hstay
    refine ⟨fun _ => t, 1, ?_, ?_, fun hok => absurd ⟨(), hok⟩ hstop, fun _ => ?_⟩
    · rw [List.length_singleton, after, after, h]
    · rw [List.length_singleton, dispatchedBefore_succ, dispatchedAt, after, if_pos hd]
      rfl
    · have hlt := Nat.lt_of_le_of_ne hle hd.2.1
      dsimp only at hstay
      omega
  | @execute e e' e'' t t' t'' ss o h rest ih =>
    have hexecuted : (e.step t).1 = .ok .executed := by rw [h]
    have hd := dispatches_of_executed hexecuted
    have hstate : (e.step t).2.1 = e' := by rw [h]
    have hmoved := position_step_of_executed hexecuted
    have hunfinished := unfinished_step hfin fun p hp => by cases hexecuted.symm.trans hp
    have htotal := total_of_step h
    rw [hstate] at hmoved hunfinished
    have hlt := Nat.lt_of_le_of_ne hle hd.2.1
    obtain ⟨ts, count, hafter, hdispatched, hok, hfail⟩ := ih hunfinished (by omega)
    -- one more dispatch than in the steps that are left
    refine ⟨fun | 0 => t | j + 1 => ts j, count + 1, ?_, ?_, fun ho => ?_, fun ho => ?_⟩
    · rw [hafter, ← hstate]
      exact (after_cons ts ss.length).symm
    · rw [List.length_cons, dispatchedBefore_cons, if_pos hd, hstate, hdispatched, hmoved]
      rfl
    · have := hok ho
      omega
    · have := hfail ho
      omega
  | @yield e e' e'' t t' t'' p ss o h rest ih =>
    have hyielded : (e.step t).1 = .ok (.yielded p) := by rw [h]
    -- a yield dispatches nothing, so the rest of the steps has the same count
    have hidle : ¬ e.Dispatches t := by
      intro hd
      cases hyielded.symm.trans (executed_of_dispatches hd ⟨_, hyielded⟩)
    have hstate : (e.step t).2.1 = e' := by rw [h]
    have hstay := position_step_of_not_executed fun hok => by cases hyielded.symm.trans hok
    have hunfinished := unfinished_step hfin fun p hp => by cases hyielded.symm.trans hp
    have htotal := total_of_step h
    rw [hstate] at hstay hunfinished
    obtain ⟨ts, count, hafter, hdispatched, hok, hfail⟩ := ih hunfinished (by omega)
    rw [hstay, htotal] at hok hfail
    refine ⟨fun | 0 => t | j + 1 => ts j, count, ?_, ?_, hok, hfail⟩
    · rw [hafter, ← hstate]
      exact (after_cons ts ss.length).symm
    · rw [List.length_cons, dispatchedBefore_cons, if_neg hidle, hstate, hdispatched, hstay]
      rfl

end Execution

/-! ## Runs -/

namespace Runner

open Execution

variable {r : Runner} {c : Compiled} {b : Bank} {data : Array Single} {e : Execution}

/-- The runner `r'` is `r` after a pass that has dispatched the instructions with these indices:
nothing has changed but elements of variables that they name. -/
structure Spares (r r' : Runner) (indices : List Nat) : Prop where
  /-- a variable that none of them names, as an input or as an output, has the same elements -/
  elements : ∀ name, ¬ Touches r.descriptor.instructions indices name →
    r'.elementsOf name = r.elementsOf name
  /-- all variables are as long as before -/
  shape : r'.bank.shape = r.bank.shape
  /-- so are the weights, with the same elements -/
  weights : ∀ name, r'.weightOf name = r.weightOf name

/-- **What a pass leaves alone**, at any moment. -/
theorem spares_absorb (h : r.Holds c b data) {t t₀ : Thread} (hstart : r.start t = (.ok e, t₀))
    (ts : Nat → Thread) (k : Nat) :
    r.Spares (r.absorb (e.after ts k)) (e.dispatchedBefore ts k) := by
  obtain ⟨e', t', hstart', -, hcompiled, hinstructions, hruns⟩ := start_spec h t
  obtain rfl : e = e' := Except.ok.inj (Prod.mk.inj (hstart.symm.trans hstart')).1
  have hkept := kept_absorb hstart (Onward.after e ts k)
  have hafter := hkept.holds h rfl
  refine ⟨fun name hname => ?_, hkept.shape, hkept.weightOf⟩
  rw [← hinstructions] at hname
  -- the names stand for the same views before and after
  have helements : (r.absorb (e.after ts k)).elementsOf name =
      Tables.elements ⟨c.kernels, r.descriptor.buffers, r.descriptor.weights, data⟩
        (e.after ts k).bank name := elementsOf_eq hafter name
  rw [helements, elementsOf_eq h, Tables.elements, Tables.elements]
  cases hv : Tables.buffer? ⟨c.kernels, r.descriptor.buffers, r.descriptor.weights, data⟩ name with
  | none => rfl
  | some v =>
    have hspared := spares_after hruns hv hname
    have hbank : e.bank = b := by
      rw [Execution.bank, hcompiled]
      rfl
    dsimp only
    rw [View.elements, View.elements, Bank.elements, Bank.elements, hspared, hbank]

/-- **What a run leaves alone.** Let a runner be compiled, and let its variables and its weights
hold anything. A run takes the steps of a pass, and dispatches the instructions in order: all of
them if it succeeds, and if it fails or is broken off at an instruction then those up to this one. A
variable that none of these names, as an input or as an output, has the same elements after the run
as before, and every variable is as long as before; the same holds at any moment of any pass,
whoever takes the steps and however often an instruction is tried again. -/
theorem run_footprint (h : r.Holds c b data) (t : Thread) :
    (∃ e t₀ ts k, r.start t = (.ok e, t₀) ∧ (r.run t).2.1 = r.absorb (e.after ts k) ∧
      r.Spares (r.run t).2.1 (e.dispatchedBefore ts k) ∧
      ((r.run t).1 = .ok () →
        e.dispatchedBefore ts k = List.range r.descriptor.instructions.length) ∧
      ((r.run t).1 ≠ .ok () → ∃ index < r.descriptor.instructions.length,
        (e.after ts k).position = index ∧ e.dispatchedBefore ts k = List.range (index + 1))) ∧
    ∀ e t₀, r.start t = (.ok e, t₀) → ∀ ts k,
      r.Spares (r.absorb (e.after ts k)) (e.dispatchedBefore ts k) := by
  obtain ⟨e, t₀, hstart, hpoised, -, hinstructions, hruns⟩ := start_spec h t
  obtain ⟨ss, o, e', t', hdriven, -⟩ := exists_driven hstart r.sink.tell
  have hrun := run_of_driven hstart hdriven
  have htotal : e.total = r.descriptor.instructions.length := by rw [hruns.total, hinstructions]
  have hzero : e.position = 0 := hpoised.position
  obtain ⟨ts, count, rfl, hdispatched, hok, hfail⟩ :=
    hdriven.dispatched hpoised.unfinished (hzero ▸ hpoised.le_total)
  -- the pass begins at the first instruction: a stretch from there is a range
  rw [hzero, ← List.range_eq_range'] at hdispatched
  rw [hzero, Nat.zero_add, htotal] at hok hfail
  refine ⟨⟨e, t₀, ts, ss.length, hstart, ?_, ?_, fun hsucceeds => ?_, fun hfails => ?_⟩,
    fun e' t' hstart' => spares_absorb h hstart'⟩
  · rw [hrun]
  · rw [hrun]
    exact spares_absorb h hstart ts ss.length
  · -- a run that succeeds has come to the end
    rw [hrun] at hsucceeds
    rw [hdispatched, hok hsucceeds]
  · -- one that does not stops at the instruction it has dispatched last
    rw [hrun] at hfails
    obtain ⟨hcount, hlt⟩ := hfail fun ⟨_, hsucceeds⟩ => hfails hsucceeds
    exact ⟨_, hlt, rfl, hdispatched.trans (congrArg List.range hcount.symm)⟩

/-- A runner with three variables in one region, one for each instruction, the second of which
fails. -/
def crowded : Runner :=
  ofDescriptor
    { Descriptor.default with
      instructions := [⟨"mark", [], ["a"], [], .default⟩, ⟨"partial", [], ["b"], [], .default⟩,
        ⟨"mark", [], ["c"], [], .default⟩]
      buffers := ⟨1, [("a", ⟨0, 1⟩), ("b", ⟨0, 1⟩), ("c", ⟨0, 1⟩)], by decide⟩ }
    ⟨fun _ => .ok ⟨[("mark", Kernels.mark), ("partial", Kernels.partialWrite)]⟩⟩

/-- What it is compiled to. -/
def crowdedGraph : Compiled where
  weights := ⟨[], [], #[]⟩
  buffers := ⟨["a", "b", "c"], [#[.zero], #[.zero], #[.zero]]⟩
  kernels := ⟨[("mark", Kernels.mark), ("partial", Kernels.partialWrite)]⟩
  program := [⟨some 0, [], [.bound 0], []⟩, ⟨some 1, [], [.bound 1], []⟩,
    ⟨some 0, [], [.bound 2], []⟩]
  inputs := []
  outputs := []

/-- The runner after it was compiled, with an element in the last variable. -/
def crowd : Runner :=
  { crowded with compiled := some (crowdedGraph.refill [#[.zero], #[.zero], #[.ofInt 5]] #[]) }

theorem holds_crowd : crowd.Holds crowdedGraph [#[.zero], #[.zero], #[.ofInt 5]] #[] := by
  have hw : Weights.allocate crowded.descriptor.weights = .ok crowdedGraph.weights :=
    Weights.allocate_empty
  have hb : Variables.allocate crowded.descriptor.buffers = .ok crowdedGraph.buffers := rfl
  refine ⟨?_, rfl, rfl, rfl⟩
  show build crowded.loader crowded.descriptor = .ok crowdedGraph
  rw [build, hw, hb]
  rfl

/-- The run dispatches the first two instructions only, so the last variable keeps its element. -/
theorem run_footprint_crowd :
    crowd.Holds crowdedGraph [#[.zero], #[.zero], #[.ofInt 5]] #[] ∧
      (crowd.run quiet).1 = .error (.custom "partial failure") ∧
      (crowd.run quiet).2.1.elementsOf "b" = .ok [.ofInt 9] ∧
      (crowd.run quiet).2.1.elementsOf "c" = .ok [.ofInt 5] := by
  refine ⟨holds_crowd, rfl, rfl, ?_⟩
  obtain ⟨e, t₀, hstart, hrun, hdispatched⟩ : ∃ e t₀, crowd.start quiet = (.ok e, t₀) ∧
      (crowd.run quiet).2.1 = crowd.absorb (e.after (fun _ => quiet) 2) ∧
      e.dispatchedBefore (fun _ => quiet) 2 = [0, 1] := ⟨_, _, rfl, rfl, rfl⟩
  have hspares := (run_footprint holds_crowd quiet).2 e t₀ hstart (fun _ => quiet) 2
  rw [← hrun, hdispatched] at hspares
  refine hspares.elements "c" ?_
  rintro ⟨index, hindex, i, hi, hnamed⟩
  obtain rfl | rfl : index = 0 ∨ index = 1 := by simpa using hindex
  · obtain rfl := Option.some.inj hi
    exact absurd hnamed (by decide)
  · obtain rfl := Option.some.inj hi
    exact absurd hnamed (by decide)

end Runner

end InferenceEngine
