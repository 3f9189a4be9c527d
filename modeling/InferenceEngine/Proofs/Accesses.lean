import InferenceEngine.Proofs.Calls
import InferenceEngine.Proofs.Pass

/-!
# Accesses to variables

What a routine, a step or a run does to variables is a list of `Access`es, each with the name of the
variable, the place and the value. The names are those of the views that were used, so the lists do
not tell through which view an element was reached, and `lastWritten` is what an element holds if
views of one name share their elements and views of different names share none.

`Faithful` says that they do: every read has got what was written last, and whatever a bank holds was
written last. It is kept by a single access (`Faithful.read`, `Faithful.write`), and from there by
routines, steps and runs, each by induction over what it does.
-/

namespace InferenceEngine

/-- An access to an element of a variable. -/
inductive Access
  /-- the value was read -/
  | read (name : String) (index : Nat) (x : Single)
  /-- the value was written -/
  | write (name : String) (index : Nat) (x : Single)

namespace Access

/-- What an access leaves in an element that has held `x`. -/
def leaves (name : String) (index : Nat) (x : Single) : Access → Single
  | read _ _ _ => x
  | write name' index' y => if name' = name ∧ index' = index then y else x

/-- The reads of the elements from `index` on, one after the other. -/
def reads (name : String) : Nat → List Single → List Access
  | _, [] => []
  | index, x :: xs => read name index x :: reads name (index + 1) xs

/-- The writes of the elements from `index` on, one after the other. -/
def writes (name : String) : Nat → List Single → List Access
  | _, [] => []
  | index, x :: xs => write name index x :: writes name (index + 1) xs

end Access

/-! ## What was written last -/

/-- What was written last to an element, or zero. -/
def lastWritten (log : List Access) (name : String) (index : Nat) : Single :=
  log.foldl (fun x a => a.leaves name index x) .zero

/-- What was written last to the first `size` elements of a variable. -/
def contents (log : List Access) (name : String) (size : Nat) : List Single :=
  (List.range size).map (lastWritten log name)

/-- Every read has got what was written last. -/
def Coherent (log : List Access) : Prop :=
  ∀ before name index x after, log = before ++ .read name index x :: after →
    x = lastWritten before name index

variable {log : List Access} {name : String} {index : Nat} {x : Single}

/-- One more access is a write of the element, or leaves what was written last. -/
theorem lastWritten_concat (log : List Access) (a : Access) (name : String) (index : Nat) :
    lastWritten (log ++ [a]) name index = a.leaves name index (lastWritten log name index) := by
  rw [lastWritten, List.foldl_append, ← lastWritten]
  rfl

/-- Accesses that do not write an element leave it as it is. -/
theorem lastWritten_append_of_not_written {log' : List Access}
    (h : ∀ x, .write name index x ∉ log') :
    lastWritten (log ++ log') name index = lastWritten log name index := by
  induction log' generalizing log with
  | nil => rw [List.append_nil]
  | cons a rest ih =>
    have hhead : a.leaves name index (lastWritten log name index) = lastWritten log name index := by
      cases a with
      | read _ _ _ => rfl
      | write name' index' y =>
        refine if_neg ?_
        rintro ⟨rfl, rfl⟩
        exact h y List.mem_cons_self
    rw [List.append_cons, ih fun x hx => h x (List.mem_cons_of_mem _ hx), lastWritten_concat, hhead]

theorem coherent_nil : Coherent [] := by
  intro before name index x after h
  simp at h

/-- A further access keeps a log coherent, if it does not read what was not written last. -/
theorem Coherent.concat (h : Coherent log) {a : Access}
    (ha : ∀ name index x, a = .read name index x → x = lastWritten log name index) :
    Coherent (log ++ [a]) := by
  intro before name index x after hsplit
  rcases List.eq_nil_or_concat after with rfl | ⟨after', b, rfl⟩
  · obtain ⟨rfl, hread⟩ := List.append_inj' hsplit rfl
    exact ha name index x (List.singleton_inj.mp hread)
  · rw [List.concat_eq_append, ← List.cons_append, ← List.append_assoc] at hsplit
    exact h before name index x after' (List.append_inj' hsplit rfl).1

/-! ## Banks that hold what was written last -/

theorem Bank.lt_size_of_get? {b : Bank} {cell : Nat} (h : b.get? cell index = some x) :
    index < b.size cell := by
  obtain ⟨buffer, hbuffer, hx⟩ := Option.bind_eq_some_iff.mp h
  rw [Bank.size, hbuffer]
  exact (Array.getElem?_eq_some_iff.mp hx).1

/-- The view is one of the variable with its name. -/
def View.Names (names : List String) (v : View) : Prop := names[v.cell]? = some v.name

/-- All views of a call are views of variables. -/
def Args.Names (names : List String) (args : Args) : Prop :=
  ∀ v ∈ args.inputs ++ args.outputs, v.Names names

/-- After these accesses a bank of variables holds what was written last, and so it was whenever an
element was read. -/
structure Faithful (names : List String) (b : Bank) (log : List Access) : Prop where
  /-- no two variables have the same name, or two buffers would have to agree -/
  distinct : names.Nodup
  /-- the reads have got what was written last -/
  coherent : Coherent log
  /-- an element holds what was written last -/
  holds : ∀ cell name, names[cell]? = some name → ∀ index, index < b.size cell →
    b.get? cell index = some (lastWritten log name index)

namespace Faithful

variable {names : List String} {b : Bank} {v : View} {t : Thread} {α : Type}

/-- **What a read preserves.** -/
theorem read (h : Faithful names b log) (hv : v.Names names) (hx : b.get? v.cell index = some x) :
    Faithful names b (log ++ [.read v.name index x]) where
  distinct := h.distinct
  coherent := by
    refine h.coherent.concat fun name' index' x' ha => ?_
    obtain ⟨rfl, rfl, rfl⟩ := Access.read.inj ha
    have hlast := h.holds _ _ hv index (Bank.lt_size_of_get? hx)
    exact Option.some.inj (hx.symm.trans hlast)
  holds cell name hname index' hindex := by
    rw [lastWritten_concat]
    exact h.holds cell name hname index' hindex

/-- **What a write preserves.** -/
theorem write (h : Faithful names b log) (hv : v.Names names) (hindex : index < b.size v.cell)
    (x : Single) :
    Faithful names (b.put v.cell index x) (log ++ [.write v.name index x]) where
  distinct := h.distinct
  coherent := h.coherent.concat nofun
  holds cell name hname index' hindex' := by
    rw [Bank.size_put] at hindex'
    rw [lastWritten_concat, Access.leaves]
    by_cases hsame : v.name = name ∧ index = index'
    · obtain ⟨rfl, rfl⟩ := hsame
      obtain rfl : v.cell = cell :=
        (List.getElem?_inj (List.getElem?_eq_some_iff.mp hv).1 h.distinct).mp (hv.trans hname.symm)
      rw [if_pos ⟨rfl, rfl⟩, Bank.get?_put_self b x hindex]
    · have hother : v.cell ≠ cell ∨ index ≠ index' := by
        rw [← not_and_or]
        rintro ⟨rfl, rfl⟩
        exact hsame ⟨Option.some.inj (hv.symm.trans hname), rfl⟩
      rw [if_neg hsame, Bank.get?_put_other b x hother]
      exact h.holds cell name hname index' hindex'

/-- Reading the elements one after the other. -/
theorem readAll (h : Faithful names b log) (hv : v.Names names) {xs : List Single}
    (hxs : ∀ k x, xs[k]? = some x → b.get? v.cell (index + k) = some x) :
    Faithful names b (log ++ Access.reads v.name index xs) := by
  induction xs generalizing log index with
  | nil =>
    rw [Access.reads, List.append_nil]
    exact h
  | cons x xs ih =>
    rw [Access.reads, List.append_cons]
    refine ih (h.read hv (hxs 0 x rfl)) fun k y hy => ?_
    have hsucc := hxs (k + 1) y hy
    rwa [Nat.add_comm k, ← Nat.add_assoc] at hsucc

/-- Writing the elements one after the other. -/
theorem writeAll (h : Faithful names b log) (hv : v.Names names) {xs : List Single}
    (hfit : index + xs.length ≤ b.size v.cell) :
    Faithful names (b.putAll v.cell index xs) (log ++ Access.writes v.name index xs) := by
  induction xs generalizing b log index with
  | nil =>
    rw [Access.writes, List.append_nil]
    exact h
  | cons x xs ih =>
    rw [List.length_cons] at hfit
    rw [Access.writes, List.append_cons]
    refine ih (h.write hv (by omega) x) ?_
    rw [Bank.size_put]
    omega

end Faithful

/-! ## Routines -/

/-- The accesses of a routine: those of its reads and writes that succeed, in order. -/
def Routine.accesses {α : Type} (args : Args) : Routine α → Bank → Thread → List Access
  | done _, _, _ | fail _, _, _ | panic _, _, _ => []
  | read pin i k, b, t =>
    match pin.view? args with
    | none => []
    | some v =>
      match b.get? v.cell i with
      | none => []
      | some x => .read v.name i x :: accesses args (k x) b t
  | write pin i x k, b, t =>
    match pin.view? args with
    | none => []
    | some v =>
      if i < b.size v.cell then .write v.name i x :: accesses args k (b.put v.cell i x) t else []
  | note n k, b, t => accesses args k b (t.write (.note n))
  | look k, b, t => accesses args (k t) b t
  | become t k, b, _ => accesses args k b t

theorem Pin.mem_of_view? {args : Args} {p : Pin} {v : View} (h : p.view? args = some v) :
    v ∈ args.inputs ++ args.outputs := by
  have hmem := List.mem_of_getElem? h
  cases p with
  | input i => exact List.mem_append_left _ hmem
  | output i => exact List.mem_append_right _ hmem

/-- **What a routine preserves.** -/
theorem Faithful.run {α : Type} {names : List String} {b : Bank} {args : Args}
    (h : Faithful names b log) (hargs : args.Names names) (r : Routine α) (t : Thread) :
    Faithful names (r.run args b t).2.1 (log ++ r.accesses args b t) := by
  -- the log grows by one access with every step of the routine, so it is generalized with the bank
  induction r generalizing b t log with
  | done _ | fail _ | panic _ =>
    rw [Routine.accesses, List.append_nil]
    exact h
  | read pin i k ih =>
    simp only [Routine.run, Routine.accesses]
    cases hv : pin.view? args with
    | none =>
      rw [List.append_nil]
      exact h
    | some v =>
      dsimp only
      cases hx : b.get? v.cell i with
      | none =>
        rw [List.append_nil]
        exact h
      | some x =>
        rw [List.append_cons]
        exact ih x (h.read (hargs v (Pin.mem_of_view? hv)) hx) t
  | write pin i x k ih =>
    simp only [Routine.run, Routine.accesses]
    cases hv : pin.view? args with
    | none =>
      rw [List.append_nil]
      exact h
    | some v =>
      dsimp only
      by_cases hi : i < b.size v.cell
      · rw [if_pos hi, if_pos hi, List.append_cons]
        exact ih (h.write (hargs v (Pin.mem_of_view? hv)) hi x) t
      · -- a write out of bounds breaks the routine off and leaves no access
        rw [if_neg hi, if_neg hi, List.append_nil]
        exact h
  | note n k ih => exact ih h _
  | look k ih => exact ih t h t
  | become s k ih => exact ih h s

/-! ## Steps and passes -/

/-- Whatever was fetched was fetched by a handle. -/
theorem Slot.fetched_of_mem {α : Type} {role : Role} {index : Nat} {fetch : Nat → Outcome α}
    {slots : List Slot} {xs : List α} (h : fetchAll role index fetch slots = .ok xs) :
    ∀ x ∈ xs, ∃ handle, fetch handle = .ok x := by
  induction slots generalizing xs with
  | nil =>
    obtain rfl := Outcome.ok.inj h
    exact nofun
  | cons s rest ih =>
    obtain ⟨handle, -, h⟩ := Outcome.bind_eq_ok.mp h
    obtain ⟨x, hx, h⟩ := Outcome.bind_eq_ok.mp h
    obtain ⟨ys, hys, h⟩ := Outcome.bind_eq_ok.mp h
    obtain rfl := Outcome.ok.inj h
    intro y hy
    rcases List.mem_cons.mp hy with rfl | hy
    · exact ⟨handle, hx⟩
    · exact ih hys y hy

/-- The view of a handle is the one whose cell is that handle. -/
theorem Variables.view_eq_ok {vars : Variables} {handle : Nat} {v : View} :
    vars.view handle = .ok v ↔ v.cell = handle ∧ v ∈ vars.views := by
  rw [view, views, List.mem_mapIdx]
  constructor
  · intro h
    cases hname : vars.names[handle]? with
    | none =>
      rw [hname] at h
      cases h
    | some name =>
      rw [hname] at h
      obtain rfl := Outcome.ok.inj h
      obtain ⟨hlt, rfl⟩ := List.getElem?_eq_some_iff.mp hname
      exact ⟨rfl, handle, hlt, rfl⟩
  · rintro ⟨rfl, handle, hlt, rfl⟩
    rw [List.getElem?_eq_getElem hlt]

/-- The views of the variables are those that name a variable and have its length. -/
theorem Variables.mem_views {vars : Variables} {v : View} :
    v ∈ vars.views ↔ v.Names vars.names ∧ v.size = vars.bank.size v.cell := by
  rw [views, List.mem_mapIdx, View.Names]
  constructor
  · rintro ⟨handle, hlt, rfl⟩
    exact ⟨List.getElem?_eq_getElem hlt, rfl⟩
  · rintro ⟨hname, hsize⟩
    obtain ⟨hlt, hname⟩ := List.getElem?_eq_some_iff.mp hname
    exact ⟨v.cell, hlt, by rw [hname, ← hsize]⟩

namespace Execution

variable {e : Execution} {i : Instruction} {call : Call} {names : List String}

/-- What an instruction calls is given views of the variables. -/
theorem mem_views_of_prepare {index : Nat} (h : e.prepare index = .ok (i, call)) :
    ∀ v ∈ call.args.inputs ++ call.args.outputs, v ∈ e.compiled.buffers.views := by
  obtain ⟨s, -, -, -, hinputs, houtputs⟩ := prepare_eq_ok h
  intro v hv
  obtain ⟨place, hview⟩ : ∃ place, e.compiled.buffers.view place = .ok v := by
    rcases List.mem_append.mp hv with hv | hv
    · exact Slot.fetched_of_mem hinputs v hv
    · exact Slot.fetched_of_mem houtputs v hv
  exact (Variables.view_eq_ok.mp hview).2

/-- The accesses of a step: those of the kernel that it calls. -/
def accesses (e : Execution) (t : Thread) : List Access :=
  if e.Dispatches t then
    match e.prepare e.position with
    | .ok (i, call) => (call.kernel call.args).accesses call.args e.bank (e.kernelThread i t)
    | _ => []
  else []

/-- The accesses of the first `k` steps of a pass. -/
def accessesBefore (e : Execution) (ts : Nat → Thread) (k : Nat) : List Access :=
  (List.range k).flatMap fun j => (e.after ts j).accesses (ts j)

/-- A step that calls no kernel reads and writes nothing. -/
theorem accesses_of_no_call {t : Thread} (h : e.callAt t = none) : e.accesses t = [] := by
  rw [callAt] at h
  rw [accesses]
  by_cases hd : e.Dispatches t
  · rw [if_pos hd] at h ⊢
    cases hprep : e.prepare e.position with
    | ok p => simp [hprep] at h
    | error f => rfl
    | panic p => rfl
  · rw [if_neg hd]

end Execution

namespace Faithful

open Execution

variable {e : Execution} {names : List String}

/-- **What a step preserves.** -/
theorem step (he : e.compiled.buffers.names = names) (h : Faithful names e.bank log) (t : Thread) :
    Faithful names (e.step t).2.1.bank (log ++ e.accesses t) := by
  cases hcall : e.callAt t with
  | none =>
    rw [(step_of_no_call hcall).1, accesses_of_no_call hcall, List.append_nil]
    exact h
  | some made =>
    obtain ⟨hd, -, i, hprep⟩ := callAt_eq_some.mp hcall
    rw [(step_of_call hd hprep).2, accesses, if_pos hd, hprep]
    refine h.run (fun v hv => ?_) _ _
    rw [← he]
    exact (Variables.mem_views.mp (mem_views_of_prepare hprep v hv)).1

/-- **What a pass preserves.** -/
theorem after (he : e.compiled.buffers.names = names) (h : Faithful names e.bank log)
    (ts : Nat → Thread) (k : Nat) :
    Faithful names (e.after ts k).bank (log ++ e.accessesBefore ts k) := by
  induction k with
  | zero =>
    rw [accessesBefore, List.range_zero, List.flatMap_nil, List.append_nil]
    exact h
  | succ k ih =>
    have hsame : (e.after ts k).compiled.buffers.names = names := by
      rw [(samePass_after e ts k).compiled]
      exact he
    rw [accessesBefore, List.range_succ, List.flatMap_append, List.flatMap_singleton,
      ← accessesBefore, ← List.append_assoc]
    exact step hsame ih (ts k)

end Faithful

/-! ## Runs -/

namespace Runner

/-- The accesses of a pass that is driven to its end. -/
def driveAccesses (sink : ProgressSink) : Nat → Execution → Thread → List Access
  | 0, _, _ => []
  | budget + 1, e, t =>
    e.accesses t ++
      match e.step t with
      | (.ok .executed, e, t) => driveAccesses sink budget e t
      | (.ok (.yielded p), e, t) => driveAccesses sink budget e (t.writeAll (sink.entries p))
      | _ => []

end Runner

/-- **What a run preserves.** -/
theorem Faithful.drive {e : Execution} {names : List String}
    (he : e.compiled.buffers.names = names) (h : Faithful names e.bank log) (sink : ProgressSink)
    (budget : Nat) (t : Thread) :
    Faithful names (Runner.drive sink budget e t).2.1.bank
      (log ++ Runner.driveAccesses sink budget e t) := by
  induction budget generalizing e t log with
  | zero =>
    rw [Runner.driveAccesses, List.append_nil]
    exact h
  | succ budget ih =>
    have hstep := step he h t
    -- a step stays in its pass, so the names are those it began with
    have hsame : (e.step t).2.1.compiled.buffers.names = names := by
      rw [(Execution.samePass_step e t).compiled]
      exact he
    rw [Runner.drive, Runner.driveAccesses, ← List.append_assoc]
    rcases hs : e.step t with ⟨⟨_ | p | p⟩ | f | p, e', t'⟩
    all_goals rw [hs] at hstep hsame
    · exact ih hsame hstep t'
    · exact ih hsame hstep _
    · rw [List.append_nil]
      exact hstep
    · rw [List.append_nil]
      exact hstep
    · rw [List.append_nil]
      exact hstep

end InferenceEngine
