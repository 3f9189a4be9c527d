import InferenceEngine.Proofs.Linking
import InferenceEngine.Proofs.Step

/-!
# An interpreter of names

`Tables.interpret` is the meaning of a list of instructions without handles, passes or steps: it
looks up what the next instruction names, calls it on the buffers as the earlier ones have left
them, and stops at the first failure. `Runner.drive_eq_interpret` says that a pass that is driven to
its end does the same.

A kernel may look at the thread it is called on, and a run does things there between the calls: it
reads the clock, tells the sink, and logs. To the interpreter this is a `Host`, of which it knows
nothing; `Execution.host` is what a run does. For kernels that leave the thread alone the host makes
no difference (`Tables.interpret_of_blind`).

The simulation is by induction on the instructions that are left. `Runner.drive_turn` brings a pass
to the dispatch of its next instruction, with a notification or without one, and
`Runner.drive_advance` brings it from there to the next one.
-/

namespace InferenceEngine

/-! ## The interpreter -/

/-- What happens on the thread around the calls of a run, with what is kept in mind from one
instruction to the next. -/
structure Host (σ : Type) where
  /-- what happens before an instruction is called -/
  before : σ → Nat → Instruction → Thread → σ × Thread
  /-- what happens after a call that has succeeded -/
  after : Thread → Thread

namespace Tables

/-- Runs instructions, the first of which has the given index, on the buffers of the variables. -/
def interpret {σ : Type} (tb : Tables) (host : Host σ) :
    σ → Nat → List Instruction → Bank → Thread → Outcome Unit × Bank
  | _, _, [], b, _ => (.ok (), b)
  | s, index, i :: rest, b, t =>
    match tb.call index i with
    | .error f => (.error f, b)
    | .ok call =>
      match Execution.invoke call b (host.before s index i t).2 with
      | (.ok (), b, t') =>
        tb.interpret host (host.before s index i t).1 (index + 1) rest b (host.after t')
      | (.error f, b, _) => (.error f, b)
      | (.panic p, b, _) => (.panic p, b)

/-- The elements of the variable of a name. -/
def elements (tb : Tables) (b : Bank) (name : String) : Outcome (List Single) :=
  match tb.buffer? name with
  | none => .error (.unresolvedReference .buffer name none)
  | some v => .ok (v.elements b)

end Tables

/-! ## Kernels that leave the thread alone -/

namespace Routine

variable {α : Type}

/-- The routine neither looks at the thread nor changes it. -/
def Blind : Routine α → Prop
  | done _ | fail _ | panic _ => True
  | read _ _ k => ∀ x, (k x).Blind
  | write _ _ _ k | note _ k => k.Blind
  | look _ | become _ _ => False

/-- What a blind routine comes to, and what it does to the bank, does not depend on the thread. The
induction is over the routine, which is the tree of all that it may do. -/
theorem run_of_blind (args : Args) {r : Routine α} (h : r.Blind) (b : Bank) (t t' : Thread) :
    (r.run args b t).1 = (r.run args b t').1 ∧ (r.run args b t).2.1 = (r.run args b t').2.1 := by
  induction r generalizing b t t' with
  | done x => exact ⟨rfl, rfl⟩
  | fail e => exact ⟨rfl, rfl⟩
  | panic p => exact ⟨rfl, rfl⟩
  | read pin i k ih =>
    simp only [run]
    rcases pin.view? args with _ | v
    · exact ⟨rfl, rfl⟩
    · dsimp only
      rcases b.get? v.cell i with _ | x
      · exact ⟨rfl, rfl⟩
      · exact ih x (h x) b t t'
  | write pin i x k ih =>
    simp only [run]
    rcases pin.view? args with _ | v
    · exact ⟨rfl, rfl⟩
    · dsimp only
      by_cases hi : i < b.size v.cell
      · rw [if_pos hi, if_pos hi]
        exact ih h _ t t'
      · rw [if_neg hi, if_neg hi]
        exact ⟨rfl, rfl⟩
  | note n k ih => exact ih h b _ _
  -- a blind routine does neither of these
  | look k ih => exact h.elim
  | become s k ih => exact h.elim

/-- No routine changes the length of a buffer. -/
theorem shape_run (args : Args) (r : Routine α) (b : Bank) (t : Thread) :
    (r.run args b t).2.1.shape = b.shape := by
  induction r generalizing b t with
  | done x => rfl
  | fail e => rfl
  | panic p => rfl
  | read pin i k ih =>
    simp only [run]
    rcases pin.view? args with _ | v
    · rfl
    · dsimp only
      rcases b.get? v.cell i with _ | x
      · rfl
      · exact ih x b t
  | write pin i x k ih =>
    simp only [run]
    rcases pin.view? args with _ | v
    · rfl
    · dsimp only
      by_cases hi : i < b.size v.cell
      · rw [if_pos hi, ih]
        exact Bank.shape_put b v.cell i x
      · rw [if_neg hi]
  | note n k ih => exact ih b _
  | look k ih => exact ih t b t
  | become s k ih => exact ih b s

end Routine

namespace Tables

variable {σ τ : Type} {tb : Tables}

/-- A run of the interpreter changes no length. -/
theorem shape_interpret (tb : Tables) (host : Host σ) (s : σ) (index : Nat) (is : List Instruction)
    (b : Bank) (t : Thread) : (tb.interpret host s index is b t).2.shape = b.shape := by
  induction is generalizing s index b t with
  | nil => rfl
  | cons i rest ih =>
    rw [interpret]
    rcases tb.call index i with f | call
    · rfl
    · have hshape := Routine.shape_run call.args (call.kernel call.args) b
        (host.before s index i t).2
      rw [← Execution.invoke] at hshape
      dsimp only
      rcases hinvoke : Execution.invoke call b (host.before s index i t).2 with ⟨_ | f | p, b', t'⟩
      all_goals rw [hinvoke] at hshape
      · exact (ih _ _ _ _).trans hshape
      · exact hshape
      · exact hshape

/-- Kernels that leave the thread alone do the same under every host. -/
theorem interpret_of_blind (hblind : ∀ name k, tb.kernel? name = some k → ∀ args, (k args).Blind)
    (host : Host σ) (host' : Host τ) (s : σ) (s' : τ) (index : Nat) (is : List Instruction)
    (b : Bank) (t t' : Thread) :
    tb.interpret host s index is b t = tb.interpret host' s' index is b t' := by
  induction is generalizing s s' index b t t' with
  | nil => rfl
  | cons i rest ih =>
    rw [interpret, interpret]
    rcases hcall : tb.call index i with f | call
    · rfl
    · obtain ⟨-, -, -, hkernel⟩ := call_eq_ok hcall
      obtain ⟨ho, hb⟩ := Routine.run_of_blind call.args (hblind _ _ hkernel call.args) b
          (host.before s index i t).2 (host'.before s' index i t').2
      rw [← Execution.invoke, ← Execution.invoke] at ho hb
      rcases h : Execution.invoke call b (host.before s index i t).2 with ⟨o, c, u⟩
      rcases h' : Execution.invoke call b (host'.before s' index i t').2 with ⟨o', c', u'⟩
      rw [h, h'] at ho hb
      -- the calls end alike and leave the same bank, so the rest is run from the same one
      obtain rfl : o = o' := ho
      obtain rfl : c = c' := hb
      dsimp only
      rw [h, h']
      rcases o with _ | f | p
      · exact ih _ _ _ _ _ _
      · rfl
      · rfl

end Tables

/-! ## What a run does on its thread -/

namespace Execution

variable {e e' : Execution} {t : Thread} {tb : Tables} {index since : Nat}

/-- What a run does on the thread around its calls. Before an instruction it tells the sink if the
interval has passed since the last notification, whose reading of the clock it keeps in mind. -/
def host (e : Execution) (sink : ProgressSink) : Host Nat where
  before since index i t :=
    if e.interval ≤ reading t - since then
      let told := t.now.2.writeAll
        (sink.entries ⟨index, e.total, Progress.millis (reading t - e.started), false⟩)
      (reading t, e.callThread index i (told.focus (some index)))
    else (since, e.callThread index i (t.now.2.focus (some index)))
  after t := (e.mark t).focus none

/-- What surrounds a call, from the notification before it to the clearing of the label behind it,
is the same for every state of a pass. -/
theorem SamePass.host (h : e.SamePass e') (sink : ProgressSink) : e'.host sink = e.host sink := by
  simp only [Execution.host, callThread, mark, h.interval, h.total, h.started, h.timed]

/-! ## Dispatching -/

/-- An instruction that cannot be prepared is refused, and nothing changes but the thread. -/
theorem advance_of_error {f : Failure} (hpos : e.position = index)
    (h : e.prepare index = .error f) : ∃ t', e.advance t = (.error f, e, t') := by
  rw [advance, dispatch, hpos, h]
  exact ⟨_, rfl⟩

/-- A call is made on the thread that is made ready for it, and what becomes of the call becomes of
the step. -/
theorem advance_of_call {i : Instruction} {call : Call} {o : Outcome Unit} {b : Bank} {t' : Thread}
    (hpos : e.position = index) (h : e.prepare index = .ok (i, call))
    (hinvoke : invoke call e.bank (e.callThread index i (t.focus (some index))) = (o, b, t')) :
    (o = .ok () ∧ ∃ trace, e.advance t =
      (.ok .executed, { e.put b trace with position := e.position + 1 }, (e.mark t').focus none)) ∨
    ∃ t'', (∃ f, o = .error f ∧ e.advance t = (.error f, e.put b e.trace, t'')) ∨
      ∃ p, o = .panic p ∧ e.advance t = (.panic p, e.put b e.trace, t'') := by
  rw [advance, dispatch, hpos, h]
  dsimp only
  rw [execute_eq, hinvoke]
  rcases o with _ | f | p
  · exact .inl ⟨rfl, _, rfl⟩
  · exact .inr ⟨_, .inl ⟨f, rfl, rfl⟩⟩
  · exact .inr ⟨_, .inr ⟨p, rfl, rfl⟩⟩

/-- The pass runs linked instructions, and their references are those of the tables. -/
structure Runs (e : Execution) (tb : Tables) : Prop where
  /-- the references -/
  serves : e.compiled.Serves tb
  /-- the program is linked -/
  linked : e.compiled.program = Program.link (Runner.symbols e.compiled) e.instructions

namespace Runs

theorem total (h : e.Runs tb) : e.total = e.instructions.length := by
  rw [Execution.total, h.linked, Program.link, List.length_map]

/-- What a linked instruction is prepared to is what its names stand for in the tables. -/
theorem prepare (h : e.Runs tb) {i : Instruction} (hi : e.instructions[index]? = some i) :
    e.prepare index = (Outcome.ofExcept (tb.call index i)).map (i, ·) := by
  have hs : e.compiled.program[index]? =
      some (Program.linkStep (Runner.symbols e.compiled) i) := by
    rw [h.linked, Program.link, List.getElem?_map, hi]
    rfl
  rw [Execution.prepare, fetch, hs, hi]
  dsimp only
  rw [Outcome.ok_bind]
  dsimp only
  rw [resolve_linkStep h.serves]
  rcases tb.call index i with f | call <;> rfl

/-- An instruction that is looked up is the one of its index, and what it calls is what its names
stand for. -/
theorem call_of_prepare (h : e.Runs tb) {i : Instruction} {call : Call}
    (hprep : e.prepare index = .ok (i, call)) :
    e.instructions[index]? = some i ∧ tb.call index i = .ok call := by
  cases hi : e.instructions[index]? with
  | none =>
    have htotal : e.compiled.program.length = e.instructions.length := h.total
    have hs : e.compiled.program[index]? = none := by
      rw [List.getElem?_eq_none_iff] at hi ⊢
      exact Nat.le_trans (Nat.le_of_eq htotal) hi
    simp [Execution.prepare, Execution.fetch, hs] at hprep
  | some i' =>
    rw [h.prepare hi] at hprep
    rcases hcall : tb.call index i' with f | call'
    · rw [hcall] at hprep
      cases hprep
    · rw [hcall] at hprep
      obtain ⟨rfl, rfl⟩ := Prod.mk.inj (Outcome.ok.inj hprep)
      exact ⟨rfl, hcall⟩

/-- A pass keeps running over the same tables, whatever its buffers hold, as long as their lengths
stay. -/
theorem of_samePass (h : e.Runs tb) (hsame : e.SamePass e')
    (hshape : e'.bank.shape = e.bank.shape) : e'.Runs tb := by
  have hserves := h.serves
  refine ⟨?_, ?_⟩
  · rw [hsame.compiled]
    exact ⟨hserves.kernels, hserves.names, hshape.trans hserves.shape, hserves.weightNames,
      hserves.windows, hserves.data, hserves.fits⟩
  · rw [hsame.compiled, hsame.instructions]
    exact h.linked

end Runs

end Execution

/-! ## Driving -/

namespace Runner

open Execution

variable {sink : ProgressSink} {e e' : Execution} {t t' : Thread} {budget : Nat} {tb : Tables}

/-- After an instruction the pass goes on, -/
theorem drive_of_executed (h : e.step t = (.ok .executed, e', t')) :
    drive sink (budget + 1) e t = drive sink budget e' t' := by
  rw [drive, h]

/-- and after a notification too, of which the sink is told. -/
theorem drive_of_yielded {p : Progress} (h : e.step t = (.ok (.yielded p), e', t')) :
    drive sink (budget + 1) e t = drive sink budget e' (t'.writeAll (sink.entries p)) := by
  rw [drive, h]

/-- The last notification ends the pass well. -/
theorem drive_of_finished {p : Progress} (h : e.step t = (.ok (.finished p), e', t')) :
    drive sink (budget + 1) e t = (.ok (), e', t'.writeAll (sink.entries p)) := by
  rw [drive, h]

/-- A failure ends it, and so does a panic. -/
theorem drive_of_error {f : Failure} (h : e.step t = (.error f, e', t')) :
    drive sink (budget + 1) e t = (.error f, e', t') := by
  rw [drive, h]

theorem drive_of_panic {p : Panic} (h : e.step t = (.panic p, e', t')) :
    drive sink (budget + 1) e t = (.panic p, e', t') := by
  rw [drive, h]

/-- Wherever a pass is driven to, it is still the same pass. -/
theorem samePass_drive (sink : ProgressSink) (budget : Nat) (e : Execution) (t : Thread) :
    e.SamePass (drive sink budget e t).2.1 := by
  induction budget generalizing e t with
  | zero => exact SamePass.refl e
  | succ budget ih =>
    have hstep := samePass_step e t
    rcases hs : e.step t with ⟨⟨_ | p | p⟩ | f | p, e', t'⟩
    all_goals rw [hs] at hstep
    · rw [drive_of_executed hs]
      exact hstep.trans (ih e' t')
    · rw [drive_of_yielded hs]
      exact hstep.trans (ih e' _)
    · rw [drive_of_finished hs]
      exact hstep
    · rw [drive_of_error hs]
      exact hstep
    · rw [drive_of_panic hs]
      exact hstep

/-- With or without a notification, a pass that is driven comes to dispatch its next instruction,
on a thread on which the host has done its part. -/
theorem drive_turn (sink : ProgressSink) {index since : Nat} (hp : e.Poised index since false)
    (hindex : index < e.total) (i : Instruction) (budget : Nat) (t : Thread) :
    ∃ e' t₁ t₂ since' told left, budget ≤ left ∧
      drive sink (budget + 2) e t = drive sink (left + 1) e' t₁ ∧ e'.step t₁ = e'.advance t₂ ∧
      (e'.host sink).before since index i t =
        (since', e'.callThread index i (t₂.focus (some index))) ∧
      e.SamePass e' ∧ e'.bank = e.bank ∧ e'.Poised index since' told := by
  have hend : e.position ≠ e.total := by
    rw [hp.position]
    exact Nat.ne_of_lt hindex
  by_cases hdue : e.interval ≤ reading t - since
  · -- a notification, after which none is due
    have hstep := step_of_due hp.unfinished hend (hp.due_iff.mpr ⟨rfl, hdue⟩)
    have hp' := hp.notified t
    -- the sink may have written anything in between
    have hnext (u : Thread) : (e.notified t).step u = (e.notified t).advance u := by
      have hquiet : ¬ (e.notified t).Due u := fun h => h.1 rfl
      rw [step_of_not_due hp'.unfinished hend hquiet, poll_thread]
      exact congrArg _ (if_pos rfl)
    refine ⟨e.notified t, _, _, reading t, true, budget, Nat.le_refl _, drive_of_yielded hstep,
      hnext _, ?_, samePass_notified e t, rfl, hp'⟩
    rw [(samePass_notified e t).host]
    simp only [Execution.host, if_pos hdue, notice, hp.position]
    rfl
  · have hstep := step_of_not_due hp.unfinished hend fun h => hdue (hp.due_iff.mp h).2
    have hquiet : e.reportedAt ≠ some e.position := by
      rw [hp.position]
      exact fun h => nomatch hp.reportedAt.mp h
    rw [poll_thread, if_neg hquiet] at hstep
    refine ⟨e, t, t.now.2, since, false, budget + 1, Nat.le_succ _, rfl, hstep, ?_,
      SamePass.refl e, rfl, hp⟩
    simp only [Execution.host, if_neg hdue]

/-- From where an instruction is dispatched, the pass ends as the interpreter does if it does from
where the next one is reached. -/
theorem drive_advance {index since since₀ left : Nat} {told : Bool} {i : Instruction}
    {rest : List Instruction} {t₀ t₁ t₂ : Thread} (hp : e.Poised index since told)
    (hruns : e.Runs tb) (hindex : index < e.total) (hi : e.instructions[index]? = some i)
    (hstep : e.step t₁ = e.advance t₂)
    (hbefore : (e.host sink).before since₀ index i t₀ =
      (since, e.callThread index i (t₂.focus (some index))))
    (hnext : ∀ e' t', e.SamePass e' → e'.Runs tb → e'.Poised (index + 1) since false →
      ((drive sink left e' t').1, (drive sink left e' t').2.1.bank) =
        tb.interpret (e.host sink) since (index + 1) rest e'.bank t') :
    ((drive sink (left + 1) e t₁).1, (drive sink (left + 1) e t₁).2.1.bank) =
      tb.interpret (e.host sink) since₀ index (i :: rest) e.bank t₀ := by
  have hprep := hruns.prepare hi
  rw [Tables.interpret, hbefore]
  rcases hcall : tb.call index i with f | call
  · -- a name is unknown
    rw [hcall] at hprep
    obtain ⟨t', hadvance⟩ := advance_of_error (t := t₂) hp.position hprep
    rw [hadvance] at hstep
    rw [drive_of_error hstep]
  · rw [hcall] at hprep
    rcases hinvoke : invoke call e.bank (e.callThread index i (t₂.focus (some index))) with
      ⟨o, b, t'⟩
    -- the tables stay good, since no call changes the length of a variable
    have hshape : b.shape = e.bank.shape := by
      have hrun := Routine.shape_run call.args (call.kernel call.args) e.bank
        (e.callThread index i (t₂.focus (some index)))
      rw [← invoke, hinvoke] at hrun
      exact hrun
    dsimp only
    rw [hinvoke]
    rcases advance_of_call hp.position hprep hinvoke with ⟨rfl, trace, hadvance⟩ |
      ⟨t'', ⟨f, rfl, hadvance⟩ | ⟨p, rfl, hadvance⟩⟩
    · -- the call succeeds
      have hsame : e.SamePass { e.put b trace with position := e.position + 1 } :=
        ⟨rfl, rfl, rfl, rfl, rfl, rfl, rfl⟩
      rw [hadvance] at hstep
      rw [drive_of_executed hstep]
      exact hnext _ _ hsame (hruns.of_samePass hsame hshape) (hp.executed hindex b trace)
    · rw [hadvance] at hstep
      rw [drive_of_error hstep]
      rfl
    · rw [hadvance] at hstep
      rw [drive_of_panic hstep]
      rfl

/-- A pass that is driven from wherever it is ends as the interpreter does on the instructions that
are left, and leaves the same in the variables. -/
theorem drive_eq_interpret (sink : ProgressSink) {index since : Nat}
    (hp : e.Poised index since false) (hruns : e.Runs tb)
    (hbudget : 2 * (e.total - index) + 1 ≤ budget) (t : Thread) :
    ((drive sink budget e t).1, (drive sink budget e t).2.1.bank) =
      tb.interpret (e.host sink) since index (e.instructions.drop index) e.bank t := by
  -- by induction on the number of instructions that are left
  induction hn : e.total - index generalizing e index since budget t with
  | zero =>
    have hle := hp.le_total
    obtain rfl : index = e.total := by omega
    obtain ⟨left, rfl⟩ : ∃ left, budget = left + 1 := ⟨budget - 1, by omega⟩
    rw [drive_of_finished (step_of_end hp.unfinished hp.position), hruns.total, List.drop_length,
      Tables.interpret]
  | succ n ih =>
    have hindex : index < e.total := by omega
    obtain ⟨spare, rfl⟩ : ∃ spare, budget = spare + 2 := ⟨budget - 2, by omega⟩
    obtain ⟨i, hi, hdrop⟩ : ∃ i, e.instructions[index]? = some i ∧
        e.instructions.drop index = i :: e.instructions.drop (index + 1) := by
      have hlt : index < e.instructions.length := by rwa [← hruns.total]
      exact ⟨_, List.getElem?_eq_getElem hlt, List.drop_eq_getElem_cons hlt⟩
    -- one or two steps bring the pass to where the instruction is dispatched
    obtain ⟨e', t₁, t₂, since', told, left, hleft, hdrive, hstep, hbefore, hsame, hbank, hp'⟩ :=
      drive_turn sink hp hindex i spare t
    have hruns' : e'.Runs tb := hruns.of_samePass hsame (congrArg Bank.shape hbank)
    have htotal := hsame.total
    rw [hdrop, hdrive, ← hsame.host, ← hbank]
    refine drive_advance hp' hruns' (by omega) (by rw [hsame.instructions, hi]) hstep hbefore ?_
    intro e'' t'' hsame'' hruns'' hp''
    have htotal'' := hsame''.total
    rw [← hsame''.host, ← hsame.instructions, ← hsame''.instructions]
    exact ih hp'' hruns'' (by omega) t'' (by omega)

end Runner

end InferenceEngine
