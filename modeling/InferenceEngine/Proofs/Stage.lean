import InferenceEngine.Proofs.Labels
import InferenceEngine.Runner

/-!
# Passes that share a thread

Several passes may be under way on one thread at the same time: a host begins them, steps them in
turns, and drops them in any order. They share the context of the thread. A pass that begins takes
it over, a pass that is dropped puts back what it found when it began, and no step looks whose
context it is.

A `Stage` is a thread with the passes that have begun on it, and it keeps a book: its *holder* is
the pass whose run is the active one. `Stage.move_cases` says what a move of the host does, and
`Stage.Sound` that the book is right, after any history (`Stage.Sound.play`).
-/

namespace InferenceEngine

/-! ## Histories -/

/-- A pass on a thread that others use as well. -/
structure Actor where
  /-- the pass -/
  pass : Execution
  /-- it has been dropped -/
  gone : Bool
  /-- who held the label when it began -/
  before : Option Nat

/-- A thread, and the passes that have begun on it. -/
structure Stage where
  /-- the thread -/
  thread : Thread
  /-- the passes in the order in which they began -/
  actors : List Actor
  /-- the place of the pass whose run is the active one, or none if it is the run from before -/
  holder : Option Nat

/-- What a host does. -/
inductive Move
  /-- begins a pass of a runner -/
  | begin (r : Runner)
  /-- takes a step of the pass of a place -/
  | step (place : Nat)
  /-- drops the pass of a place -/
  | drop (place : Nat)
  /-- writes something itself -/
  | write (entries : List Entry)

namespace Stage

/-- A thread on which no pass has begun. -/
def empty (t : Thread) : Stage := ⟨t, [], none⟩

/-- The pass of a place, unless it has been dropped. -/
def live? (s : Stage) (place : Nat) : Option Actor :=
  (s.actors[place]?).filter fun a => !a.gone

/-- A pass has begun, and holds the label. -/
def begun (s : Stage) (e : Execution) (t : Thread) : Stage :=
  ⟨t, s.actors ++ [⟨e, false, s.holder⟩], some s.actors.length⟩

/-- The pass of a place has taken a step. -/
def stepped (s : Stage) (place : Nat) (a : Actor) : Stage :=
  ⟨(a.pass.step s.thread).2.2, s.actors.set place { a with pass := (a.pass.step s.thread).2.1 },
    s.holder⟩

/-- The pass of a place has been dropped, and who held the label before holds it again. -/
def dropped (s : Stage) (place : Nat) (a : Actor) : Stage :=
  ⟨a.pass.close s.thread, s.actors.set place { a with gone := true }, a.before⟩

/-- The stage after a move. -/
def move (s : Stage) : Move → Stage
  | .begin r =>
    match r.start s.thread with
    | (.error _, t) => { s with thread := t }
    | (.ok e, t) => s.begun e t
  | .step place =>
    match s.live? place with
    | none => s
    | some a => s.stepped place a
  | .drop place =>
    match s.live? place with
    | none => s
    | some a => s.dropped place a
  | .write entries => { s with thread := s.thread.writeAll entries }

/-- The stage after a history. -/
def play (s : Stage) (ms : List Move) : Stage := ms.foldl move s

/-- A property holds at every move of a history. -/
def Along (P : Stage → Move → Prop) : Stage → List Move → Prop
  | _, [] => True
  | s, m :: ms => P s m ∧ Along P (s.move m) ms

/-- The move dispatches an instruction of this pass of the stage. -/
def Dispatches (s : Stage) (m : Move) (place : Nat) (e : Execution) : Prop :=
  m = .step place ∧ (∃ a, s.live? place = some a ∧ a.pass = e) ∧ e.Dispatches s.thread

/-- Whichever instruction is dispatched, its kernel reads its number and the run of its pass. -/
def Right (s : Stage) (m : Move) : Prop :=
  ∀ place e i, s.Dispatches m place e →
    (e.callThread e.position i (e.dispatchThread s.thread)).label =
      some (Context.label ⟨e.run, some e.position⟩)

/-- Only the holder dispatches. -/
def Held (s : Stage) (m : Move) : Prop := ∀ place e, s.Dispatches m place e → s.holder = some place

/-- Only the youngest pass that is there takes steps or is dropped. -/
def Youngest (s : Stage) (m : Move) : Prop :=
  ∀ place, m = .step place ∨ m = .drop place → ∀ other, (s.live? place).isSome →
    (s.live? other).isSome → other ≤ place

end Stage

/-! ## What a move does -/

namespace Runner

/-- The kernels of the runner keep the context. -/
def Steady (r : Runner) : Prop := ∀ c, r.compiled = some c → c.kernels.Steady

/-- A pass that begins notes the context that it finds, and its run becomes the active one. -/
theorem context_start {r : Runner} {e : Execution} {t t' : Thread} (h : r.start t = (.ok e, t')) :
    r.compiled = some e.compiled ∧ e.outer = t.context ∧ t'.context = some ⟨e.run, none⟩ := by
  rw [start] at h
  rcases hc : r.compiled with _ | c
  · rw [hc] at h
    cases h
  · rw [hc] at h
    obtain ⟨he, rfl⟩ := Prod.mk.inj h
    obtain rfl := Except.ok.inj he
    refine ⟨rfl, ?_, rfl⟩
    show Thread.context (if _ then _ else _) = t.context
    split
    · exact Thread.context_emit t _ _
    · rfl

/-- A pass that cannot begin leaves the context as it is. -/
theorem context_start_error {r : Runner} {f : Failure} {t t' : Thread}
    (h : r.start t = (.error f, t')) : t'.context = t.context := by
  rw [start] at h
  rcases hc : r.compiled with _ | c
  · rw [hc] at h
    obtain ⟨-, rfl⟩ := Prod.mk.inj h
    rfl
  · rw [hc] at h
    cases h

end Runner

namespace Stage

/-- A pass is there if it has begun and has not been dropped. -/
theorem live?_eq_some {s : Stage} {place : Nat} {a : Actor} :
    s.live? place = some a ↔ s.actors[place]? = some a ∧ a.gone = false := by
  rw [live?, Option.filter_eq_some_iff]
  simp

/-- What a move does: a pass begins, takes a step, or is dropped; or else nothing happens to passes
and to the context. -/
theorem move_cases (s : Stage) (m : Move) :
    (∃ r e t, m = .begin r ∧ r.start s.thread = (.ok e, t) ∧ s.move m = s.begun e t) ∨
    (∃ place a, m = .step place ∧ s.live? place = some a ∧ s.move m = s.stepped place a) ∨
    (∃ place a, m = .drop place ∧ s.live? place = some a ∧ s.move m = s.dropped place a) ∨
    ((∀ place, m = .step place ∨ m = .drop place → s.live? place = none) ∧
      ∃ t, t.context = s.thread.context ∧ s.move m = { s with thread := t }) := by
  cases m with
  | begin r =>
    rcases hstart : r.start s.thread with ⟨f | e, t⟩
    · refine .inr (.inr (.inr ⟨nofun, t, Runner.context_start_error hstart, ?_⟩))
      rw [move, hstart]
    · refine .inl ⟨r, e, t, rfl, hstart, ?_⟩
      rw [move, hstart]
  -- a place where nobody is, or nobody is any more, is passed over
  | step place =>
    rcases hlive : s.live? place with _ | a
    · refine .inr (.inr (.inr ⟨?_, s.thread, rfl, ?_⟩))
      · rintro other (h | h)
        · cases h
          exact hlive
        · cases h
      · rw [move, hlive]
    · refine .inr (.inl ⟨place, a, rfl, hlive, ?_⟩)
      rw [move, hlive]
  | drop place =>
    rcases hlive : s.live? place with _ | a
    · refine .inr (.inr (.inr ⟨?_, s.thread, rfl, ?_⟩))
      · rintro other (h | h)
        · cases h
        · cases h
          exact hlive
      · rw [move, hlive]
    · refine .inr (.inr (.inl ⟨place, a, rfl, hlive, ?_⟩))
      rw [move, hlive]
  | write entries =>
    refine .inr (.inr (.inr ⟨?_, s.thread.writeAll entries, rfl, rfl⟩))
    rintro place (h | h) <;> cases h

/-! ## The book is right -/

/-- The runs of the passes. -/
def ids (s : Stage) : List RunId := s.actors.map fun a => a.pass.run

/-- The run of a holder; without one it is the run that was active from before. -/
def runOf (before : Option Context) (ids : List RunId) : Option Nat → Option RunId
  | none => before.map Context.run
  | some place => ids[place]?

/-- Further runs do not change whose run the holder's is. -/
theorem runOf_append {before : Option Context} {ids : List RunId} {holder : Option Nat}
    (h : ∀ place, holder = some place → place < ids.length) (more : List RunId) :
    runOf before (ids ++ more) holder = runOf before ids holder := by
  rcases holder with _ | place
  · rfl
  · exact List.getElem?_append_left (h place rfl)

/-- Changing an actor changes no run, as long as its pass stays a pass of the same run. -/
theorem ids_set {s : Stage} {place : Nat} {a : Actor} (h : s.actors[place]? = some a) (a' : Actor)
    (hrun : a'.pass.run = a.pass.run) (t : Thread) (holder : Option Nat) :
    ids ⟨t, s.actors.set place a', holder⟩ = s.ids := by
  apply List.ext_getElem?
  intro other
  rw [ids, ids, List.getElem?_map, List.getElem?_map, List.getElem?_set]
  by_cases hplace : place = other
  · subst hplace
    obtain ⟨hlt, -⟩ := List.getElem?_eq_some_iff.mp h
    rw [if_pos rfl, if_pos hlt, h, Option.map_some, Option.map_some, hrun]
  · rw [if_neg hplace]

/-- A pass that begins adds its run behind the others. -/
theorem ids_begun (s : Stage) (e : Execution) (t : Thread) :
    (s.begun e t).ids = s.ids ++ [e.run] := by
  rw [ids, ids, begun, List.map_append, List.map_singleton]

theorem ids_stepped {s : Stage} {place : Nat} {a : Actor} (h : s.actors[place]? = some a) :
    (s.stepped place a).ids = s.ids :=
  ids_set h _ (Execution.samePass_step a.pass s.thread).run _ _

theorem ids_dropped {s : Stage} {place : Nat} {a : Actor} (h : s.actors[place]? = some a) :
    (s.dropped place a).ids = s.ids := ids_set h { a with gone := true } rfl _ _

/-- The book of a stage is right: the active run is that of the holder, and a pass that is dropped
brings back the run that was active when it began. -/
structure Sound (before : Option Context) (s : Stage) : Prop where
  /-- the holder is one of the passes -/
  holder_lt : ∀ place, s.holder = some place → place < s.actors.length
  /-- the active run -/
  context : s.thread.context.map Context.run = runOf before s.ids s.holder
  /-- what passes put back -/
  actors : ∀ (place : Nat) (a : Actor), s.actors[place]? = some a → a.pass.Steady ∧
    (∀ other, a.before = some other → other < place) ∧
    a.pass.outer.map Context.run = runOf before s.ids a.before

variable {before : Option Context} {s : Stage} {m : Move}

/-- Changing one actor changes nothing that is known of the others. -/
theorem forall_set {P : Nat → Actor → Prop} {actors : List Actor} {place : Nat} {a' : Actor}
    (h : ∀ (other : Nat) (a : Actor), actors[other]? = some a → P other a) (h' : P place a') :
    ∀ (other : Nat) (a : Actor), (actors.set place a')[other]? = some a → P other a := by
  intro other a ha
  rw [List.getElem?_set] at ha
  by_cases hplace : place = other
  · subst hplace
    rw [if_pos rfl] at ha
    split at ha
    · obtain rfl := Option.some.inj ha
      exact h'
    · cases ha
  · rw [if_neg hplace] at ha
    exact h other a ha

/-- Adding an actor changes nothing that is known of the others. -/
theorem forall_append {P : Nat → Actor → Prop} {actors : List Actor} {a' : Actor}
    (h : ∀ (other : Nat) (a : Actor), actors[other]? = some a → P other a)
    (h' : P actors.length a') :
    ∀ (other : Nat) (a : Actor), (actors ++ [a'])[other]? = some a → P other a := by
  intro other a ha
  rcases Nat.lt_trichotomy other actors.length with hlt | rfl | hgt
  · rw [List.getElem?_append_left hlt] at ha
    exact h other a ha
  · rw [List.getElem?_concat_length] at ha
    obtain rfl := Option.some.inj ha
    exact h'
  · rw [List.getElem?_eq_none (by simp; omega)] at ha
    cases ha

/-- The book of an empty stage is right: the active run is the one from before. -/
theorem sound_empty (t : Thread) : (empty t).Sound t.context := ⟨nofun, rfl, nofun⟩

/-- It stays right when a pass begins, which makes its own run the active one and notes the run that
it has found. -/
theorem Sound.begun (h : s.Sound before) {r : Runner} {e : Execution} {t : Thread}
    (hsteady : r.Steady) (hstart : r.start s.thread = (.ok e, t)) : (s.begun e t).Sound before := by
  obtain ⟨hc, houter, hcontext⟩ := Runner.context_start hstart
  have hlength : s.actors.length = s.ids.length := by rw [ids, List.length_map]
  refine ⟨?_, ?_, forall_append ?_ ?_⟩
  · intro other hother
    obtain rfl := Option.some.inj hother
    rw [Stage.begun, List.length_append]
    exact Nat.lt_succ_self _
  · -- the new pass is the last one, and so is its run
    rw [ids_begun, Stage.begun, hcontext, runOf, hlength, List.getElem?_concat_length]
    rfl
  · -- the others took over before, and the list of runs has only grown since
    intro other a ha
    obtain ⟨hkernels, hbefore, hrun⟩ := h.actors other a ha
    refine ⟨hkernels, hbefore, ?_⟩
    rw [ids_begun, runOf_append ?_, hrun]
    intro place hplace
    rw [← hlength]
    exact Nat.lt_trans (hbefore place hplace) (List.getElem?_eq_some_iff.mp ha).1
  · -- the new one took over from the holder, and has noted the context that was the holder's
    refine ⟨hsteady _ hc, h.holder_lt, ?_⟩
    rw [ids_begun, runOf_append ?_, houter]
    · exact h.context
    · rw [← hlength]
      exact h.holder_lt

/-- It stays right after a step: whatever instruction the step shows in the context, it leaves the
run alone. -/
theorem Sound.stepped (h : s.Sound before) {place : Nat} {a : Actor}
    (hlive : s.live? place = some a) : (s.stepped place a).Sound before := by
  have hplace := (live?_eq_some.mp hlive).1
  obtain ⟨hkernels, hbefore, hrun⟩ := h.actors place a hplace
  have hsame := Execution.samePass_step a.pass s.thread
  refine ⟨?_, ?_, ?_⟩
  · rw [Stage.stepped, List.length_set]
    exact h.holder_lt
  · -- a step can change the instruction in the context, but not the run
    rw [ids_stepped hplace, Stage.stepped, (Execution.context_step hkernels s.thread).2]
    exact h.context
  · rw [ids_stepped hplace]
    refine forall_set h.actors ⟨?_, hbefore, ?_⟩
    · rw [Execution.Steady, hsame.compiled]
      exact hkernels
    · rw [hsame.outer]
      exact hrun

/-- It stays right when a pass is dropped: the run that is put back is that of the holder before
it. -/
theorem Sound.dropped (h : s.Sound before) {place : Nat} {a : Actor}
    (hlive : s.live? place = some a) : (s.dropped place a).Sound before := by
  have hplace := (live?_eq_some.mp hlive).1
  obtain ⟨hkernels, hbefore, hrun⟩ := h.actors place a hplace
  refine ⟨?_, ?_, ?_⟩
  · -- the new holder began earlier than the pass that is dropped
    intro other hother
    rw [Stage.dropped, List.length_set]
    exact Nat.lt_trans (hbefore other hother) (List.getElem?_eq_some_iff.mp hplace).1
  · rw [ids_dropped hplace]
    exact hrun
  · rw [ids_dropped hplace]
    exact forall_set h.actors ⟨hkernels, hbefore, hrun⟩

/-- Every move keeps the book right, if the kernels keep the context. -/
theorem Sound.move (h : s.Sound before) (hsteady : ∀ r, m = .begin r → r.Steady) :
    (s.move m).Sound before := by
  rcases move_cases s m with ⟨r, e, t, rfl, hstart, hm⟩ | ⟨place, a, rfl, hlive, hm⟩ |
    ⟨place, a, rfl, hlive, hm⟩ | ⟨-, t, ht, hm⟩
  · rw [hm]
    exact h.begun (hsteady r rfl) hstart
  · rw [hm]
    exact h.stepped hlive
  · rw [hm]
    exact h.dropped hlive
  · rw [hm]
    refine ⟨h.holder_lt, ?_, h.actors⟩
    rw [ht]
    exact h.context

/-- **The book is right** after every history, in whatever order passes are begun, stepped and
dropped. -/
theorem Sound.play {ms : List Move} (h : s.Sound before)
    (hsteady : ∀ r, .begin r ∈ ms → r.Steady) : (s.play ms).Sound before := by
  induction ms generalizing s with
  | nil => exact h
  | cons m ms ih =>
    refine ih (h.move ?_) fun r hr => hsteady r (List.mem_cons_of_mem m hr)
    rintro r rfl
    exact hsteady r List.mem_cons_self

/-- What follows from a move on a stage whose book is right follows along histories. -/
theorem Along.imp {P Q : Stage → Move → Prop} {ms : List Move} (hP : Along P s ms)
    (h : s.Sound before) (hsteady : ∀ r, .begin r ∈ ms → r.Steady)
    (himp : ∀ s m, s.Sound before → P s m → Q s m) : Along Q s ms := by
  induction ms generalizing s with
  | nil => exact hP
  | cons m ms ih =>
    refine ⟨himp s m h hP.1, ih hP.2 (h.move ?_) fun r hr => hsteady r (List.mem_cons_of_mem m hr)⟩
    rintro r rfl
    exact hsteady r List.mem_cons_self

end Stage

end InferenceEngine
