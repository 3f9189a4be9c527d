import InferenceEngine.Kernel.Observation
import InferenceEngine.Proofs.Stage

/-!
# The labels of passes that overlap

Passes that share a thread share its label. A kernel reads the label of whichever pass is the holder
of the stage, and that need not be the pass that has called it.

* `Stage.labels_exact` — which labels are right, and what is left behind when all passes are gone:
  all is well if only holders dispatch and the last pass that is dropped hands the label back, and
  it is not if one of the two fails.
* `Stage.Stacked` — so all is well if passes are nested, each stepped and dropped only while it is
  the youngest.
* `Stage.mislabelled` — two passes that take turns: a kernel of the first reads the label of the
  second, and the label of the first stays behind when both are gone.
-/

namespace InferenceEngine

namespace Stage

variable {before : Option Context} {s : Stage} {m : Move}

/-! ## Right labels -/

/-- Whoever dispatches, the holder has the same first digits. -/
def LeadHeld (before : Option Context) (s : Stage) (m : Move) : Prop :=
  ∀ place e, s.Dispatches m place e →
    (runOf before s.ids s.holder).map RunId.lead = some e.run.lead

/-- A label is right exactly if the holder has the first digits of the pass that dispatches. -/
theorem Sound.right_iff (h : s.Sound before) (m : Move) : s.Right m ↔ LeadHeld before s m := by
  have hlabel (e : Execution) (i : Instruction) :
      (e.callThread e.position i (e.dispatchThread s.thread)).label =
          some (Context.label ⟨e.run, some e.position⟩) ↔
        (runOf before s.ids s.holder).map RunId.lead = some e.run.lead := by
    rw [Execution.label_callThread, Execution.label_dispatchThread, ← h.context]
    rcases s.thread.context with _ | c
    · exact ⟨nofun, nofun⟩
    · rw [Option.map_some, Option.map_some, Option.map_some, Option.some_inj, Option.some_inj]
      exact Context.label_eq_iff
  refine ⟨fun hright place e hdispatch => ?_, fun hlead place e i hdispatch => ?_⟩
  · -- what the instruction says has no part in the label, so any will do
    exact (hlabel e (.ofEntry "")).mp (hright place e _ hdispatch)
  · exact (hlabel e i).mpr (hlead place e hdispatch)

/-- If only holders dispatch, the first digits are those of the holder, because they are its own. -/
theorem leadHeld_of_held (hheld : s.Held m) : LeadHeld before s m := by
  rintro place e hdispatch
  obtain ⟨-, ⟨a, hlive, rfl⟩, -⟩ := id hdispatch
  rw [hheld place _ hdispatch, runOf, ids, List.getElem?_map, (live?_eq_some.mp hlive).1]
  rfl

/-! ## What stays behind -/

/-- As long as only holders dispatch, the context from before is kept: it is in force while nobody
holds the label, or it will be put back. -/
structure Pristine (before : Option Context) (s : Stage) : Prop where
  /-- the context in force -/
  context : s.holder = none → s.thread.context = before
  /-- the contexts to put back -/
  actors : ∀ (place : Nat) (a : Actor), s.actors[place]? = some a → a.before = none →
    a.pass.outer = before

/-- **What one move preserves.** As long as nobody but the holder dispatches, the context from before
is kept. -/
theorem Pristine.move (h : s.Pristine before) (hsound : s.Sound before) (hheld : s.Held m) :
    (s.move m).Pristine before := by
  rcases move_cases s m with ⟨r, e, t, rfl, hstart, hm⟩ | ⟨place, a, rfl, hlive, hm⟩ |
    ⟨place, a, rfl, hlive, hm⟩ | ⟨-, t, ht, hm⟩
  · -- a pass begins, and notes the context from before if nobody holds the label
    rw [hm]
    refine ⟨nofun, forall_append h.actors fun hnone => ?_⟩
    rw [(Runner.context_start hstart).2.1]
    exact h.context hnone
  · -- a step, which leaves the context alone while nobody holds the label
    have hplace := (live?_eq_some.mp hlive).1
    rw [hm]
    refine ⟨fun hnone => ?_, forall_set h.actors fun hnone => ?_⟩
    · have hquiet : ¬ a.pass.Dispatches s.thread := by
        intro hdispatch
        have hholder := hheld place a.pass ⟨rfl, ⟨a, hlive, rfl⟩, hdispatch⟩
        exact nomatch hnone.symm.trans hholder
      have hkernels := (hsound.actors place a hplace).1
      exact ((Execution.context_step hkernels s.thread).1 hquiet).trans (h.context hnone)
    · rw [(Execution.samePass_step a.pass s.thread).outer]
      exact h.actors place a hplace hnone
  · -- a pass is dropped, and puts back what it has noted
    have hplace := (live?_eq_some.mp hlive).1
    rw [hm]
    exact ⟨h.actors place a hplace, forall_set h.actors (h.actors place a hplace)⟩
  · rw [hm]
    exact ⟨fun hnone => ht.trans (h.context hnone), h.actors⟩

/-- So it is kept along a history in which only holders dispatch. -/
theorem Pristine.play {ms : List Move} (h : s.Pristine before) (hsound : s.Sound before)
    (hsteady : ∀ r, .begin r ∈ ms → r.Steady) (hheld : Along Held s ms) :
    (s.play ms).Pristine before := by
  induction ms generalizing s with
  | nil => exact h
  | cons m ms ih =>
    refine ih (h.move hsound hheld.1) (hsound.move ?_)
      (fun r hr => hsteady r (List.mem_cons_of_mem m hr)) hheld.2
    rintro r rfl
    exact hsteady r List.mem_cons_self

/-! ## Telling runs apart -/

/-- The runs of the passes, and the run from before if there is one, differ in their first
digits. -/
def Distinct (before : Option Context) (ids : List RunId) : Prop :=
  (((before.map Context.run).toList ++ ids).map RunId.lead).Nodup

theorem Distinct.of_append {ids more : List RunId} (h : Distinct before (ids ++ more)) :
    Distinct before ids := by
  rw [Distinct, ← List.append_assoc, List.map_append] at h
  exact (List.nodup_append.mp h).1

/-- Runs that can be told apart by their first digits lead back to the pass that they belong to. -/
theorem Distinct.eq_of_lead {ids : List RunId} (h : Distinct before ids) {holder : Option Nat}
    {place : Nat} {run : RunId} (hplace : ids[place]? = some run)
    (hlead : (runOf before ids holder).map RunId.lead = some run.lead) : holder = some place := by
  have hmem : run.lead ∈ ids.map RunId.lead :=
    List.mem_map_of_mem (List.mem_of_getElem? hplace)
  rw [Distinct, List.map_append] at h
  obtain ⟨-, hnodup, hdisjoint⟩ := List.nodup_append.mp h
  rcases holder with _ | other
  · rcases before with _ | c
    · cases hlead
    · -- the run from before is none of those that have begun
      have hc : c.run.lead = run.lead := Option.some.inj hlead
      exact absurd hc (hdisjoint _ (List.mem_singleton_self _) _ hmem)
  · -- two places with the same first digits are one place
    have hother : (ids.map RunId.lead)[other]? = (ids.map RunId.lead)[place]? := by
      rw [List.getElem?_map, List.getElem?_map, hplace]
      exact hlead
    have hlt : place < (ids.map RunId.lead).length := by
      rw [List.length_map]
      exact (List.getElem?_eq_some_iff.mp hplace).1
    exact congrArg some ((List.getElem?_inj hlt hnodup).mp hother.symm).symm

/-- A move adds a run or none. It never takes one away, not even when a pass is dropped. -/
theorem ids_move (s : Stage) (m : Move) : ∃ more, (s.move m).ids = s.ids ++ more := by
  rcases move_cases s m with ⟨r, e, t, rfl, hstart, hm⟩ | ⟨place, a, rfl, hlive, hm⟩ |
    ⟨place, a, rfl, hlive, hm⟩ | ⟨-, t, ht, hm⟩
  · exact ⟨[e.run], by rw [hm, ids_begun]⟩
  · exact ⟨[], by rw [hm, ids_stepped (live?_eq_some.mp hlive).1, List.append_nil]⟩
  · exact ⟨[], by rw [hm, ids_dropped (live?_eq_some.mp hlive).1, List.append_nil]⟩
  · exact ⟨[], by rw [hm, List.append_nil, ids, ids]⟩

/-- Neither does a history, so whatever can be told apart at its end could be told apart before. -/
theorem ids_play (s : Stage) (ms : List Move) : ∃ more, (s.play ms).ids = s.ids ++ more := by
  induction ms generalizing s with
  | nil => exact ⟨[], (List.append_nil _).symm⟩
  | cons m ms ih =>
    obtain ⟨more, hmore⟩ := ids_move s m
    obtain ⟨rest, hrest⟩ := ih (s.move m)
    refine ⟨more ++ rest, ?_⟩
    rw [← List.append_assoc, ← hmore]
    exact hrest

/-- If runs can be told apart, a right label is that of the holder. -/
theorem held_of_leadHeld (hdistinct : Distinct before s.ids) (h : LeadHeld before s m) :
    s.Held m := by
  intro place e hdispatch
  obtain ⟨-, ⟨a, hlive, rfl⟩, -⟩ := id hdispatch
  refine hdistinct.eq_of_lead ?_ (h place _ hdispatch)
  rw [ids, List.getElem?_map, (live?_eq_some.mp hlive).1]
  rfl

/-- Along a history it is enough that all runs can be told apart at its end. -/
theorem along_held_of_leadHeld {ms : List Move} (hdistinct : Distinct before (s.play ms).ids)
    (h : Along (LeadHeld before) s ms) : Along Held s ms := by
  induction ms generalizing s with
  | nil => exact h
  | cons m ms ih =>
    -- the runs so far are the first of those at the end
    refine ⟨held_of_leadHeld ?_ h.1, ih hdistinct h.2⟩
    obtain ⟨more, hmore⟩ := ids_play s (m :: ms)
    rw [hmore] at hdistinct
    exact hdistinct.of_append

/-- If runs can be told apart, then what is left behind is the label from before only if nobody
holds it. -/
theorem Sound.holder_of_label (h : s.Sound before) (hdistinct : Distinct before s.ids)
    (hlabel : s.thread.label = before.map Context.label) : s.holder = none := by
  rcases hholder : s.holder with _ | place
  · rfl
  · have hcontext := h.context
    rw [hholder, runOf] at hcontext
    have hlt : place < s.ids.length := by
      rw [ids, List.length_map]
      exact h.holder_lt place hholder
    rw [List.getElem?_eq_getElem hlt] at hcontext
    rw [Thread.label] at hlabel
    rcases hc : s.thread.context with _ | c
    · rw [hc] at hcontext
      cases hcontext
    · rw [hc] at hcontext hlabel
      rcases before with _ | c'
      · cases hlabel
      · -- the holder would have the first digits of the run from before
        have hlead := Context.lead_eq_of_label_eq (Option.some.inj hlabel)
        have hrun : c.run = s.ids[place] := Option.some.inj hcontext
        refine (hdistinct.eq_of_lead (List.getElem?_eq_getElem hlt) ?_).symm
        rw [← hrun, hlead]
        rfl

/-! ## Last in, first out -/

theorem lt_of_live {place : Nat} (h : (s.live? place).isSome) : place < s.actors.length := by
  obtain ⟨a, ha⟩ := Option.isSome_iff_exists.mp h
  exact (List.getElem?_eq_some_iff.mp (live?_eq_some.mp ha).1).1

/-- A pass that begins changes nothing about the others, -/
theorem live?_begun_of_lt (s : Stage) (e : Execution) (t : Thread) {place : Nat}
    (h : place < s.actors.length) : (s.begun e t).live? place = s.live? place := by
  rw [live?, live?, begun, List.getElem?_append_left h]

/-- and it is there itself, behind all others. -/
theorem live?_begun_length (s : Stage) (e : Execution) (t : Thread) :
    (s.begun e t).live? s.actors.length = some ⟨e, false, s.holder⟩ := by
  rw [live?, begun, List.getElem?_concat_length]
  rfl

/-- A step changes its own pass only, -/
theorem live?_stepped {place : Nat} {a : Actor} (h : s.live? place = some a) (other : Nat) :
    (s.stepped place a).live? other =
      if place = other then some { a with pass := (a.pass.step s.thread).2.1 }
      else s.live? other := by
  obtain ⟨hplace, hgone⟩ := live?_eq_some.mp h
  have hlt := (List.getElem?_eq_some_iff.mp hplace).1
  rw [live?, live?, stepped, List.getElem?_set]
  by_cases hother : place = other
  · rw [if_pos hother, if_pos hother, if_pos (hother ▸ hlt), Option.filter_some, hgone]
    rfl
  · rw [if_neg hother, if_neg hother]

/-- and dropping a pass only takes away that one. -/
theorem live?_dropped {place : Nat} {a : Actor} (h : s.live? place = some a) (other : Nat) :
    (s.dropped place a).live? other = if place = other then none else s.live? other := by
  have hlt := (List.getElem?_eq_some_iff.mp (live?_eq_some.mp h).1).1
  rw [live?, live?, dropped, List.getElem?_set]
  by_cases hother : place = other
  · rw [if_pos hother, if_pos hother, if_pos (hother ▸ hlt)]
    rfl
  · rw [if_neg hother, if_neg hother]

/-- Of the passes that began before the one of `place` and are still there, `top` is the
youngest. -/
def Top (s : Stage) (place : Nat) (top : Option Nat) : Prop :=
  (∀ other, top = some other → other < place ∧ (s.live? other).isSome) ∧
    ∀ other < place, (s.live? other).isSome → ∃ young, top = some young ∧ other ≤ young

/-- Who is the youngest depends only on which of the earlier passes are there. -/
theorem Top.congr {s' : Stage} {place : Nat} {top : Option Nat} (h : s.Top place top)
    (hlive : ∀ other < place, (s'.live? other).isSome = (s.live? other).isSome) :
    s'.Top place top := by
  refine ⟨fun other hother => ?_, fun other hlt hother => ?_⟩
  · obtain ⟨hlt, hsome⟩ := h.1 other hother
    exact ⟨hlt, (hlive other hlt).trans hsome⟩
  · exact h.2 other hlt ((hlive other hlt).symm.trans hother)

/-- The label is held by the youngest pass, and a pass took it over from the one that was the
youngest then. -/
structure Stacked (s : Stage) : Prop where
  /-- the holder is the youngest -/
  holder : s.Top s.actors.length s.holder
  /-- the next one is the youngest of the others -/
  before : ∀ (place : Nat) (a : Actor), s.live? place = some a → s.Top place a.before

/-- Before anything has begun, nobody holds the label and there is nobody to hold it. -/
theorem stacked_empty (t : Thread) : (empty t).Stacked where
  holder := ⟨nofun, fun other hlt => absurd hlt (Nat.not_lt_zero _)⟩
  before place a h := by
    rw [live?, empty] at h
    cases h

/-- The pass that begins is the youngest, and the holder before it was the youngest of the
others. -/
theorem Stacked.begun (h : s.Stacked) (e : Execution) (t : Thread) : (s.begun e t).Stacked := by
  have hlength : (s.begun e t).actors.length = s.actors.length + 1 := List.length_append
  have hold : ∀ place ≤ s.actors.length, ∀ top, s.Top place top → (s.begun e t).Top place top := by
    intro place hle top htop
    refine htop.congr fun other hlt => ?_
    rw [live?_begun_of_lt s e t (Nat.lt_of_lt_of_le hlt hle)]
  refine ⟨⟨?_, ?_⟩, ?_⟩
  · intro other hother
    obtain rfl := Option.some.inj hother
    rw [hlength, live?_begun_length]
    exact ⟨Nat.lt_succ_self _, rfl⟩
  · -- every other pass began earlier than the new one
    intro other hlt hother
    rw [hlength] at hlt
    exact ⟨_, rfl, Nat.le_of_lt_succ hlt⟩
  · intro place a ha
    have hlt := lt_of_live (Option.isSome_of_mem ha)
    rw [hlength] at hlt
    -- of the earlier passes as before, of the new one what was said of the holder
    rcases Nat.lt_or_eq_of_le (Nat.le_of_lt_succ hlt) with hlt | rfl
    · rw [live?_begun_of_lt s e t hlt] at ha
      exact hold place (Nat.le_of_lt hlt) _ (h.before place a ha)
    · rw [live?_begun_length] at ha
      obtain rfl := Option.some.inj ha
      exact hold _ (Nat.le_refl _) _ h.holder

/-- A step keeps every pass where it is. -/
theorem Stacked.stepped (h : s.Stacked) {place : Nat} {a : Actor}
    (hlive : s.live? place = some a) : (s.stepped place a).Stacked := by
  have hsome : ∀ other, ((s.stepped place a).live? other).isSome = (s.live? other).isSome := by
    intro other
    rw [live?_stepped hlive]
    by_cases hother : place = other
    · rw [if_pos hother, ← hother, hlive]
      rfl
    · rw [if_neg hother]
  refine ⟨?_, fun other b hb => ?_⟩
  · rw [Stage.stepped, List.length_set]
    exact h.holder.congr fun other _ => hsome other
  · rw [live?_stepped hlive] at hb
    by_cases hother : place = other
    · rw [if_pos hother] at hb
      obtain rfl := Option.some.inj hb
      obtain rfl := hother
      exact (h.before place a hlive).congr fun x _ => hsome x
    · rw [if_neg hother] at hb
      exact (h.before other b hb).congr fun x _ => hsome x

/-- When the youngest pass is dropped, the next one is the youngest. -/
theorem Stacked.dropped (h : s.Stacked) {place : Nat} {a : Actor} (hlive : s.live? place = some a)
    (hyoungest : ∀ other, (s.live? other).isSome → other ≤ place) :
    (s.dropped place a).Stacked := by
  have hkeep : ∀ other < place, (s.dropped place a).live? other = s.live? other := by
    intro other hlt
    rw [live?_dropped hlive, if_neg (Nat.ne_of_gt hlt)]
  -- whoever is still there began earlier
  have hearlier : ∀ other, ((s.dropped place a).live? other).isSome → other < place := by
    intro other hother
    rw [live?_dropped hlive] at hother
    by_cases hne : place = other
    · rw [if_pos hne] at hother
      cases hother
    · rw [if_neg hne] at hother
      exact Nat.lt_of_le_of_ne (hyoungest other hother) (Ne.symm hne)
  -- the pass that it took over from is the holder now
  have htop := h.before place a hlive
  refine ⟨⟨fun other hother => ?_, fun other _ hother => ?_⟩, fun other b hb => ?_⟩
  · obtain ⟨hlt, hsome⟩ := htop.1 other hother
    rw [Stage.dropped, List.length_set, ← Stage.dropped, hkeep other hlt]
    exact ⟨Nat.lt_trans hlt (lt_of_live (Option.isSome_of_mem hlive)), hsome⟩
  · have hlt := hearlier other hother
    rw [hkeep other hlt] at hother
    exact htop.2 other hlt hother
  · have hlt := hearlier other (Option.isSome_of_mem hb)
    rw [hkeep other hlt] at hb
    refine (h.before other b hb).congr fun x hx => ?_
    rw [hkeep x (Nat.lt_trans hx hlt)]

/-- **What one move preserves.** Passes stay stacked if only the youngest is stepped or dropped. -/
theorem Stacked.move (h : s.Stacked) (hyoungest : s.Youngest m) : (s.move m).Stacked := by
  rcases move_cases s m with ⟨r, e, t, rfl, hstart, hm⟩ | ⟨place, a, rfl, hlive, hm⟩ |
    ⟨place, a, rfl, hlive, hm⟩ | ⟨-, t, ht, hm⟩
  · rw [hm]
    exact h.begun e t
  · rw [hm]
    exact h.stepped hlive
  · rw [hm]
    exact h.dropped hlive fun other => hyoungest place (.inr rfl) other (Option.isSome_of_mem hlive)
  · rw [hm]
    exact ⟨h.holder, h.before⟩

/-- If only the youngest pass takes steps, then only the holder does. -/
theorem Stacked.held (h : s.Stacked) (hyoungest : s.Youngest m) : s.Held m := by
  rintro place e ⟨rfl, ⟨a, hlive, rfl⟩, -⟩
  have hsome : (s.live? place).isSome := Option.isSome_of_mem hlive
  -- the holder is at least as young as the pass that steps, which is the youngest
  obtain ⟨young, hholder, hle⟩ := h.holder.2 place (lt_of_live hsome) hsome
  have hyoung := hyoungest place (.inl rfl) young hsome (h.holder.1 young hholder).2
  rw [hholder, Nat.le_antisymm hyoung hle]

/-- Along such a history only holders take steps, and at its end passes are still stacked. -/
theorem Stacked.play {ms : List Move} (h : s.Stacked) (hyoungest : Along Youngest s ms) :
    Along Held s ms ∧ (s.play ms).Stacked := by
  induction ms generalizing s with
  | nil => exact ⟨trivial, h⟩
  | cons m ms ih =>
    -- the move keeps the stack, and only then is the rest of the history known to be held
    obtain ⟨hheld, hstacked⟩ := ih (h.move hyoungest.1) hyoungest.2
    exact ⟨⟨h.held hyoungest.1, hheld⟩, hstacked⟩

/-- When all passes are gone, nobody holds the label. -/
theorem Stacked.holder_of_gone (h : s.Stacked) (hgone : ∀ place, s.live? place = none) :
    s.holder = none := by
  rcases hholder : s.holder with _ | place
  · rfl
  · have hsome := (h.holder.1 place hholder).2
    rw [hgone] at hsome
    cases hsome

/-! ## Labels of passes that overlap -/

/-- **Labels of passes that overlap.** Whatever a host does with passes on one thread:

* every kernel reads the label of its own pass exactly if, whenever an instruction is dispatched,
  the holder has the same first digits as the pass that dispatches;
* if only holders dispatch, then all labels are right, and when nobody holds the label any more the
  context is as it was before the first pass;
* if runs can be told apart by their first digits, this is the only way: all labels are right and
  the label from before is back exactly if only holders dispatch and nobody holds the label;
* if only the youngest pass that is there takes steps or is dropped, then only holders dispatch, and
  when all passes are gone nobody holds the label. -/
theorem labels_exact (t : Thread) (ms : List Move) (hsteady : ∀ r, .begin r ∈ ms → r.Steady) :
    let s := (empty t).play ms
    (Along Right (empty t) ms ↔ Along (LeadHeld t.context) (empty t) ms) ∧
      (Along Held (empty t) ms →
        Along Right (empty t) ms ∧ (s.holder = none → s.thread.context = t.context)) ∧
      (Distinct t.context s.ids →
        (Along Right (empty t) ms ∧ s.thread.label = t.label ↔
          Along Held (empty t) ms ∧ s.holder = none)) ∧
      (Along Youngest (empty t) ms →
        Along Held (empty t) ms ∧ ((∀ place, s.live? place = none) → s.holder = none)) := by
  intro s
  have hsound := sound_empty t
  have hright : Along Right (empty t) ms ↔ Along (LeadHeld t.context) (empty t) ms :=
    ⟨fun h => h.imp hsound hsteady fun s m hs => (hs.right_iff m).mp,
      fun h => h.imp hsound hsteady fun s m hs => (hs.right_iff m).mpr⟩
  have hheld (h : Along Held (empty t) ms) :
      Along Right (empty t) ms ∧ (s.holder = none → s.thread.context = t.context) := by
    refine ⟨hright.mpr (h.imp hsound hsteady fun s m _ => leadHeld_of_held), ?_⟩
    have hpristine : (empty t).Pristine t.context := ⟨fun _ => rfl, nofun⟩
    exact (hpristine.play hsound hsteady h).context
  -- the converse needs that runs can be told apart, the last part does not
  refine ⟨hright, hheld, fun hdistinct => ⟨fun ⟨hr, hlabel⟩ => ?_, fun ⟨h, hnone⟩ => ?_⟩,
    fun hyoungest => ?_⟩
  · exact ⟨along_held_of_leadHeld hdistinct (hright.mp hr),
      (hsound.play hsteady).holder_of_label hdistinct hlabel⟩
  · obtain ⟨hr, hcontext⟩ := hheld h
    refine ⟨hr, ?_⟩
    rw [Thread.label, hcontext hnone]
    rfl
  · obtain ⟨h, hstacked⟩ := (stacked_empty t).play hyoungest
    exact ⟨h, hstacked.holder_of_gone⟩

/-- A runner whose only instruction notes the label that it reads. -/
def reporter : Runner :=
  { Runner.ofDescriptor { Descriptor.default with instructions := [.ofEntry "label"] }
      ⟨fun _ => .ok ⟨[("label", Kernels.label)]⟩⟩ with
    compiled := some {
      weights := ⟨[], [], #[]⟩
      buffers := ⟨[], []⟩
      kernels := ⟨[("label", Kernels.label)]⟩
      program := [⟨some 0, [], [], []⟩]
      inputs := []
      outputs := [] } }

theorem steady_reporter : reporter.Steady := by
  rintro c hc entry hentry
  obtain rfl := Option.some.inj hc
  obtain rfl := List.mem_singleton.mp hentry
  exact fun args b t => rfl

/-- A thread on which no run is active and whose runs are numbered. -/
def desk : Thread := ⟨.off, none, [], fun _ => 0, 0, fun n => ⟨UInt64.ofNat (n * 2 ^ 32), 0⟩, 0⟩

/-- One pass inside the other. -/
def nested : List Move :=
  [.begin reporter, .begin reporter, .step 1, .drop 1, .step 0, .drop 0]

/-- Nested passes read their own labels, and in the end no run is active, as before. -/
theorem right_nested :
    (∀ r, .begin r ∈ nested → r.Steady) ∧ Along Right (empty desk) nested ∧
      ((empty desk).play nested).thread.context = none := by
  have hsteady : ∀ r, .begin r ∈ nested → r.Steady := by
    intro r hr
    obtain rfl : r = reporter := by simpa [nested] using hr
    exact steady_reporter
  have hheld : Along Held (empty desk) nested := by
    refine ⟨nofun, nofun, ?_, nofun, ?_, nofun, trivial⟩
    all_goals
      rintro place e ⟨hm, -, -⟩
      cases hm
      rfl
  obtain ⟨-, h, -⟩ := labels_exact desk nested hsteady
  obtain ⟨hright, hcontext⟩ := h hheld
  exact ⟨hsteady, hright, hcontext rfl⟩

/-- Two passes, of which the first goes on after the second has begun, and is dropped first. -/
def turns : List Move := [.begin reporter, .begin reporter, .step 0, .drop 0, .drop 1]

/-- The first pass reads the label of the second one, and when both are gone the label of the first
one is left behind. -/
theorem mislabelled :
    (∀ r, .begin r ∈ turns → r.Steady) ∧ (∀ place, ((empty desk).play turns).live? place = none) ∧
      ((empty desk).play turns).thread.journal = [.note (.label (some "run 00000001 #0"))] ∧
      ¬ Along Right (empty desk) turns ∧
      desk.label = none ∧ ((empty desk).play turns).thread.label = some "run 00000000" := by
  have hsteady : ∀ r, .begin r ∈ turns → r.Steady := by
    intro r hr
    obtain rfl : r = reporter := by simpa [turns] using hr
    exact steady_reporter
  have hfirst : Context.label ⟨⟨0, 0⟩, none⟩ = "run 00000000" := by decide +kernel
  have hsecond : Context.label ⟨⟨UInt64.ofNat (2 ^ 32), 0⟩, some 0⟩ = "run 00000001 #0" := by
    decide +kernel
  refine ⟨hsteady, ?_, ?_, ?_, rfl, ?_⟩
  · rintro (_ | _ | place) <;> rfl
  · rw [← hsecond]
    rfl
  · rintro ⟨-, -, hright, -⟩
    -- a label that is right would show the first run, and it shows the second
    have hlabel := hright 0 _ (.ofEntry "label")
      ⟨rfl, ⟨_, rfl, rfl⟩, rfl, Nat.zero_ne_one, fun h => absurd h.2 (by decide)⟩
    have hlead : RunId.lead ⟨UInt64.ofNat (2 ^ 32), 0⟩ = RunId.lead ⟨0, 0⟩ :=
      Context.label_eq_iff.mp (Option.some.inj hlabel)
    exact absurd hlead (by decide +kernel)
  · rw [← hfirst]
    rfl

end Stage

end InferenceEngine
