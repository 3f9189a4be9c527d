import InferenceEngine.Kernel.Routine
import InferenceEngine.Proofs.Inputs

/-!
# Kernels that fill a variable in ascending order

Most kernels go through their output and set one element after the other. `Bank.Filled` is the
invariant of such a loop: how far it has come, with which values, and that nothing else has changed.

* `Routine.run_bind_of_ok`, `Routine.run_bind_of_panic` — a sequence of routines by its first part.
* `Bank.Filled.get?_before`, `Bank.Filled.get?_ahead` — what stands before the place it has come to,
  and from there on.
* `Bank.Filled.put` — one step of the loop.
* `Routine.run_sweep` — the whole loop. If each of its rounds sets the element or is broken off, all
  elements are set, or those before the first round that is broken off.
-/

namespace InferenceEngine

/-! ## Sequences of routines -/

namespace Routine

variable {α β : Type} {args : Args} {r : Routine α} {f : α → Routine β} {b b' : Bank}
  {t t' : Thread}

/-- A routine goes on from where its first part has come to, -/
theorem run_bind_of_ok {x : α} (h : r.run args b t = (.ok x, b', t')) :
    (r >>= f).run args b t = (f x).run args b' t' := by
  have hbind := run_bind args r f b t
  rw [h] at hbind
  exact hbind

/-- unless that is broken off. -/
theorem run_bind_of_panic {p : Panic} (h : r.run args b t = (.panic p, b', t')) :
    (r >>= f).run args b t = (.panic p, b', t') := by
  have hbind := run_bind args r f b t
  rw [h] at hbind
  exact hbind

end Routine

/-! ## Operands of a call -/

section Operands

variable {args : Args} {o : Operand} {v : View} {w : Array Single} {b : Bank} {i : Nat}
  {x : Single}

/-- An operand that is there is what a kernel gets for its place. Only if it is missing does the
kernel fail. -/
theorem Args.input_eq (h : args.inputs[i]? = some v) : args.input i = .done ⟨.input i, v⟩ := by
  simp [Args.input, h]

theorem Args.output_eq (h : args.outputs[i]? = some v) : args.output i = .done ⟨.output i, v⟩ := by
  simp [Args.output, h]

theorem Args.weight_eq (h : args.weights[i]? = some w) : args.weight i = .done w := by
  simp [Args.weight, h]

/-- Reading an element that is there changes nothing, -/
theorem Operand.run_get (h : o.pin.view? args = some o.view) (hx : b.get? o.view.cell i = some x)
    (t : Thread) : (o.get i).run args b t = (.ok x, b, t) := by
  simp [get, Routine.run, h, hx]

/-- and reading one behind the end is broken off. -/
theorem Operand.run_get_of_le (h : o.pin.view? args = some o.view) (hi : b.size o.view.cell ≤ i)
    (t : Thread) :
    (o.get i).run args b t = (.panic (.outOfBounds (b.size o.view.cell) i), b, t) := by
  have hnone : b.get? o.view.cell i = none := by
    rw [← Bank.getElem?_elements]
    apply List.getElem?_eq_none
    rwa [Bank.length_elements]
  simp [get, Routine.run, h, hnone]

/-- Writing an element that is there changes that element. -/
theorem Operand.run_set (h : o.pin.view? args = some o.view) (hi : i < b.size o.view.cell)
    (x : Single) (t : Thread) :
    (o.set i x).run args b t = (.ok (), b.put o.view.cell i x, t) := by
  simp [set, Routine.run, h, hi]

/-- Weights are read without asking the bank. -/
theorem run_weightAt_of_lt (h : i < w.size) (b : Bank) (t : Thread) :
    (weightAt w i).run args b t = (.ok (w.getD i .zero), b, t) := by
  simp [weightAt, Routine.run, h]

theorem run_weightAt_of_le (h : w.size ≤ i) (b : Bank) (t : Thread) :
    (weightAt w i).run args b t = (.panic (.outOfBounds w.size i), b, t) := by
  simp [weightAt, Routine.run, h]

end Operands

/-! ## The state of a loop -/

namespace Bank

/-- An element of a buffer is there up to its end. -/
theorem get?_of_lt {b : Bank} {cell i : Nat} (h : i < b.size cell) :
    b.get? cell i = some ((b.elements cell).getD i .zero) := by
  have hlt : i < (b.elements cell).length := by rwa [length_elements]
  rw [← getElem?_elements]
  simp [hlt]

/-- The first `k` elements of a buffer have become the values of a function, and nothing else has
changed. -/
structure Filled (b b' : Bank) (cell k : Nat) (f : Nat → Single) : Prop where
  /-- the values, and behind them what was there before -/
  elements : b'.elements cell = (List.range k).map f ++ (b.elements cell).drop k
  /-- every other buffer is as it was -/
  others : ∀ other, other ≠ cell → b'[other]? = b[other]?

namespace Filled

variable {b b' : Bank} {cell k : Nat} {f : Nat → Single}

/-- Where nothing has been filled yet, nothing has changed. -/
theorem refl (b : Bank) (cell : Nat) (f : Nat → Single) : b.Filled b cell 0 f := by
  constructor
  · simp
  · intro other _
    rfl

/-- Filling a buffer keeps its length. -/
theorem size (h : b.Filled b' cell k f) (hk : k ≤ b.size cell) : b'.size cell = b.size cell := by
  have hlength := congrArg List.length h.elements
  simp only [length_elements, List.length_append, List.length_map, List.length_range,
    List.length_drop] at hlength
  omega

/-- At the end of the loop the buffer holds the values alone. -/
theorem elements_of_size (h : b.Filled b' cell k f) (hk : b.size cell = k) :
    b'.elements cell = (List.range k).map f := by
  have hnil : (b.elements cell).drop k = [] := by
    apply List.drop_of_length_le
    rw [length_elements, hk]
  rw [h.elements, hnil, List.append_nil]

/-- It leaves all other buffers alone. -/
theorem get?_other (h : b.Filled b' cell k f) {other : Nat} (hne : other ≠ cell) (i : Nat) :
    b'.get? other i = b.get? other i := by
  rw [Bank.get?, Bank.get?, h.others other hne]

theorem size_other (h : b.Filled b' cell k f) {other : Nat} (hne : other ≠ cell) :
    b'.size other = b.size other := by
  rw [Bank.size, Bank.size, h.others other hne]

/-- Before the place that the loop has come to, the buffer holds the values. -/
theorem get?_before (h : b.Filled b' cell k f) {i : Nat} (hi : i < k) :
    b'.get? cell i = some (f i) := by
  have hlt : i < ((List.range k).map f).length := by simpa using hi
  rw [← getElem?_elements, h.elements, List.getElem?_append_left hlt, List.getElem?_map,
    List.getElem?_range hi]
  rfl

/-- From the place on that the loop has come to, every buffer still holds what it held before it,
the one that is written among them. -/
theorem get?_ahead (h : b.Filled b' cell k f) {i : Nat} (hi : k ≤ i) (other : Nat) :
    b'.get? other i = b.get? other i := by
  rcases Nat.decEq other cell with hne | rfl
  · exact h.get?_other hne i
  · rw [← getElem?_elements, h.elements, List.getElem?_append_right (by simpa using hi)]
    simp [← getElem?_elements, Nat.add_sub_cancel' hi]

/-- One step of the loop. -/
theorem put (h : b.Filled b' cell k f) (hk : k < b.size cell) :
    b.Filled (b'.put cell k (f k)) cell (k + 1) f := by
  constructor
  · have hlt : k < (b.elements cell).length := by rwa [length_elements]
    have hset : ((b.elements cell).drop k).set 0 (f k) = f k :: (b.elements cell).drop (k + 1) := by
      rw [List.drop_eq_getElem_cons hlt]
      rfl
    rw [elements_put, h.elements]
    simp [List.range_succ, hset]
  · intro other hne
    rw [Bank.put, List.getElem?_modify_ne _ _ hne.symm]
    exact h.others other hne

end Filled

end Bank

/-! ## The loop -/

namespace Routine

variable {args : Args} {body : Nat → Routine Unit} {b b₀ : Bank} {t : Thread} {cell start n : Nat}
  {f : Nat → Single} {Serves : Nat → Prop} {Breaks : Nat → Panic → Prop}

/-- **A loop that sets an element a round** comes to its end, or to the first round that is broken
off. -/
theorem run_sweep
    (hround : ∀ j b', start ≤ j → j < n → b.Filled b' cell j f →
      (Serves j ∧ (body j).run args b' t = (.ok (), b'.put cell j (f j), t)) ∨
        ∃ p, Breaks j p ∧ (body j).run args b' t = (.panic p, b', t))
    (hsize : n ≤ b.size cell) (hstart : b.Filled b₀ cell start f) {count : Nat}
    (hcount : start + count = n) :
    (∃ b', (sweep body count start).run args b₀ t = (.ok (), b', t) ∧ b.Filled b' cell n f ∧
      ∀ j, start ≤ j → j < n → Serves j) ∨
    ∃ j p b', (sweep body count start).run args b₀ t = (.panic p, b', t) ∧
      b.Filled b' cell j f ∧ start ≤ j ∧ j < n ∧ Breaks j p ∧
      ∀ k, start ≤ k → k < j → Serves k := by
  induction count generalizing start b₀ with
  | zero =>
    obtain rfl : start = n := hcount
    exact .inl ⟨b₀, rfl, hstart, fun j hj hlt => absurd hlt (Nat.not_lt.mpr hj)⟩
  | succ count ih =>
    have hlt : start < n := by omega
    rcases hround start b₀ (Nat.le_refl _) hlt hstart with ⟨hserves, hrun⟩ | ⟨p, hbreaks, hrun⟩
    · -- the round is done, and the others go on from there
      have hrest : (sweep body (count + 1) start).run args b₀ t =
          (sweep body count (start + 1)).run args (b₀.put cell start (f start)) t :=
        run_bind_of_ok hrun
      have hfrom {P : Nat → Prop} (h : ∀ k, start + 1 ≤ k → P k → Serves k) :
          ∀ k, start ≤ k → P k → Serves k := by
        intro k hk hP
        rcases Nat.eq_or_lt_of_le hk with rfl | hk
        · exact hserves
        · exact h k hk hP
      rw [hrest]
      rcases ih (fun j b' hj => hround j b' (Nat.le_of_succ_le hj))
        (hstart.put (Nat.lt_of_lt_of_le hlt hsize)) (by omega) with
        ⟨b', hb', hfilled, hall⟩ | ⟨j, p, b', hb', hfilled, hj, hjn, hbreaks, hbefore⟩
      · exact .inl ⟨b', hb', hfilled, hfrom hall⟩
      · exact .inr ⟨j, p, b', hb', hfilled, Nat.le_of_succ_le hj, hjn, hbreaks, hfrom hbefore⟩
    · refine .inr ⟨start, p, b₀, run_bind_of_panic hrun, hstart, Nat.le_refl _, hlt, hbreaks, ?_⟩
      intro k hk hlt
      omega

end Routine

end InferenceEngine
