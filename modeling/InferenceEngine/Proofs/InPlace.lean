import InferenceEngine.Kernel.Elementwise
import InferenceEngine.Proofs.Sweeps

/-!
# Element-wise kernels are safe in place

`Kernels.copy`, `Kernels.relu`, `Kernels.scale` and `Kernels.addBias` go through their output and
set each element from the one of the input at the same place. Input and output may be one variable.
`Elementwise.calls_exact` is the main statement: what is computed comes from what the input held
*before* the call, in place or not; and an input or a bias that is too short breaks the call off at
its end, with the elements before it set.

* `Elementwise` — the four kernels, each with what it takes from its option or its weight.
* `Elementwise.run_turn` — one round of the loop. What makes it safe in place is
  `Bank.Filled.get?_ahead`: the place that is read next has not been written yet.
* `Elementwise.run_of_le`, `Elementwise.run_of_lt` — the call, by `Routine.run_sweep`.
-/

namespace InferenceEngine.Kernels

/-! ## The kernels -/

/-- An element-wise kernel, with what a call gives it beside its input. -/
inductive Elementwise
  /-- passes every element on -/
  | copy
  /-- cuts off what is below zero -/
  | relu
  /-- multiplies by a factor -/
  | scale (factor : Single)
  /-- adds the elements of a weight -/
  | addBias (bias : Array Single)

namespace Elementwise

/-- The kernel itself. -/
def kernel : Elementwise → Kernel
  | copy => Kernels.copy
  | relu => Kernels.relu
  | scale _ => Kernels.scale
  | addBias _ => Kernels.addBias

/-- What it makes of an element at a place. -/
def apply : Elementwise → Nat → Single → Single
  | copy, _, x => x
  | relu, _, x => x.rectify
  | scale factor, _, x => x * factor
  | addBias bias, i, x => x + bias.getD i .zero

/-- How many places an input of `m` elements serves: all of its own, up to the end of the bias if
one is read along. -/
def reach : Elementwise → Nat → Nat
  | addBias bias, m => min m bias.size
  | _, m => m

/-- A call gives the kernel what it takes beside its input: a number under `scale` in the option,
rounded to single precision, or a first weight. -/
def Given (args : Args) : Elementwise → Prop
  | scale factor =>
    ∃ a, args.option.get? "scale" = some (.number a) ∧ factor = .ofDouble a.toDouble
  | addBias bias => args.weights[0]? = some bias
  | _ => True

/-- A call of an element-wise kernel, from the buffer of `x` to the buffer of `y`, which may be the
same. -/
structure Call (r : Elementwise) (args : Args) (b : Bank) (x y : View) : Prop where
  /-- the input -/
  input : args.inputs[0]? = some x
  /-- the output -/
  output : args.outputs[0]? = some y
  /-- the factor or the bias -/
  given : r.Given args
  /-- the input has the length of its buffer -/
  input_size : b.size x.cell = x.size
  /-- so has the output -/
  output_size : b.size y.cell = y.size

/-- The first `k` elements of the output come from what the input held before, and nothing else has
changed. -/
structure Written (r : Elementwise) (x y : View) (b b' : Bank) (k : Nat) : Prop where
  /-- the elements that are set -/
  before : ∀ i < k, b'.get? y.cell i = (b.get? x.cell i).map (r.apply i)
  /-- those behind them -/
  behind : ∀ i, k ≤ i → b'.get? y.cell i = b.get? y.cell i
  /-- every other buffer is as it was -/
  others : ∀ other, other ≠ y.cell → b'[other]? = b[other]?

variable {r : Elementwise} {args : Args} {b b' : Bank} {x y : View} {m i k : Nat} {t : Thread}

/-- Any two views of variables will do, also twice the same one. -/
theorem call_of_views {vars : Variables} (hx : x ∈ vars.views) (hy : y ∈ vars.views)
    (hinput : args.inputs[0]? = some x) (houtput : args.outputs[0]? = some y)
    (hgiven : r.Given args) : r.Call args vars.bank x y :=
  ⟨hinput, houtput, hgiven, (Variables.mem_views.mp hx).2.symm, (Variables.mem_views.mp hy).2.symm⟩

theorem Call.length_elements (h : r.Call args b x y) : (x.elements b).length = x.size := by
  rw [View.elements, Bank.length_elements, h.input_size]

/-- An input that is shorter than the output is another buffer. -/
theorem Call.apart (h : r.Call args b x y) (hlt : x.size < y.size) : x.cell ≠ y.cell := by
  intro hcell
  have hsize : x.size = y.size := by rw [← h.input_size, hcell, h.output_size]
  omega

theorem reach_le (r : Elementwise) (m : Nat) : r.reach m ≤ m := by
  cases r with
  | addBias bias => exact Nat.min_le_left m bias.size
  | _ => exact Nat.le_refl m

/-! ## A call as a loop -/

/-- The routine for an element at a place. -/
def routine : Elementwise → Nat → Single → Routine Single
  | addBias bias, i, x => do
    let b ← weightAt bias i
    return x + b
  | r, i, x => .done (r.apply i x)

/-- What is done for one place. -/
def turn (r : Elementwise) (x y : View) (i : Nat) : Routine Unit := do
  let v ← Operand.get ⟨.input 0, x⟩ i
  let v ← r.routine i v
  Operand.set ⟨.output 0, y⟩ i v

theorem scaleFactor_of_number {option : CallOption} {a : Json.Number}
    (h : option.get? "scale" = some (.number a)) :
    scaleFactor option = .ok (.ofDouble a.toDouble) := by
  rw [scaleFactor, h]
  rfl

/-- A call goes through the places of the output. -/
theorem kernel_eq (h : r.Call args b x y) : r.kernel args = .sweep (r.turn x y) y.size 0 := by
  have hmap (f : Nat → Single → Routine Single) :
      (do
        let src ← args.input 0
        let dst ← args.output 0
        mapInto f src dst) = mapInto f ⟨.input 0, x⟩ ⟨.output 0, y⟩ := by
    rw [Args.input_eq h.input, Args.output_eq h.output]
    rfl
  cases r with
  | copy => exact hmap _
  | relu => exact hmap _
  | scale factor =>
    obtain ⟨a, hoption, rfl⟩ := h.given
    rw [kernel, Kernels.scale, scaleFactor_of_number hoption]
    exact hmap _
  | addBias bias =>
    rw [kernel, Kernels.addBias, Args.input_eq h.input, Args.weight_eq h.given,
      Args.output_eq h.output]
    rfl

/-! ## One place -/

/-- What is missing for a place. -/
inductive Lacks : Elementwise → Nat → Nat → Panic → Prop
  /-- the element of the input -/
  | input {r : Elementwise} {m i : Nat} (h : m ≤ i) : Lacks r m i (.outOfBounds m i)
  /-- the element of the bias, when the one of the input is there -/
  | bias {bias : Array Single} {m i : Nat} (hi : i < m) (h : bias.size ≤ i) :
    Lacks (addBias bias) m i (.outOfBounds bias.size i)

/-- The first place for which something is missing is the one behind those that are served, and the
index is also the length of what ends there. -/
theorem Lacks.first {p : Panic} (h : r.Lacks m i p) (hi : i ≤ r.reach m) :
    i = r.reach m ∧ p = .outOfBounds i i := by
  cases h with
  | input hm =>
    have hreach := r.reach_le m
    obtain rfl : m = i := by omega
    exact ⟨Nat.le_antisymm hi hreach, rfl⟩
  | @bias c _ _ hlt hc =>
    change i ≤ min m c.size at hi
    obtain rfl : c.size = i := by omega
    exact ⟨(Nat.min_eq_right (Nat.le_of_lt hlt)).symm, rfl⟩

/-- The routine for an element that is there. -/
theorem run_routine (r : Elementwise) (args : Args) (hi : i < m) (v : Single) (b : Bank)
    (t : Thread) :
    (i < r.reach m ∧ (r.routine i v).run args b t = (.ok (r.apply i v), b, t)) ∨
      ∃ p, r.Lacks m i p ∧ (r.routine i v).run args b t = (.panic p, b, t) := by
  cases r with
  | addBias c =>
    by_cases hc : i < c.size
    · exact .inl ⟨Nat.lt_min.mpr ⟨hi, hc⟩, Routine.run_bind_of_ok (run_weightAt_of_lt hc b t)⟩
    · have hle := Nat.le_of_not_lt hc
      exact .inr ⟨_, .bias hi hle, Routine.run_bind_of_panic (run_weightAt_of_le hle b t)⟩
  | _ => exact .inl ⟨hi, rfl⟩

/-- What the output is filled with, by place. -/
def filling (r : Elementwise) (x : View) (b : Bank) (i : Nat) : Single :=
  r.apply i ((x.elements b).getD i .zero)

/-- The input has at its next place what it had before the call, in place or not. -/
theorem get?_input (h : r.Call args b x y) (hfilled : b.Filled b' y.cell i (r.filling x b))
    (hi : i < x.size) : b'.get? x.cell i = some ((x.elements b).getD i .zero) := by
  rw [hfilled.get?_ahead (Nat.le_refl i)]
  exact Bank.get?_of_lt (h.input_size.symm ▸ hi)

/-- One round sets the element of its place, or is broken off by what is missing for it. -/
theorem run_turn (h : r.Call args b x y) (hi : i < y.size)
    (hfilled : b.Filled b' y.cell i (r.filling x b)) :
    (i < r.reach x.size ∧
      (r.turn x y i).run args b' t = (.ok (), b'.put y.cell i (r.filling x b i), t)) ∨
    ∃ p, r.Lacks x.size i p ∧ (r.turn x y i).run args b' t = (.panic p, b', t) := by
  have hinput : Pin.view? args (.input 0) = some x := h.input
  have houtput : Pin.view? args (.output 0) = some y := h.output
  have houtputSize : b'.size y.cell = y.size := by
    rw [hfilled.size (h.output_size ▸ Nat.le_of_lt hi), h.output_size]
  by_cases hx : i < x.size
  · have hget := Operand.run_get (o := ⟨.input 0, x⟩) hinput (get?_input h hfilled hx) t
    rcases r.run_routine args hx ((x.elements b).getD i .zero) b' t with
      ⟨hserved, hrun⟩ | ⟨p, hlacks, hrun⟩
    · have hset := Operand.run_set (o := ⟨.output 0, y⟩) houtput (houtputSize.symm ▸ hi)
      exact .inl ⟨hserved, (Routine.run_bind_of_ok hget).trans
        ((Routine.run_bind_of_ok hrun).trans (hset _ t))⟩
    · exact .inr ⟨p, hlacks, (Routine.run_bind_of_ok hget).trans (Routine.run_bind_of_panic hrun)⟩
  · -- an output longer than the input is another variable, so the input is as long as it was
    have hle := Nat.le_of_not_lt hx
    have hcell := h.apart (Nat.lt_of_le_of_lt hle hi)
    have hsize : b'.size x.cell = x.size := by rw [hfilled.size_other hcell, h.input_size]
    have hget := Operand.run_get_of_le (o := ⟨.input 0, x⟩) (b := b') hinput (hsize.symm ▸ hle) t
    rw [hsize] at hget
    exact .inr ⟨_, .input hle, Routine.run_bind_of_panic hget⟩

/-! ## All places -/

theorem written_of_filled (h : r.Call args b x y) (hfilled : b.Filled b' y.cell k (r.filling x b))
    (hk : k ≤ x.size) : r.Written x y b b' k := by
  constructor
  · intro i hi
    have hlt : i < b.size x.cell := by
      rw [h.input_size]
      exact Nat.lt_of_lt_of_le hi hk
    rw [hfilled.get?_before hi, Bank.get?_of_lt hlt]
    rfl
  · intro i hi
    exact hfilled.get?_ahead hi y.cell
  · exact hfilled.others

/-- A call either serves its whole output, or is broken off behind the last place that is served. -/
theorem run_cases (h : r.Call args b x y) (t : Thread) :
    (y.size ≤ r.reach x.size ∧
      ∃ b', (r.kernel args).run args b t = (.ok (), b', t) ∧
        b.Filled b' y.cell y.size (r.filling x b)) ∨
    (r.reach x.size < y.size ∧
      ∃ b', (r.kernel args).run args b t =
          (.panic (.outOfBounds (r.reach x.size) (r.reach x.size)), b', t) ∧
        b.Filled b' y.cell (r.reach x.size) (r.filling x b)) := by
  rw [kernel_eq h]
  have hrun := Routine.run_sweep (t := t) (fun i b' _ => run_turn h)
    (Nat.le_of_eq h.output_size.symm) (.refl b y.cell (r.filling x b)) (Nat.zero_add y.size)
  rcases hrun with ⟨b', hrun, hfilled, hall⟩ | ⟨i, p, b', hrun, hfilled, -, hi, hlacks, hbefore⟩
  · -- every place was served, the last one among them
    have hle : y.size ≤ r.reach x.size :=
      Nat.le_of_not_lt fun hlt => Nat.lt_irrefl _ (hall _ (Nat.zero_le _) hlt)
    exact .inl ⟨hle, b', hrun, hfilled⟩
  · -- all before the place where it stopped were served, so this is the first that is not
    have hle : i ≤ r.reach x.size :=
      Nat.le_of_not_lt fun hlt => Nat.lt_irrefl _ (hbefore _ (Nat.zero_le _) hlt)
    obtain ⟨rfl, rfl⟩ := hlacks.first hle
    exact .inr ⟨hi, b', hrun, hfilled⟩

theorem run_of_le (h : r.Call args b x y) (hle : y.size ≤ r.reach x.size) (t : Thread) :
    ∃ b', (r.kernel args).run args b t = (.ok (), b', t) ∧
      b.Filled b' y.cell y.size (r.filling x b) := by
  rcases run_cases h t with ⟨-, hrun⟩ | ⟨hlt, -⟩
  · exact hrun
  · exact absurd hle (Nat.not_le.mpr hlt)

theorem run_of_lt (h : r.Call args b x y) (hlt : r.reach x.size < y.size) (t : Thread) :
    ∃ b', (r.kernel args).run args b t =
        (.panic (.outOfBounds (r.reach x.size) (r.reach x.size)), b', t) ∧
      b.Filled b' y.cell (r.reach x.size) (r.filling x b) := by
  rcases run_cases h t with ⟨hle, -⟩ | ⟨-, hrun⟩
  · exact absurd hle (Nat.not_le.mpr hlt)
  · exact hrun

/-- **Element-wise kernels are safe in place.** Let one of them be called with its factor or its
bias, an input and an output, which may be the same variable or two.

* If the input and the bias are as long as the output, or longer, the call succeeds. Every element
  of the output is what the kernel makes of the element that the input held at this place before
  the call. So a call that works in place leaves what any other call leaves whose input is a copy,
  whether in the same buffers or others.
* If one of them is shorter, the call is broken off at the end of the shorter one, with its length
  as the index that is out of bounds. The elements of the output before that place are set and those
  from it on are not.

No other buffer changes. -/
theorem calls_exact (h : r.Call args b x y) (t : Thread) :
    let n := y.size
    let limit := r.reach x.size
    (n ≤ limit →
      ∃ b', (r.kernel args).run args b t = (.ok (), b', t) ∧ r.Written x y b b' n ∧
        ∀ (args' : Args) (c : Bank) (u v : View) (t' : Thread), r.Call args' c u v →
          u.elements c = x.elements b → v.size = n →
          ∃ c', (r.kernel args').run args' c t' = (.ok (), c', t') ∧
            v.elements c' = y.elements b') ∧
    (limit < n →
      ∃ b', (r.kernel args).run args b t = (.panic (.outOfBounds limit limit), b', t) ∧
        r.Written x y b b' limit) := by
  intro n limit
  have hlimit : limit ≤ x.size := r.reach_le x.size
  constructor
  · intro hle
    obtain ⟨b', hrun, hfilled⟩ := run_of_le h hle t
    refine ⟨b', hrun, written_of_filled h hfilled (Nat.le_trans hle hlimit), ?_⟩
    intro args' c u v t' h' hcopy hsize
    -- the other call serves as much, and its elements are computed from the same input
    have hinput : u.size = x.size := by rw [← h'.length_elements, hcopy, h.length_elements]
    have hserved : v.size ≤ r.reach u.size := by rwa [hinput, hsize]
    obtain ⟨c', hrun', hfilled'⟩ := run_of_le h' hserved t'
    have hvalues : r.filling u c = r.filling x b := by
      funext i
      rw [filling, filling, hcopy]
    refine ⟨c', hrun', ?_⟩
    calc v.elements c'
      _ = (List.range v.size).map (r.filling u c) := hfilled'.elements_of_size h'.output_size
      _ = (List.range y.size).map (r.filling x b) := by rw [hsize, hvalues]
      _ = y.elements b' := (hfilled.elements_of_size h.output_size).symm
  · intro hlt
    obtain ⟨b', hrun, hfilled⟩ := run_of_lt h hlt t
    exact ⟨b', hrun, written_of_filled h hfilled hlimit⟩

/-- Two variables with the same elements. -/
def twins : Variables := ⟨["u", "v"], [#[.one, .zero], #[.one, .zero]]⟩

/-- The view of the first one. -/
def firstTwin : View := ⟨"u", 0, 2⟩

/-- The view of the second one. -/
def secondTwin : View := ⟨"v", 1, 2⟩

/-- A call from a view to the second one, with a bias for one element and three as the factor. -/
def toSecond (x : View) : Args where
  inputs := [x]
  outputs := [secondTwin]
  weights := [#[.one]]
  option := {
    value := .object [("scale", .number (.integer 3 (by decide)))]
    canonical := .object (by decide) (by simp [Json.Canonical.number]) }

/-- That factor, as an element. -/
def three : Single := .ofDouble (.ofInt 3)

/-- In place the second twin is tripled as it is from the first one. The bias is added to its first
element, and the second element, for which there is none, keeps what it held. -/
theorem calls_exact_in_place :
    (scale three).Call (toSecond secondTwin) twins.bank secondTwin secondTwin ∧
    (scale three).Call (toSecond firstTwin) twins.bank firstTwin secondTwin ∧
    (∃ b c, ((scale three).kernel (toSecond secondTwin)).run (toSecond secondTwin) twins.bank
          Runner.quiet = (.ok (), b, Runner.quiet) ∧
        b.get? 1 0 = some (.one * three) ∧ b.get? 1 1 = some (.zero * three) ∧
        ((scale three).kernel (toSecond firstTwin)).run (toSecond firstTwin) twins.bank
          Runner.quiet = (.ok (), c, Runner.quiet) ∧
        c.elements 1 = b.elements 1) ∧
    (addBias #[.one]).Call (toSecond secondTwin) twins.bank secondTwin secondTwin ∧
    ∃ b, ((addBias #[.one]).kernel (toSecond secondTwin)).run (toSecond secondTwin) twins.bank
        Runner.quiet = (.panic (.outOfBounds 1 1), b, Runner.quiet) ∧
      b.get? 1 0 = some (.one + .one) ∧ b.get? 1 1 = some .zero := by
  have hfactor (x : View) : (scale three).Given (toSecond x) := ⟨.integer 3 (by decide), rfl, rfl⟩
  have hinPlace : (scale three).Call (toSecond secondTwin) twins.bank secondTwin secondTwin :=
    call_of_views (by decide) (by decide) rfl rfl (hfactor _)
  have hcopied : (scale three).Call (toSecond firstTwin) twins.bank firstTwin secondTwin :=
    call_of_views (by decide) (by decide) rfl rfl (hfactor _)
  have hbiased : (addBias #[.one]).Call (toSecond secondTwin) twins.bank secondTwin secondTwin :=
    call_of_views (by decide) (by decide) rfl rfl rfl
  refine ⟨hinPlace, hcopied, ?_, hbiased, ?_⟩
  · obtain ⟨htripled, -⟩ := calls_exact hinPlace Runner.quiet
    obtain ⟨b, hrun, hwritten, hcopies⟩ := htripled (Nat.le_refl 2)
    obtain ⟨c, hcopy, helements⟩ := hcopies _ _ _ _ Runner.quiet hcopied rfl rfl
    exact ⟨b, c, hrun, hwritten.before 0 (by decide), hwritten.before 1 (by decide), hcopy,
      helements⟩
  · obtain ⟨-, hshort⟩ := calls_exact hbiased Runner.quiet
    obtain ⟨b, hrun, hwritten⟩ := hshort (by decide)
    exact ⟨b, hrun, hwritten.before 0 (by decide), hwritten.behind 1 (by decide)⟩

end Elementwise

end InferenceEngine.Kernels
