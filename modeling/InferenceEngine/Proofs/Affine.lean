import InferenceEngine.Kernel.Reduction
import InferenceEngine.Proofs.Sweeps

/-!
# The dense kernel computes an affine map

`Kernels.dense` takes a vector, a matrix that lies row by row in a weight, and a bias.
`Kernels.dense_exact` is the main statement: it sets every element of its output to the product of
its column, added up in the order of the rows, plus its bias; and when the matrix or the bias is too
short it is broken off at the first column that something is missing for.

* `Kernels.run_dotColumn` — the sum over the rows of one column, by induction over the rows that are
  left. The sum so far is the invariant.
* `Kernels.run_column` — one round of the loop over the columns; `Routine.run_sweep` does the rest.
-/

namespace InferenceEngine.Kernels

/-! ## What is computed -/

/-- The products of the first rows with column `j` of a matrix with `n` columns, added up from
negative zero in the order of the rows. -/
def columnSum (xs : List Single) (w : Array Single) (n j : Nat) : Nat → Single
  | 0 => .negativeZero
  | i + 1 => columnSum xs w n j i + xs.getD i .zero * w.getD (i * n + j) .zero

/-- The affine map with a matrix of `n` columns and a bias, at column `j`. -/
def affine (xs : List Single) (w c : Array Single) (n j : Nat) : Single :=
  columnSum xs w n j xs.length + c.getD j .zero

/-- Everything is there that column `j` needs: its weight in each of `m` rows, and its bias. -/
def Serves (m n : Nat) (w c : Array Single) (j : Nat) : Prop :=
  (∀ i < m, i * n + j < w.size) ∧ j < c.size

/-- What is missing first for column `j`. -/
inductive Lacks (m n : Nat) (w c : Array Single) (j : Nat) : Panic → Prop
  /-- the weight in row `i`, when those in the rows before are there -/
  | weight {i : Nat} (hi : i < m) (hbefore : ∀ k < i, k * n + j < w.size)
    (h : w.size ≤ i * n + j) : Lacks m n w c j (.outOfBounds w.size (i * n + j))
  /-- the bias, when all weights are there -/
  | bias (hrows : ∀ i < m, i * n + j < w.size) (h : c.size ≤ j) :
    Lacks m n w c j (.outOfBounds c.size j)

theorem Lacks.not_serves {m n j : Nat} {w c : Array Single} {p : Panic} (h : Lacks m n w c j p) :
    ¬ Serves m n w c j := by
  rintro ⟨hrows, hbias⟩
  cases h with
  | weight hi _ h => exact Nat.not_lt.mpr h (hrows _ hi)
  | bias _ h => exact Nat.not_lt.mpr h hbias

/-- Columns are served if the matrix and the bias are long enough. -/
theorem serves_of_le {m n j : Nat} {w c : Array Single} (hw : m * n ≤ w.size) (hc : n ≤ c.size)
    (hj : j < n) : Serves m n w c j := by
  constructor
  · intro i hi
    calc i * n + j < i * n + n := Nat.add_lt_add_left hj _
      _ = (i + 1) * n := (Nat.succ_mul i n).symm
      _ ≤ m * n := Nat.mul_le_mul_right n hi
      _ ≤ w.size := hw
  · exact Nat.lt_of_lt_of_le hj hc

/-- If all are, the matrix and the bias are: the last column needs the last elements. -/
theorem le_of_serves {m n : Nat} {w c : Array Single} (h : ∀ j < n, Serves m n w c j) :
    m * n ≤ w.size ∧ n ≤ c.size := by
  cases n with
  | zero => simp
  | succ n =>
    obtain ⟨hrows, hbias⟩ := h n (Nat.lt_succ_self n)
    refine ⟨?_, hbias⟩
    cases m with
    | zero => simp
    | succ m =>
      have hlast := hrows m (Nat.lt_succ_self m)
      rw [Nat.succ_mul]
      omega

/-! ## A call -/

/-- A call of the kernel: an input and an output in different buffers, a matrix and a bias. -/
structure DenseCall (args : Args) (b : Bank) (x y : View) (w c : Array Single) : Prop where
  /-- the input -/
  input : args.inputs[0]? = some x
  /-- the output -/
  output : args.outputs[0]? = some y
  /-- the matrix -/
  matrix : args.weights[0]? = some w
  /-- the bias -/
  bias : args.weights[1]? = some c
  /-- the views are of different buffers -/
  apart : x.cell ≠ y.cell
  /-- the input has the length of its buffer -/
  input_size : b.size x.cell = x.size
  /-- so has the output -/
  output_size : b.size y.cell = y.size

/-- Views of two variables lie in different buffers, if the variables have different names. -/
theorem denseCall_of_views {args : Args} {vars : Variables} {x y : View} {w c : Array Single}
    (hx : x ∈ vars.views) (hy : y ∈ vars.views) (hname : x.name ≠ y.name)
    (hinputs : args.inputs[0]? = some x) (houtputs : args.outputs[0]? = some y)
    (hmatrix : args.weights[0]? = some w) (hbias : args.weights[1]? = some c) :
    DenseCall args vars.bank x y w c := by
  obtain ⟨hnameX, hsizeX⟩ := Variables.mem_views.mp hx
  obtain ⟨hnameY, hsizeY⟩ := Variables.mem_views.mp hy
  refine ⟨hinputs, houtputs, hmatrix, hbias, ?_, hsizeX.symm, hsizeY.symm⟩
  intro hcell
  rw [View.Names, hcell] at hnameX
  exact hname (Option.some.inj (hnameX.symm.trans hnameY))

theorem DenseCall.length_elements {args : Args} {b : Bank} {x y : View} {w c : Array Single}
    (h : DenseCall args b x y w c) : (x.elements b).length = x.size := by
  rw [View.elements, Bank.length_elements, h.input_size]

/-- What is done for one column. -/
def column (x y : Operand) (w c : Array Single) (j : Nat) : Routine Unit := do
  let acc ← dotColumn x w y.size j x.size 0 .negativeZero
  let bias ← weightAt c j
  y.set j (acc + bias)

/-- A call goes through the columns. -/
theorem dense_eq {args : Args} {b : Bank} {x y : View} {w c : Array Single}
    (h : DenseCall args b x y w c) :
    dense args = .sweep (column ⟨.input 0, x⟩ ⟨.output 0, y⟩ w c) y.size 0 := by
  rw [dense, Args.input_eq h.input]
  show (args.weight 0 >>= _) = _
  rw [Args.weight_eq h.matrix]
  show (args.weight 1 >>= _) = _
  rw [Args.weight_eq h.bias]
  show (args.output 0 >>= _) = _
  rw [Args.output_eq h.output]
  rfl

/-! ## One column -/

section Columns

variable {args : Args} {b b' : Bank} {x y : View} {w c : Array Single} {xs : List Single}
  {m n i j : Nat} {t : Thread}

/-- The sum over the rows that are left, or the first row whose weight is missing. -/
theorem run_dotColumn {o : Operand} (hpin : o.pin.view? args = some o.view)
    (hread : ∀ i < m, b.get? o.view.cell i = some (xs.getD i .zero)) {count : Nat}
    (hcount : i + count = m) (hbefore : ∀ k < i, k * n + j < w.size) :
    ((∀ k < m, k * n + j < w.size) ∧
      (dotColumn o w n j count i (columnSum xs w n j i)).run args b t =
        (.ok (columnSum xs w n j m), b, t)) ∨
    ∃ k < m, (∀ k' < k, k' * n + j < w.size) ∧ w.size ≤ k * n + j ∧
      (dotColumn o w n j count i (columnSum xs w n j i)).run args b t =
        (.panic (.outOfBounds w.size (k * n + j)), b, t) := by
  induction count generalizing i with
  | zero =>
    obtain rfl : i = m := hcount
    exact .inl ⟨hbefore, rfl⟩
  | succ count ih =>
    have hi : i < m := by omega
    have hget := Operand.run_get hpin (hread i hi) t
    -- the element of the input is always there: only the weight can be missing
    have hfirst : (dotColumn o w n j (count + 1) i (columnSum xs w n j i)).run args b t =
        (weightAt w (i * n + j) >>= fun weight =>
          dotColumn o w n j count (i + 1)
            (columnSum xs w n j i + xs.getD i .zero * weight)).run args b t :=
      Routine.run_bind_of_ok hget
    rw [hfirst]
    by_cases hw : i * n + j < w.size
    · rw [Routine.run_bind_of_ok (run_weightAt_of_lt hw b t)]
      apply ih (by omega)
      intro k hk
      rcases Nat.lt_succ_iff_lt_or_eq.mp hk with hk | rfl
      · exact hbefore k hk
      · exact hw
    · have hle := Nat.le_of_not_lt hw
      exact .inr ⟨i, hi, hbefore, hle, Routine.run_bind_of_panic (run_weightAt_of_le hle b t)⟩

/-- One round sets the element of its column, or is broken off by what is missing first. -/
theorem run_column (h : DenseCall args b x y w c) (hj : j < y.size)
    (hfilled : b.Filled b' y.cell j (affine (x.elements b) w c y.size)) :
    (Serves x.size y.size w c j ∧
      (column ⟨.input 0, x⟩ ⟨.output 0, y⟩ w c j).run args b' t =
        (.ok (), b'.put y.cell j (affine (x.elements b) w c y.size j), t)) ∨
    ∃ p, Lacks x.size y.size w c j p ∧
      (column ⟨.input 0, x⟩ ⟨.output 0, y⟩ w c j).run args b' t = (.panic p, b', t) := by
  -- the input still holds what it held before the call
  have hread : ∀ i < x.size, b'.get? x.cell i = some ((x.elements b).getD i .zero) := by
    intro i hi
    have hlt : i < (x.elements b).length := by rwa [h.length_elements]
    rw [hfilled.get?_other h.apart, ← Bank.getElem?_elements]
    change (x.elements b)[i]? = _
    simp [hlt]
  have hinput : Pin.view? args (.input 0) = some x := h.input
  have houtput : Pin.view? args (.output 0) = some y := h.output
  rcases run_dotColumn (o := ⟨.input 0, x⟩) (w := w) (n := y.size) (j := j) (t := t) hinput hread
    (Nat.zero_add x.size) nofun with ⟨hrows, hsum⟩ | ⟨i, hi, hbefore, hle, hbreak⟩
  · by_cases hc : j < c.size
    · have hlt : j < b'.size y.cell := by
        rw [hfilled.size (h.output_size ▸ Nat.le_of_lt hj), h.output_size]
        exact hj
      have hset := Operand.run_set (o := ⟨.output 0, y⟩) houtput hlt
      refine .inl ⟨⟨hrows, hc⟩, ?_⟩
      rw [affine, h.length_elements]
      exact (Routine.run_bind_of_ok hsum).trans
        ((Routine.run_bind_of_ok (run_weightAt_of_lt hc b' t)).trans (hset _ t))
    · have hle := Nat.le_of_not_lt hc
      refine .inr ⟨_, .bias hrows hle, ?_⟩
      exact (Routine.run_bind_of_ok hsum).trans
        (Routine.run_bind_of_panic (run_weightAt_of_le hle b' t))
  · exact .inr ⟨_, .weight hi hbefore hle, Routine.run_bind_of_panic hbreak⟩

/-! ## All columns -/

/-- **The dense kernel computes the affine map.** Let the kernel be called with an input of `m`
elements, an output of `n` elements in another buffer, a matrix and a bias.

* If the matrix has `m * n` elements and the bias has `n`, or more, the call succeeds, and every
  element of the output is the affine map at its column.
* If one of them is too short, the call is broken off at the first column that something is missing
  for, with the index that is out of bounds: that of the first missing weight of the column, or that
  of its bias. The elements before the column are set and those from it on are not.

No other buffer changes, the input among them. -/
theorem dense_exact (h : DenseCall args b x y w c) (t : Thread) :
    let m := x.size
    let n := y.size
    let f := affine (x.elements b) w c n
    (m * n ≤ w.size → n ≤ c.size →
      ∃ b', (dense args).run args b t = (.ok (), b', t) ∧ b.Filled b' y.cell n f ∧
        y.elements b' = (List.range n).map f) ∧
    (w.size < m * n ∨ c.size < n →
      ∃ j < n, ∃ p b', (dense args).run args b t = (.panic p, b', t) ∧ b.Filled b' y.cell j f ∧
        Lacks m n w c j p ∧ ∀ k < j, Serves m n w c k) := by
  intro m n f
  rw [dense_eq h]
  have hrun := Routine.run_sweep (t := t) (fun j b' _ => run_column h)
    (Nat.le_of_eq h.output_size.symm) (.refl b y.cell f) (Nat.zero_add y.size)
  -- the sweep has come to its end, or it stopped at the first column that lacks something
  rcases hrun with ⟨b', hrun, hfilled, hall⟩ | ⟨j, p, b', hrun, hfilled, -, hj, hlacks, hbefore⟩
  · refine ⟨fun _ _ => ⟨b', hrun, hfilled, hfilled.elements_of_size h.output_size⟩, ?_⟩
    intro hshort
    obtain ⟨hw, hc⟩ := le_of_serves fun j hj => hall j (Nat.zero_le j) hj
    rcases hshort with hshort | hshort
    · exact absurd hshort (Nat.not_lt.mpr hw)
    · exact absurd hshort (Nat.not_lt.mpr hc)
  · refine ⟨?_, ?_⟩
    · intro hw hc
      exact absurd (serves_of_le hw hc hj) hlacks.not_serves
    · intro _
      exact ⟨j, hj, p, b', hrun, hfilled, hlacks, fun k => hbefore k (Nat.zero_le k)⟩

end Columns

/-- Two variables, of which the second holds something. -/
def pair : Variables := ⟨["x", "y"], [#[.one], #[.zero, .one]]⟩

/-- A call on them with one row, two columns and a bias for one of them. -/
def scant : Args where
  inputs := [⟨"x", 0, 1⟩]
  outputs := [⟨"y", 1, 2⟩]
  weights := [#[.one, .zero], #[.one]]
  option := .default

/-- The first column is computed, and for the second one there is no bias: its element keeps what it
held. -/
theorem dense_exact_scant :
    DenseCall scant pair.bank ⟨"x", 0, 1⟩ ⟨"y", 1, 2⟩ #[.one, .zero] #[.one] ∧
      ∃ b, (dense scant).run scant pair.bank Runner.quiet =
          (.panic (.outOfBounds 1 1), b, Runner.quiet) ∧
        b.elements 1 = [affine [.one] #[.one, .zero] #[.one] 2 0, .one] := by
  have hcall : DenseCall scant pair.bank ⟨"x", 0, 1⟩ ⟨"y", 1, 2⟩ #[.one, .zero] #[.one] :=
    denseCall_of_views (by decide) (by decide) (by decide) rfl rfl rfl rfl
  obtain ⟨-, hshort⟩ := dense_exact hcall Runner.quiet
  obtain ⟨j, hj, p, b, hrun, hfilled, hlacks, -⟩ := hshort (.inr (by decide))
  have hrows : ∀ j < 2, ∀ i < 1, i * 2 + j < 2 := by decide
  have hsecond : j = 1 := by
    have hfirst : j ≠ 0 := by
      rintro rfl
      exact hlacks.not_serves ⟨hrows 0 (by decide), by decide⟩
    change j < 2 at hj
    omega
  obtain rfl := hsecond
  cases hlacks with
  | weight hi _ hle => exact absurd (hrows 1 (by decide) _ hi) (Nat.not_lt.mpr hle)
  | bias => exact ⟨hcall, b, hrun, hfilled.elements⟩

end InferenceEngine.Kernels
