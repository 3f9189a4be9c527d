import InferenceEngine.Kernel.Routine

/-!
# Kernels that add up

Sums are taken in a fixed order, one rounding an addition.
-/

namespace InferenceEngine.Kernels

/-- The sum over the input, starting from `acc`, of element times weight, for one column of a
row-major matrix with `columns` columns. -/
def dotColumn (x : Operand) (w : Array Single) (columns column : Nat) :
    Nat → Nat → Single → Routine Single
  | 0, _, acc => .done acc
  | count + 1, i, acc => do
    let a ← x.get i
    let b ← weightAt w (i * columns + column)
    dotColumn x w columns column count (i + 1) (acc + a * b)

/-- `y[j] = sum_i x[i] * w[i * n + j] + b[j]`, where `n` is the length of `y`. -/
def dense : Kernel := fun args => do
  let x ← args.input 0
  let w ← args.weight 0
  let b ← args.weight 1
  let y ← args.output 0
  .sweep (fun j => do
    -- a sum over nothing is minus zero, which leaves any bias as it is
    let acc ← dotColumn x w y.size j x.size 0 .negativeZero
    let c ← weightAt b j
    y.set j (acc + c)) y.size 0

/-- The sum of a list, starting from `acc`. -/
def total (acc : Single) (xs : List Single) : Single := xs.foldl (· + ·) acc

/-- The sum over the inputs from a place on, starting from `acc`. -/
def totalInputs (args : Args) : Nat → Nat → Single → Routine Single
  | 0, _, acc => .done acc
  | count + 1, i, acc => do
    let x ← args.input i
    let xs ← x.elements
    totalInputs args count (i + 1) (total acc xs)

/-- Sets every element of the output to the sum of all inputs and all weights. -/
def sum : Kernel := fun args => do
  let acc ← totalInputs args args.inputs.length 0 .zero
  let y ← args.output 0
  y.fill (args.weights.foldl (fun acc w => total acc w.toList) acc)

end InferenceEngine.Kernels
