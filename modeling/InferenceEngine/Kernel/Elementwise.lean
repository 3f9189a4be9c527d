import InferenceEngine.Kernel.Routine

/-!
# Element-wise kernels

Kernels that go through an output in ascending order and compute each element from the elements of
the same place. An element is read before its own place is written, so input and output may be the
same variable.
-/

namespace InferenceEngine.Kernels

/-- Sets every element of the destination from the source element of the same place, by way of a
routine that may read weights. -/
def mapInto (f : Nat → Single → Routine Single) (src dst : Operand) : Routine Unit :=
  .sweep (fun i => do
    let x ← src.get i
    let y ← f i x
    dst.set i y) dst.size 0

/-- `out[i] = in[i]` -/
def copy : Kernel := fun args => do
  let src ← args.input 0
  let dst ← args.output 0
  mapInto (fun _ x => .done x) src dst

/-- `out[i] = in[i] + w[i]` -/
def addBias : Kernel := fun args => do
  let src ← args.input 0
  let bias ← args.weight 0
  let dst ← args.output 0
  mapInto (fun i x => do
    let b ← weightAt bias i
    return x + b) src dst

/-- The factor in the option of a scaling, rounded to single precision. -/
def scaleFactor (option : CallOption) : Except Failure Single :=
  match (option.get? "scale").bind Json.double? with
  | some x => .ok (.ofDouble x)
  | none => .error (.custom "scale kernel needs a numeric scale option")

/-- `out[i] = in[i] * option.scale` -/
def scale : Kernel := fun args => do
  let factor ← Routine.ofExcept (scaleFactor args.option)
  let src ← args.input 0
  let dst ← args.output 0
  mapInto (fun _ x => .done (x * factor)) src dst

/-- `out[i] = max(in[i], 0)` -/
def relu : Kernel := fun args => do
  let src ← args.input 0
  let dst ← args.output 0
  mapInto (fun _ x => .done x.rectify) src dst

/-- `out[i] = out[i] + 1` -/
def increment : Kernel := fun args => do
  let dst ← args.output 0
  mapInto (fun _ x => .done (x + .one)) dst dst

/-- `out[i] = out[i] + option.scale * in[i]`, where the option also says which input is meant. -/
def axpy : Kernel := fun args => do
  let option ← Routine.ofExcept (args.option.decode ScaleAxis.ofJson?)
  let src ← args.input option.axis.toNat
  let dst ← args.output 0
  -- here the output is read as well, and the input only place by place
  mapInto (fun i y => do
    let x ← src.get i
    return y + option.scale * x) dst dst

/-- Copies the whole input over the whole output, which has to have the same length. -/
def viewCopy : Kernel := fun args => do
  let dst ← args.output 0
  let src ← args.input 0
  let xs ← src.elements
  dst.copyFrom xs

/-- Sets every element of every output to one. -/
def mark : Kernel := fun args =>
  .sweep (fun i => do
    let dst ← args.output i
    dst.fill .one) args.outputs.length 0

end InferenceEngine.Kernels
