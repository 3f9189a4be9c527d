import InferenceEngine.Kernel.Routine

/-!
# Kernels that observe, refuse and break off

Kernels for looking at how calls are made. They leave notes and do not compute.
-/

namespace InferenceEngine.Kernels

/-- Does nothing. -/
def noop : Kernel := fun _ => .done ()

/-- Refuses. -/
def fail : Kernel := fun _ => .fail (.custom "kernel exploded")

/-- Breaks off. -/
def boom : Kernel := fun _ => .panic (.custom "boom")

/-- Writes one element and refuses. -/
def partialWrite : Kernel := fun args => do
  let dst ← args.output 0
  dst.set 0 (.ofInt 9)
  .fail (.custom "partial failure")

/-- The names and elements of the operands of one pool, by place. -/
def contents (operand : Nat → Routine Operand) :
    Nat → Nat → Routine (List (String × List Single))
  | 0, _ => .done []
  | count + 1, i => do
    let o ← operand i
    let xs ← o.elements
    let rest ← contents operand count (i + 1)
    return (o.view.name, xs) :: rest

/-- Notes everything it is called with. -/
def probe : Kernel := fun args => do
  let inputs ← contents args.input args.inputs.length 0
  let outputs ← contents args.output args.outputs.length 0
  .note (.probe inputs outputs (args.weights.map Array.toList) args.option.value) (.done ())

/-- Notes the label of the active run. -/
def label : Kernel := fun _ => .look fun t => .note (.label t.label) (.done ())

/-- Notes which inputs cover the same buffer as which outputs. -/
def aliasing : Kernel := fun args =>
  .note (.aliases (args.inputs.map fun i => args.outputs.map i.aliases)) (.done ())

end InferenceEngine.Kernels
