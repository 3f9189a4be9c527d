import InferenceEngine.Kernel.Registry
import InferenceEngine.Text.Blank

/-!
# From kernel sources to entry points

A `KernelLoader` turns the kernel source of a descriptor into a registry. The one given here knows
kernels that are linked under symbols, and the source is a manifest: a JSON object from names of
entry points to symbols. A blank source offers every linked symbol under its own name.
-/

namespace InferenceEngine

/-- Turns a kernel source into entry points. -/
structure KernelLoader where
  /-- the entry points of a source -/
  materialize : String → Except Failure Registry

/-- Kernels linked under symbols. -/
structure LinkedKernels where
  /-- the kernels -/
  symbols : NameMap Kernel

namespace LinkedKernels

/-- No kernels. -/
def empty : LinkedKernels := ⟨.empty⟩

/-- Links a kernel under a symbol, replacing an earlier one. -/
def link (l : LinkedKernels) (symbol : String) (kernel : Kernel) : LinkedKernels :=
  ⟨l.symbols.insert symbol kernel⟩

/-- Links the listed kernels one after the other. -/
def ofList (kernels : List (String × Kernel)) : LinkedKernels := ⟨.ofList kernels⟩

/-- The kernel of a symbol. -/
def resolve (l : LinkedKernels) (symbol : String) : Except Failure Kernel :=
  match l.symbols.get? symbol with
  | some kernel => .ok kernel
  | none => .error (.kernelCompilation (.undefined symbol))

open Json

/-- Reads a manifest: a map from names of entry points to symbols. -/
def manifest? (source : String) : Option (NameMap String) :=
  (Tree.ofText? source).bind (Tree.map? (fun _ => Tree.text?) nestingLimit)

/-- Resolves the symbols of a manifest and inserts the entry points in the order of their names;
the first symbol that is not linked is reported. -/
def resolveAll (l : LinkedKernels) (r : Registry) : List (String × String) → Except Failure Registry
  | [] => .ok r
  | (name, symbol) :: rest =>
    match l.resolve symbol with
    | .error e => .error e
    | .ok kernel => l.resolveAll (r.insert name kernel) rest

/-- The entry points of a source. -/
def materialize (l : LinkedKernels) (source : String) : Except Failure Registry :=
  -- without a manifest every symbol is an entry point under its own name
  if Text.allBlank source then .ok (.ofList l.symbols.entries)
  else
    match manifest? source with
    | none => .error (.kernelCompilation .invalid)
    | some m => l.resolveAll .empty m.entries

/-- The loader of linked kernels. -/
def loader (l : LinkedKernels) : KernelLoader := ⟨l.materialize⟩

/-- How linked kernels are shown. -/
def text (l : LinkedKernels) : String :=
  Text.describe "StaticKernelLoader" [("symbols", Text.quoteList l.symbols.names)]

end LinkedKernels

end InferenceEngine
