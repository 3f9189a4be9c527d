import InferenceEngine.Kernel.Elementwise
import InferenceEngine.Proofs.Interpreter

/-!
# Runs refine the interpreter of names

`Runner.Holds` says that a runner has been compiled and what its variables and weights hold; it is
what compiling establishes and what loading weights, setting inputs and running keep.
`Runner.run_refines` is the main statement: a run of such a runner ends as the interpreter does on
the names of the descriptor, and leaves the same elements in every variable.
-/

namespace InferenceEngine

namespace Runner

open Execution

variable {r : Runner} {c : Compiled} {b : Bank} {data : Array Single}

/-! ## What a compiled runner holds -/

/-- The runner has been compiled to `c`, its variables hold `b`, and its weights `data`. -/
structure Holds (r : Runner) (c : Compiled) (b : Bank) (data : Array Single) : Prop where
  /-- what compiling made -/
  built : build r.loader r.descriptor = .ok c
  /-- what has become of it -/
  compiled : r.compiled = some (c.refill b data)
  /-- no variable has changed its length -/
  shape : b.shape = c.buffers.bank.shape
  /-- neither have the weights -/
  size : data.size = c.weights.data.size

/-! ## How compiling ends -/

theorem compile_of_compiled (h : r.compiled = some c) (t : Thread) :
    r.compile t = (.error .alreadyCompiled, r, t) := by
  rw [compile, h]

/-- Compiling makes a graph of the descriptor, or leaves the runner as it is; and only what does not
fit into a buffer can break it off. -/
theorem compile_cases (r : Runner) (t : Thread) :
    (r.compiled = none ∧ ∃ c, build r.loader r.descriptor = .ok c ∧
      (r.compile t).1 = .ok () ∧ (r.compile t).2.1 = { r with compiled := some c }) ∨
    ((∃ f, (r.compile t).1 = .error f) ∨
      ∃ p, (r.compile t).1 = .panic p ∧ r.compiled = none ∧
        build r.loader r.descriptor = .panic p) ∧
      (r.compile t).2.1 = r := by
  cases hc : r.compiled with
  | some c =>
    rw [compile_of_compiled hc]
    exact .inr ⟨.inl ⟨_, rfl⟩, rfl⟩
  | none =>
    rw [compile, hc]
    cases hbuild : build r.loader r.descriptor with
    | error f => exact .inr ⟨.inl ⟨f, rfl⟩, rfl⟩
    | panic p => exact .inr ⟨.inr ⟨p, rfl, rfl, rfl⟩, rfl⟩
    | ok c => exact .inl ⟨rfl, c, rfl, rfl, rfl⟩

/-- If compiling succeeds, then nothing has changed but the graph that was made. -/
theorem compile_of_ok {t : Thread} (h : (r.compile t).1 = .ok ()) :
    r.compiled = none ∧ ∃ c, build r.loader r.descriptor = .ok c ∧
      (r.compile t).2.1 = { r with compiled := some c } := by
  rcases compile_cases r t with ⟨hnone, c, hbuild, -, hr⟩ | ⟨⟨f, hf⟩ | ⟨p, hp, -⟩, -⟩
  · exact ⟨hnone, c, hbuild, hr⟩
  · cases h.symm.trans hf
  · cases h.symm.trans hp

/-- A runner that was compiled holds something. -/
theorem holds_of_compile {t : Thread} (h : (r.compile t).1 = .ok ()) :
    ∃ c, (r.compile t).2.1.Holds c c.buffers.bank c.weights.data := by
  obtain ⟨-, c, hbuild, hr⟩ := compile_of_ok h
  rw [hr]
  exact ⟨c, hbuild, rfl, rfl, rfl⟩

/-! ## Passes -/

/-- A pass that is begun runs over the tables of the graph. -/
theorem start_spec (h : r.Holds c b data) (t : Thread) :
    ∃ e t₀, r.start t = (.ok e, t₀) ∧ e.Poised 0 e.started false ∧ e.compiled = c.refill b data ∧
      e.instructions = r.descriptor.instructions ∧
      e.Runs ⟨c.kernels, r.descriptor.buffers, r.descriptor.weights, data⟩ := by
  rw [start, h.compiled]
  refine ⟨_, _, rfl, Poised.start _ _ _ _ _ _, rfl, rfl, ?_, ?_⟩
  · exact Compiled.serves_refill h.built h.shape h.size
  · exact (build_spec h.built).2.2.2

/-- A run ends as the interpreter does, and leaves the runner compiled, with the contents of the
variables that the interpreter leaves. -/
theorem run_spec (h : r.Holds c b data) (t : Thread) :
    let tb : Tables := ⟨c.kernels, r.descriptor.buffers, r.descriptor.weights, data⟩
    ∃ e t₀ o b', r.start t = (.ok e, t₀) ∧
      tb.interpret (e.host r.sink) e.started 0 r.descriptor.instructions b t₀ = (o, b') ∧
      (r.run t).1 = o ∧ (r.run t).2.1.Holds c b' data := by
  intro tb
  obtain ⟨e, t₀, hstart, hp, hc, hi, hruns⟩ := start_spec h t
  have hdrive := drive_eq_interpret r.sink hp hruns (Nat.le_refl _) t₀
  have hsame := samePass_drive r.sink (budget e) e t₀
  rcases hend : drive r.sink (budget e) e t₀ with ⟨o, e', t'⟩
  -- the budget of a run is just what a pass from its start may need
  rw [budget] at hend
  rw [budget, hend] at hsame
  rw [Nat.sub_zero, hend, hi, Execution.bank, Execution.bank, hc] at hdrive
  refine ⟨e, t₀, o, e'.bank, hstart, hdrive.symm, ?_, ?_⟩
  · rw [run, hstart]
    dsimp only
    rw [budget, hend]
  · rw [run, hstart]
    dsimp only
    rw [budget, hend]
    refine ⟨h.built, ?_, ?_, h.size⟩
    · rw [absorb, hsame.compiled, hc]
      rfl
    · have hshape := Tables.shape_interpret tb (e.host r.sink) e.started 0
        r.descriptor.instructions b t₀
      have hbank : (tb.interpret (e.host r.sink) e.started 0 r.descriptor.instructions b t₀).2 =
          e'.bank := congrArg Prod.snd hdrive.symm
      rw [hbank] at hshape
      exact hshape.trans h.shape

/-- The elements of a variable of a compiled runner are those of its name. -/
theorem elementsOf_eq (h : r.Holds c b data) (name : String) :
    r.elementsOf name =
      Tables.elements ⟨c.kernels, r.descriptor.buffers, r.descriptor.weights, data⟩ b name := by
  have hserves := Compiled.serves_refill h.built h.shape h.size
  rw [elementsOf, requireCompiled, h.compiled, Tables.elements]
  dsimp only
  rw [Outcome.ok_bind]
  rcases hserves.buffer name with ⟨hh, hf⟩ | ⟨place, v, hh, hv, hf⟩
  · rw [hh, hf]
    rfl
  · rw [hh, hf, requireHandle, Outcome.ok_bind]
    exact hserves.buffer_of_view hv

theorem descriptor_run (r : Runner) (t : Thread) : (r.run t).2.1.descriptor = r.descriptor := by
  rw [run]
  rcases r.start t with ⟨f | e, t'⟩ <;> rfl

/-- **Runs refine the interpreter of names.** Let a runner be compiled, and let its variables and
its weights hold anything. A run ends as the interpreter does on the names in the descriptor, with the
same failure if it fails, and every variable has the elements that the interpreter leaves in it, all
writes before a failure included. If the kernels leave the thread alone, then what happens around
the calls has no part in it: every host on every thread gives the same. -/
theorem run_refines (h : r.Holds c b data) (t : Thread) :
    let tb : Tables := ⟨c.kernels, r.descriptor.buffers, r.descriptor.weights, data⟩
    r.loader.materialize r.descriptor.kernelSource = .ok tb.kernels ∧
      ∃ e t₀ o b', r.start t = (.ok e, t₀) ∧
        tb.interpret (e.host r.sink) e.started 0 r.descriptor.instructions b t₀ = (o, b') ∧
        (r.run t).1 = o ∧
        (∀ name, (r.run t).2.1.elementsOf name = tb.elements b' name) ∧
        ((∀ name k, tb.kernel? name = some k → ∀ args, (k args).Blind) →
          ∀ {σ : Type} (host : Host σ) (s : σ) (t' : Thread),
            tb.interpret host s 0 r.descriptor.instructions b t' = (o, b')) := by
  intro tb
  obtain ⟨e, t₀, o, b', hstart, hinterpret, ho, hholds⟩ := run_spec h t
  refine ⟨(build_spec h.built).1, e, t₀, o, b', hstart, hinterpret, ho, fun name => ?_,
    fun hblind σ host s t' => ?_⟩
  · have hname := elementsOf_eq hholds name
    rw [descriptor_run] at hname
    exact hname
  · rw [← hinterpret]
    exact Tables.interpret_of_blind hblind host _ s _ 0 _ b t' t₀

/-- A runner whose third instruction names a variable that is not there. -/
def relay : Runner :=
  ofDescriptor
    { Descriptor.default with
      instructions := [⟨"mark", [], ["a"], [], .default⟩, ⟨"copy", ["a"], ["b"], [], .default⟩,
        ⟨"copy", ["c"], ["b"], [], .default⟩]
      buffers := ⟨2, [("a", ⟨0, 1⟩), ("b", ⟨1, 1⟩)], by decide⟩ }
    ⟨fun _ => .ok ⟨[("mark", Kernels.mark), ("copy", Kernels.copy)]⟩⟩

/-- What it is compiled to. -/
def relayGraph : Compiled where
  weights := ⟨[], [], #[]⟩
  buffers := ⟨["a", "b"], [#[.zero], #[.zero]]⟩
  kernels := ⟨[("mark", Kernels.mark), ("copy", Kernels.copy)]⟩
  program := [⟨some 0, [], [.bound 0], []⟩, ⟨some 1, [.bound 0], [.bound 1], []⟩,
    ⟨some 1, [.unresolved "c"], [.bound 1], []⟩]
  inputs := []
  outputs := []

/-- The runner after it was compiled. -/
def relayed : Runner := { relay with compiled := some relayGraph }

theorem holds_relayed : relayed.Holds relayGraph [#[.zero], #[.zero]] #[] := by
  have hw : Weights.allocate relay.descriptor.weights = .ok relayGraph.weights :=
    Weights.allocate_empty
  have hb : Variables.allocate relay.descriptor.buffers = .ok relayGraph.buffers := rfl
  refine ⟨?_, rfl, rfl, rfl⟩
  show build relay.loader relay.descriptor = .ok relayGraph
  rw [build, hw, hb]
  rfl

/-- A thread on which nothing is logged and no time passes. -/
def quiet : Thread := ⟨.off, none, [], fun _ => 0, 0, fun _ => ⟨0, 0⟩, 0⟩

/-- What was written before the failure stays written. -/
theorem run_relayed :
    relayed.Holds relayGraph [#[.zero], #[.zero]] #[] ∧
      (relayed.run quiet).1 = .error (.unresolvedReference .input "c" (some 2)) ∧
      (relayed.run quiet).2.1.elementsOf "b" = .ok [.one] := by
  refine ⟨holds_relayed, ?_⟩
  obtain ⟨-, e, t₀, o, b', hstart, hinterpret, ho, helements, -⟩ :=
    run_refines holds_relayed quiet
  obtain ⟨he, ht⟩ := Prod.mk.inj hstart
  obtain rfl := Except.ok.inj he
  obtain rfl := ht
  obtain ⟨rfl, rfl⟩ := Prod.mk.inj hinterpret
  rw [ho, helements]
  exact ⟨rfl, rfl⟩

end Runner

end InferenceEngine
