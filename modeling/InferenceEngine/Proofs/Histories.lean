import InferenceEngine.Model
import InferenceEngine.Proofs.Drivers
import InferenceEngine.Proofs.Pass

/-!
# Histories of a runner

Whoever owns a runner may call it in any order, with any arguments, and go on after failures. An
`Action` is one such call, `Runner.act` is what comes of it, and a history is a list of actions.
`Runner.record` keeps the calls of a history as `Event`s, each with the runner it was made on.

`Runner.act_cases` says once what a call can do: compile the runner, load its weights, or neither.
In the last case nothing changes but the settings, the events and the elements of variables, which
`Runner.Kept` puts down; there is one lemma for each kind of call.
-/

namespace InferenceEngine

/-! ## Calls -/

/-- A call on a runner, with everything it is given. Each is made on a thread of its own. -/
inductive Action
  /-- compiles the runner -/
  | compile (t : Thread)
  /-- loads weights from bytes -/
  | loadWeights (bytes : Bytes) (t : Thread)
  /-- loads the weights of a model -/
  | loadWeightsFrom (m : Model) (t : Thread)
  /-- runs the program -/
  | run (t : Thread)
  /-- runs the program, giving way after each notification -/
  | runAsync (t : Thread)
  /-- begins a pass, takes so many steps of it, and drops it -/
  | pass (t : Thread) (steps : Nat) (ts : Nat → Thread)
  /-- copies values into a variable -/
  | setInput (name : String) (values : List Single)
  /-- reads and writes through the views of the declared inputs -/
  | useInputs (body : Kernel) (t : Thread)
  /-- reads and writes through the views of the declared outputs -/
  | useOutputs (body : Kernel) (t : Thread)
  /-- asks for the elements of a variable -/
  | elementsOf (name : String)
  /-- asks for the elements of a weight -/
  | weightOf (name : String)
  /-- gives the runner other options, another sink and other decoders -/
  | equip (options : Options) (sink : ProgressSink) (decoders : Option DecoderRegistry)

namespace Action

/-- The call is for compiling. -/
def isCompile : Action → Bool
  | compile _ => true
  | _ => false

/-- The weights that the call offers. -/
def bytes? : Action → Option Bytes
  | loadWeights bytes _ => some bytes
  | loadWeightsFrom m _ => some m.weights
  | _ => none

/-- The call is for loading weights. -/
def isLoad (a : Action) : Bool := a.bytes?.isSome

/-- The call can be made on a runner that is not compiled. -/
def isEarly : Action → Bool
  | compile _ | equip _ _ _ => true
  | _ => false

end Action

namespace Runner

/-- What a host does with views of the variables, if there are such views. -/
def useViews (r : Runner) (views : Outcome (List View)) (body : Kernel) (t : Thread) :
    Outcome Unit × Runner :=
  match views with
  | .error f => (.error f, r)
  | .panic p => (.panic p, r)
  | .ok inputs =>
    match Execution.invoke ⟨body, { inputs, outputs := [], weights := [], option := .default }⟩
      r.bank t with
    | (o, b, _) => (o, r.withBank b)

/-- What comes of a call, and the runner after it. -/
def act (r : Runner) : Action → Outcome Unit × Runner
  | .compile t => ((r.compile t).1, (r.compile t).2.1)
  | .loadWeights bytes t => ((r.loadWeights bytes t).1, (r.loadWeights bytes t).2.1)
  | .loadWeightsFrom m t => ((r.loadWeightsFrom m t).1, (r.loadWeightsFrom m t).2.1)
  | .run t => ((r.run t).1, (r.run t).2.1)
  | .runAsync t => ((r.runAsync t).1, (r.runAsync t).2.1)
  | .pass t steps ts =>
    match (r.start t).1 with
    | .error f => (.error f, r)
    | .ok e => (.ok (), r.absorb (e.after ts steps))
  | .setInput name values =>
    match r.setInput name values with
    | .ok r' => (.ok (), r')
    | .error f => (.error f, r)
    | .panic p => (.panic p, r)
  | .useInputs body t => r.useViews r.inputViews body t
  | .useOutputs body t => r.useViews r.outputViews body t
  | .elementsOf name => ((r.elementsOf name).map fun _ => (), r)
  | .weightOf name => ((r.weightOf name).map fun _ => (), r)
  | .equip options sink decoders => (.ok (), { r with options, sink, decoders })

/-- What the decoder of a runner makes of bytes. -/
def decoded (r : Runner) (bytes : Bytes) : Outcome (List Single) :=
  match r.registry.find r.descriptor.encoding with
  | .error f => .error f
  | .ok decoder => decoder bytes r.descriptor.weights

end Runner

/-- A call of a history, with the runner it was made on. -/
structure Event where
  /-- the runner before the call -/
  runner : Runner
  /-- the call -/
  action : Action

namespace Event

/-- What came of the call. -/
def outcome (v : Event) : Outcome Unit := (v.runner.act v.action).1

/-- The call was for a certain thing, and has done it. -/
def Does (asks : Action → Bool) (v : Event) : Prop := asks v.action = true ∧ v.outcome = .ok ()

/-- If the call has done a certain thing, then a later one that is for it is refused. -/
def Bars (asks : Action → Bool) (f : Failure) (v w : Event) : Prop :=
  v.Does asks → asks w.action = true → w.outcome = .error f

/-- The call has loaded the weights, and this is what the decoder has made of its bytes. -/
def Fills (v : Event) (data : Array Single) : Prop :=
  v.outcome = .ok () ∧ ∃ bytes values, v.action.bytes? = some bytes ∧
    v.runner.decoded bytes = .ok values ∧ data = values.toArray

end Event

namespace Runner

/-- The runner after a history. -/
def after : Runner → List Action → Runner
  | r, [] => r
  | r, a :: rest => (r.act a).2.after rest

/-- The calls of a history. -/
def record : Runner → List Action → List Event
  | _, [] => []
  | r, a :: rest => ⟨r, a⟩ :: (r.act a).2.record rest

variable {r : Runner} {c : Compiled}

/-! ## Compiling and loading -/

/-- Weights are loaded once: after that any bytes are refused, without looking at them. -/
theorem loadWeights_of_loaded (h : r.compiled = some c) (hloaded : r.weightsLoaded = true)
    (bytes : Bytes) (t : Thread) : r.loadWeights bytes t = (.error .alreadyLoaded, r, t) := by
  rw [loadWeights, h]
  exact if_pos hloaded

/-- Loading weights fills the buffer with what the decoder gives, or leaves the runner as it is; and
only the decoder can break it off. -/
theorem loadWeights_cases (r : Runner) (bytes : Bytes) (t : Thread) :
    (r.weightsLoaded = false ∧ ∃ c values, r.compiled = some c ∧ r.decoded bytes = .ok values ∧
      values.length = c.weights.data.size ∧ (r.loadWeights bytes t).1 = .ok () ∧
      (r.loadWeights bytes t).2.1 =
        { r with compiled := some { c with weights.data := values.toArray },
                 weightsLoaded := true }) ∨
    ((∃ f, (r.loadWeights bytes t).1 = .error f) ∨
      ∃ p, (r.loadWeights bytes t).1 = .panic p ∧ r.decoded bytes = .panic p) ∧
      (r.loadWeights bytes t).2.1 = r := by
  rw [loadWeights, decoded]
  cases hc : r.compiled with
  | none => exact .inr ⟨.inl ⟨_, rfl⟩, rfl⟩
  | some c =>
    dsimp only
    by_cases hloaded : r.weightsLoaded = true
    · rw [if_pos hloaded]
      exact .inr ⟨.inl ⟨_, rfl⟩, rfl⟩
    rw [if_neg hloaded]
    cases hfind : r.registry.find r.descriptor.encoding with
    | error f => exact .inr ⟨.inl ⟨f, rfl⟩, rfl⟩
    | ok decoder =>
      dsimp only
      rw [decodeWeights]
      cases hdecode : decoder bytes r.descriptor.weights with
      | error f => exact .inr ⟨.inl ⟨f, rfl⟩, rfl⟩
      | panic p => exact .inr ⟨.inr ⟨p, rfl, rfl⟩, rfl⟩
      | ok values =>
        dsimp only
        rw [Weights.fill]
        -- the only check behind the decoder, and the buffer is written only if it holds
        by_cases hsize : values.length = c.weights.data.size
        · rw [if_pos hsize]
          exact .inl ⟨Bool.eq_false_of_not_eq_true hloaded, c, values, rfl, rfl, hsize, rfl, rfl⟩
        · rw [if_neg hsize]
          exact .inr ⟨.inl ⟨_, rfl⟩, rfl⟩

/-! ## What other calls leave alone -/

/-- Two states of a runner that differ at most in the settings, the events and the elements of
variables. -/
structure Kept (r r' : Runner) : Prop where
  /-- the graph -/
  descriptor : r'.descriptor = r.descriptor
  /-- what turns the kernel source into entry points -/
  loader : r'.loader = r.loader
  /-- whether weights are loaded -/
  weightsLoaded : r'.weightsLoaded = r.weightsLoaded
  /-- what compiling made, but for the elements of variables -/
  compiled : ∃ b, r'.compiled = (r.withBank b).compiled ∧ b.shape = r.bank.shape

theorem withBank_bank (r : Runner) : (r.withBank r.bank).compiled = r.compiled := by
  rw [withBank, bank]
  cases r.compiled <;> rfl

/-- Doing nothing keeps everything. -/
theorem Kept.refl (r : Runner) : r.Kept r := ⟨rfl, rfl, rfl, r.bank, (withBank_bank r).symm, rfl⟩

/-- So does putting other elements into the variables, as long as no length changes. -/
theorem kept_withBank {b : Bank} (h : b.shape = r.bank.shape) : r.Kept (r.withBank b) :=
  ⟨rfl, rfl, rfl, b, rfl, h⟩

/-- Options, sink and decoders have nothing to do with the graph. -/
theorem kept_equip (r : Runner) (options : Options) (sink : ProgressSink)
    (decoders : Option DecoderRegistry) : r.Kept { r with options, sink, decoders } :=
  ⟨rfl, rfl, rfl, r.bank, (withBank_bank r).symm, rfl⟩

/-- What is required to be compiled has been. -/
theorem compiled_of_requireCompiled (h : r.requireCompiled = .ok c) : r.compiled = some c := by
  rw [requireCompiled] at h
  cases hc : r.compiled with
  | none => simp [hc] at h
  | some c' =>
    rw [hc] at h
    obtain rfl := Outcome.ok.inj h
    rfl

/-- Setting an input changes elements of one variable at most. -/
theorem kept_setInput {name : String} {values : List Single} {r' : Runner}
    (h : r.setInput name values = .ok r') : r.Kept r' := by
  rw [setInput] at h
  obtain ⟨c, hc, h⟩ := Outcome.bind_eq_ok.mp h
  obtain ⟨handle, -, h⟩ := Outcome.bind_eq_ok.mp h
  obtain ⟨v, -, h⟩ := Outcome.bind_eq_ok.mp h
  by_cases hsize : v.size = values.length
  · rw [if_pos hsize] at h
    obtain rfl := Outcome.ok.inj h
    apply kept_withBank
    rw [Bank.shape_putAll, bank, compiled_of_requireCompiled hc]
    rfl
  · rw [if_neg hsize] at h
    cases h

/-- Whatever the host does through views, it comes to changed elements. -/
theorem kept_useViews (r : Runner) (views : Outcome (List View)) (body : Kernel) (t : Thread) :
    r.Kept (r.useViews views body t).2 := by
  cases views with
  | error f => exact Kept.refl r
  | panic p => exact Kept.refl r
  | ok inputs => exact kept_withBank (Routine.shape_run _ _ _ _)

end Runner

namespace Execution

/-- The pass `e` may have got to `e'`. -/
structure Onward (e e' : Execution) : Prop where
  /-- the pass is the same -/
  same : e.SamePass e'
  /-- no variable has changed its length -/
  shape : e'.bank.shape = e.bank.shape
  /-- the pass has not left its program -/
  le_total : e.position ≤ e.total → e'.position ≤ e'.total

namespace Onward

variable {e e₁ e₂ : Execution}

/-- A pass has come from where it is. -/
theorem refl (e : Execution) : e.Onward e := ⟨SamePass.refl e, rfl, id⟩

/-- What a pass comes to later on, it has come to by way of what it is now. -/
theorem trans (h : e.Onward e₁) (h' : e₁.Onward e₂) : e.Onward e₂ :=
  ⟨h.same.trans h'.same, h'.shape.trans h.shape, fun hle => h'.le_total (h.le_total hle)⟩

/-- An instruction is dispatched only if there is one left. -/
theorem position_step_le (hle : e.position ≤ e.total) (t : Thread) :
    (e.step t).2.1.position ≤ e.total := by
  rcases step_cases e t with ⟨-, h⟩ | ⟨-, -, h⟩ | ⟨-, -, -, h⟩ | ⟨-, hend, -, h⟩
  · rw [h]
    exact hle
  · rw [h]
    exact hle
  · rw [h]
    exact hle
  · rw [h]
    obtain ⟨b, trace, ⟨-, -, hstate⟩ | ⟨-, -, hstate⟩⟩ := advance_cases e (e.poll t).2.2
    · rw [hstate]
      exact Nat.lt_of_le_of_ne hle hend
    · rw [hstate]
      exact hle

/-- A step leads onward: it keeps the pass and the lengths, and never goes beyond the last
instruction. -/
theorem step (e : Execution) (t : Thread) : e.Onward (e.step t).2.1 where
  same := samePass_step e t
  shape := shape_step e t
  le_total hle := by
    rw [(samePass_step e t).total]
    exact position_step_le hle t

theorem of_step {t t' : Thread} {o : Outcome StepOutcome} (h : e.step t = (o, e₁, t')) :
    e.Onward e₁ := by
  have hstep := Onward.step e t
  rwa [h] at hstep

/-- Whatever a caller does between the steps, they go on with the same pass. -/
theorem after (e : Execution) (ts : Nat → Thread) (k : Nat) : e.Onward (e.after ts k) := by
  induction k with
  | zero => exact refl e
  | succ k ih => exact ih.trans (Onward.step _ _)

end Onward

/-- A driver leaves a state of the pass it has begun with, and if it is broken off, then by a step of
that pass. -/
theorem Driven.onward {tell : Progress → Thread → Thread} {e e' : Execution} {t t' : Thread}
    {ss : List StepRecord} {o : Outcome Unit} (h : Driven tell e t ss o e' t') :
    e.Onward e' ∧ ∀ p, o = .panic p → ∃ e₁ t₁, e.Onward e₁ ∧ (e₁.step t₁).1 = .panic p := by
  induction h with
  | finish h => exact ⟨Onward.of_step h, nofun⟩
  | @stop e e' t t' o h hstop =>
    refine ⟨Onward.of_step h, fun p hp => ⟨e, t, Onward.refl e, ?_⟩⟩
    rw [h, hp]
    rfl
  | execute h rest ih | yield h rest ih =>
    obtain ⟨hrest, hpanic⟩ := ih
    refine ⟨(Onward.of_step h).trans hrest, fun p hp => ?_⟩
    obtain ⟨e₁, t₁, honward, hstep⟩ := hpanic p hp
    exact ⟨e₁, t₁, (Onward.of_step h).trans honward, hstep⟩

end Execution

namespace Runner

open Execution

variable {r : Runner} {c : Compiled} {e : Execution} {t t₀ : Thread}

/-- A pass that was begun is over the graph of the runner. -/
theorem kept_absorb {e' : Execution} (h : r.start t = (.ok e, t₀)) (honward : e.Onward e') :
    r.Kept (r.absorb e') := by
  obtain ⟨hcompiled, -⟩ := poised_of_start h
  refine ⟨rfl, rfl, rfl, e'.bank, ?_, ?_⟩
  · rw [absorb, withBank, hcompiled, honward.same.compiled]
    rfl
  · rw [bank, hcompiled]
    exact honward.shape

/-- A run keeps the runner, and if it is broken off, then by a step of the pass that it has begun. -/
theorem run_cases (r : Runner) (t : Thread) :
    r.Kept (r.run t).2.1 ∧ ∀ p, (r.run t).1 = .panic p →
      ∃ e t₀, r.start t = (.ok e, t₀) ∧ ∃ e₁ t₁, e.Onward e₁ ∧ (e₁.step t₁).1 = .panic p := by
  cases hstart : r.start t with
  | mk answer t₀ =>
    cases answer with
    | error f =>
      rw [run, hstart]
      exact ⟨Kept.refl r, by simp⟩
    | ok e =>
      obtain ⟨ss, o, e', t', hdriven, hlength⟩ := exists_driven hstart r.sink.tell
      rw [(runs_of_driven hstart hdriven hlength).1]
      obtain ⟨honward, hpanic⟩ := hdriven.onward
      exact ⟨kept_absorb hstart honward, fun p hp => ⟨e, t₀, rfl, hpanic p hp⟩⟩

/-! ## What a call can do -/

/-- However weights are offered, they are loaded in one way. -/
theorem act_of_bytes {a : Action} {bytes : Bytes} (h : a.bytes? = some bytes) (r : Runner) :
    ∃ t, r.act a = ((r.loadWeights bytes t).1, (r.loadWeights bytes t).2.1) := by
  cases a with
  | loadWeights given t =>
    obtain rfl := Option.some.inj h
    exact ⟨t, rfl⟩
  | loadWeightsFrom m t =>
    obtain rfl := Option.some.inj h
    exact ⟨t, rfl⟩
  | _ => cases h

/-- Calls that neither compile nor load weights keep what a runner has. -/
theorem kept_act {a : Action} (hcompile : a.isCompile = false) (hload : a.bytes? = none)
    (r : Runner) : r.Kept (r.act a).2 := by
  cases a with
  | compile t => cases hcompile
  | loadWeights bytes t => cases hload
  | loadWeightsFrom m t => cases hload
  | run t => exact (run_cases r t).1
  | runAsync t =>
    rw [act, runAsync_eq_run]
    exact (run_cases r t).1
  | pass t steps ts =>
    rw [act]
    cases hstart : (r.start t).1 with
    | error f => exact Kept.refl r
    | ok e => exact kept_absorb (Prod.ext hstart rfl) (Onward.after e ts steps)
  | setInput name values =>
    rw [act]
    cases hset : r.setInput name values with
    | ok r' => exact kept_setInput hset
    | error f => exact Kept.refl r
    | panic p => exact Kept.refl r
  | useInputs body t => exact kept_useViews r _ body t
  | useOutputs body t => exact kept_useViews r _ body t
  | elementsOf name => exact Kept.refl r
  | weightOf name => exact Kept.refl r
  | equip options sink decoders => exact kept_equip r options sink decoders

/-- **What a call can do**: compile the runner, load its weights, or keep what it has. -/
theorem act_cases (r : Runner) (a : Action) :
    (a.isCompile = true ∧ r.compiled = none ∧ ∃ c, build r.loader r.descriptor = .ok c ∧
      r.act a = (.ok (), { r with compiled := some c })) ∨
    (r.weightsLoaded = false ∧ ∃ bytes c values, a.bytes? = some bytes ∧ r.compiled = some c ∧
      r.decoded bytes = .ok values ∧ values.length = c.weights.data.size ∧
      r.act a = (.ok (), { r with compiled := some { c with weights.data := values.toArray },
                                  weightsLoaded := true })) ∨
    r.Kept (r.act a).2 ∧
      (a.isCompile = true ∨ a.isLoad = true → (r.act a).1 ≠ .ok ()) := by
  cases hload : a.bytes? with
  | some bytes =>
    -- both ways of loading weights come to the same call
    obtain ⟨t, hact⟩ := act_of_bytes hload r
    rcases loadWeights_cases r bytes t with
      ⟨hloaded, c, values, hc, hdecoded, hsize, ho, hr⟩ | ⟨hfail, hr⟩
    · exact .inr (.inl ⟨hloaded, bytes, c, values, rfl, hc, hdecoded, hsize,
        hact.trans (Prod.ext ho hr)⟩)
    · rw [hact, hr]
      refine .inr (.inr ⟨Kept.refl r, fun _ => ?_⟩)
      rcases hfail with ⟨f, ho⟩ | ⟨p, ho, -⟩ <;>
      · rw [ho]
        exact nofun
  | none =>
    cases hcompile : a.isCompile with
    | false =>
      have hneither : ¬ (false = true ∨ a.isLoad = true) := by simp [Action.isLoad, hload]
      exact .inr (.inr ⟨kept_act hcompile hload r, fun hasks => absurd hasks hneither⟩)
    | true =>
      cases a with
      | compile t =>
        rcases compile_cases r t with ⟨hnone, c, hbuild, ho, hr⟩ | ⟨⟨f, ho⟩ | ⟨p, ho, -⟩, hr⟩
        · exact .inl ⟨rfl, hnone, c, hbuild, Prod.ext ho hr⟩
        · rw [act, ho, hr]
          exact .inr (.inr ⟨Kept.refl r, fun _ => nofun⟩)
        · rw [act, ho, hr]
          exact .inr (.inr ⟨Kept.refl r, fun _ => nofun⟩)
      | _ => cases hcompile

end Runner

end InferenceEngine
