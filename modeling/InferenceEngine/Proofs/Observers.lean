import InferenceEngine.Proofs.Lifecycle
import InferenceEngine.Proofs.Walks

/-!
# Observing does not influence computing

A runner can be watched: a sink is told of its progress, events are recorded, kernels are timed, and
a log is kept. None of this has a part in what it computes, if its kernels are functions.

Runs that are watched in different ways take different numbers of steps, so they cannot be compared
step by step. Both are compared with what a pass comes to in itself (`Runner.walk_of_compiled`).

* `Request` is a call that can be made on a runner, and `Reaction` is what comes of it.
* `Runner.abreast_serve` — one call comes to the same on two runners that are alike, and leaves them
  alike.
* `Runner.observers_agree` — so does a sequence of calls.
-/

namespace InferenceEngine

namespace Runner

open Execution

/-! ## Calls and what comes of them -/

/-- The kernels of the runner, and those that its loader can give it, are functions. -/
structure Determined (r : Runner) : Prop where
  /-- before the runner is compiled -/
  loaded : ∀ kernels, r.loader.materialize r.descriptor.kernelSource = .ok kernels →
    kernels.Determined
  /-- after it is compiled -/
  compiled : ∀ c, r.compiled = some c → c.kernels.Determined

/-- Two runners over one graph, in one state. They may be observed in different ways. -/
structure Alike (r₁ r₂ : Runner) : Prop where
  /-- the graph -/
  descriptor : r₁.descriptor = r₂.descriptor
  /-- what turns the kernel source into entry points -/
  loader : r₁.loader = r₂.loader
  /-- the decoders -/
  decoders : r₁.decoders = r₂.decoders
  /-- what compiling made, with the elements of the variables and of the weights -/
  compiled : r₁.compiled = r₂.compiled
  /-- whether weights are loaded -/
  weightsLoaded : r₁.weightsLoaded = r₂.weightsLoaded

end Runner

/-- A call on a runner. -/
inductive Request
  /-- compiles the runner -/
  | compile
  /-- loads weights from bytes -/
  | loadWeights (bytes : Bytes)
  /-- copies values into a variable -/
  | setInput (name : String) (values : List Single)
  /-- runs the program -/
  | run
  /-- begins a pass and steps through it to its end -/
  | walk
  /-- asks for the elements of a variable -/
  | elementsOf (name : String)
  /-- asks for the elements of a weight -/
  | weightOf (name : String)
  /-- asks for the views of the declared inputs -/
  | inputViews
  /-- asks for the views of the declared outputs -/
  | outputViews
  /-- reads and writes through the views of the declared inputs -/
  | useInputs (body : Kernel) (determined : Kernel.Determined body)
  /-- reads and writes through the views of the declared outputs -/
  | useOutputs (body : Kernel) (determined : Kernel.Determined body)

/-- What a call answers. -/
inductive Reply
  /-- whether it has succeeded -/
  | done (outcome : Outcome Unit)
  /-- the elements of a variable -/
  | elements (outcome : Outcome (List Single))
  /-- the elements of a weight -/
  | weight (outcome : Outcome (Array Single))
  /-- views, and the elements that are seen through them -/
  | views (outcome : Outcome (List (View × List Single)))

/-- Where a call is made: the thread with its clock and its level of logging, and what is done on it
between the steps of a pass if the caller takes them. -/
structure Surroundings where
  /-- the thread -/
  thread : Thread
  /-- what is done between the steps -/
  host : Attendant

/-- What comes of a call. -/
structure Reaction where
  /-- the answer -/
  reply : Reply
  /-- the calls of kernels, and what was in the variables at each -/
  calls : List (Call × Bank)
  /-- the runner afterwards -/
  runner : Runner

/-- The two have come to the same: the same answer, the same calls of kernels, and runners in which
there is nothing different to see but what is observed. -/
structure Reaction.Same (x y : Reaction) : Prop where
  /-- the answer -/
  reply : x.reply = y.reply
  /-- the calls of kernels -/
  calls : x.calls = y.calls
  /-- whether the runner is compiled -/
  isCompiled : x.runner.isCompiled = y.runner.isCompiled
  /-- whether weights are loaded -/
  weightsLoaded : x.runner.weightsLoaded = y.runner.weightsLoaded
  /-- the variables -/
  elementsOf : ∀ name, x.runner.elementsOf name = y.runner.elementsOf name
  /-- the weights -/
  weightOf : ∀ name, x.runner.weightOf name = y.runner.weightOf name

namespace Runner

open Execution

variable {r r₁ r₂ : Runner}

/-- What a caller gets to see through views. -/
def seen (r : Runner) (views : Outcome (List View)) : Outcome (List (View × List Single)) :=
  views.map fun vs => vs.map fun v => (v, v.elements r.bank)

/-- The reaction to a call of a history, which calls no kernel. -/
def plainly (x : Outcome Unit × Runner) : Reaction := ⟨.done x.1, [], x.2⟩

/-- The reaction to a pass that is stepped through. -/
def walked (x : Outcome Unit × Runner × List (Call × Bank)) : Reaction := ⟨.done x.1, x.2.2, x.2.1⟩

/-- Makes a call. -/
def serve (r : Runner) (s : Surroundings) : Request → Reaction
  | .compile => plainly (r.act (.compile s.thread))
  | .loadWeights bytes => plainly (r.act (.loadWeights bytes s.thread))
  | .setInput name values => plainly (r.act (.setInput name values))
  | .run =>
    ⟨.done (r.run s.thread).1, (r.walk r.sink.attendant s.thread).2.2, (r.run s.thread).2.1⟩
  | .walk => walked (r.walk s.host s.thread)
  | .elementsOf name => ⟨.elements (r.elementsOf name), [], r⟩
  | .weightOf name => ⟨.weight (r.weightOf name), [], r⟩
  | .inputViews => ⟨.views (r.seen r.inputViews), [], r⟩
  | .outputViews => ⟨.views (r.seen r.outputViews), [], r⟩
  | .useInputs body _ => plainly (r.act (.useInputs body s.thread))
  | .useOutputs body _ => plainly (r.act (.useOutputs body s.thread))

/-- Makes one call after the other, each in its own surroundings. -/
def converse (r : Runner) (s : Nat → Surroundings) : List Request → List Reaction
  | [] => []
  | q :: qs => r.serve (s 0) q :: (r.serve (s 0) q).runner.converse (fun n => s (n + 1)) qs

/-! ### Answers -/

namespace Alike

/-- Alike runners have the same buffers. -/
theorem bank (h : r₁.Alike r₂) : r₁.bank = r₂.bank := by
  rw [Runner.bank, Runner.bank, h.compiled]

/-- They hold the same compiled graph, or both hold none. -/
theorem requireCompiled (h : r₁.Alike r₂) : r₁.requireCompiled = r₂.requireCompiled := by
  rw [Runner.requireCompiled, Runner.requireCompiled, h.compiled]

/-- A variable has the same elements, or asking for it fails in the same way. -/
theorem elementsOf (h : r₁.Alike r₂) (name : String) : r₁.elementsOf name = r₂.elementsOf name := by
  rw [Runner.elementsOf, Runner.elementsOf, h.requireCompiled]

/-- So has a weight. -/
theorem weightOf (h : r₁.Alike r₂) (name : String) : r₁.weightOf name = r₂.weightOf name := by
  rw [Runner.weightOf, Runner.weightOf, h.requireCompiled]

theorem inputViews (h : r₁.Alike r₂) : r₁.inputViews = r₂.inputViews := by
  rw [Runner.inputViews, Runner.inputViews, h.requireCompiled]

theorem outputViews (h : r₁.Alike r₂) : r₁.outputViews = r₂.outputViews := by
  rw [Runner.outputViews, Runner.outputViews, h.requireCompiled]

/-- What the host reads through views is the same. -/
theorem seen (h : r₁.Alike r₂) (views : Outcome (List View)) : r₁.seen views = r₂.seen views := by
  rw [Runner.seen, Runner.seen, h.bank]

/-- Giving both the same buffers leaves them alike. -/
theorem withBank (h : r₁.Alike r₂) (b : Bank) : (r₁.withBank b).Alike (r₂.withBank b) where
  descriptor := h.descriptor
  loader := h.loader
  decoders := h.decoders
  compiled := by rw [Runner.withBank, Runner.withBank, h.compiled]
  weightsLoaded := h.weightsLoaded

theorem registry (h : r₁.Alike r₂) : r₁.registry = r₂.registry := by
  rw [Runner.registry, Runner.registry, h.decoders]

end Alike

/-- Two calls have ended alike on alike runners. -/
def Agree (x y : Outcome Unit × Runner) : Prop := x.1 = y.1 ∧ x.2.Alike y.2

/-- Compiling ends alike for alike runners: it depends on the loader and the descriptor only, and
the warnings that it logs are in neither. -/
theorem agree_compile (h : r₁.Alike r₂) (t₁ t₂ : Thread) :
    Agree (r₁.act (.compile t₁)) (r₂.act (.compile t₂)) := by
  rw [act, act, compile, compile, ← h.compiled, ← h.loader, ← h.descriptor]
  cases r₁.compiled with
  | some c => exact ⟨rfl, h⟩
  | none =>
    dsimp only
    cases build r₁.loader r₁.descriptor with
    | error f => exact ⟨rfl, h⟩
    | panic p => exact ⟨rfl, h⟩
    -- the graph is the same one, and what compiling logs is on the threads
    | ok c => exact ⟨rfl, rfl, rfl, h.decoders, rfl, h.weightsLoaded⟩

/-- Loading ends alike: the decoders are the same, and so is the buffer that they fill. -/
theorem agree_loadWeights (h : r₁.Alike r₂) (bytes : Bytes) (t₁ t₂ : Thread) :
    Agree (r₁.act (.loadWeights bytes t₁)) (r₂.act (.loadWeights bytes t₂)) := by
  rw [act, act, loadWeights, loadWeights, ← h.compiled, ← h.weightsLoaded, ← h.registry,
    ← h.descriptor]
  cases r₁.compiled with
  | none => exact ⟨rfl, h⟩
  | some c =>
    dsimp only
    by_cases hloaded : r₁.weightsLoaded = true
    · rw [if_pos hloaded, if_pos hloaded]
      exact ⟨rfl, h⟩
    rw [if_neg hloaded, if_neg hloaded]
    cases r₁.registry.find r₁.descriptor.encoding with
    | error f => exact ⟨rfl, h⟩
    | ok decoder =>
      dsimp only
      cases decodeWeights decoder bytes r₁.descriptor.weights c.weights with
      | error f => exact ⟨rfl, h⟩
      | panic p => exact ⟨rfl, h⟩
      | ok weights => exact ⟨rfl, rfl, h.loader, h.decoders, rfl, rfl⟩

/-- Setting an input ends alike, as the variables are the same. -/
theorem agree_setInput (h : r₁.Alike r₂) (name : String) (values : List Single) :
    Agree (r₁.act (.setInput name values)) (r₂.act (.setInput name values)) := by
  rw [act, act, setInput, setInput, ← h.requireCompiled]
  cases r₁.requireCompiled with
  | error f => exact ⟨rfl, h⟩
  | panic p => exact ⟨rfl, h⟩
  | ok c =>
    rw [Outcome.ok_bind, Outcome.ok_bind]
    cases requireHandle .buffer name (c.buffers.handle? name) with
    | error f => exact ⟨rfl, h⟩
    | panic p => exact ⟨rfl, h⟩
    | ok handle =>
      rw [Outcome.ok_bind, Outcome.ok_bind]
      cases c.buffers.view handle with
      | error f => exact ⟨rfl, h⟩
      | panic p => exact ⟨rfl, h⟩
      | ok v =>
        rw [Outcome.ok_bind, Outcome.ok_bind]
        by_cases hsize : v.size = values.length
        · -- the same elements are written into the same buffers
          rw [if_pos hsize, if_pos hsize]
          exact ⟨rfl, h.withBank _⟩
        · rw [if_neg hsize, if_neg hsize]
          exact ⟨rfl, h⟩

/-- A host that is determined does the same to the same views. -/
theorem agree_useViews (h : r₁.Alike r₂) (views : Outcome (List View)) {body : Kernel}
    (hbody : Kernel.Determined body) (t₁ t₂ : Thread) :
    Agree (r₁.useViews views body t₁) (r₂.useViews views body t₂) := by
  cases views with
  | error f => exact ⟨rfl, h⟩
  | panic p => exact ⟨rfl, h⟩
  | ok inputs =>
    let call : Call := ⟨body, { inputs, outputs := [], weights := [], option := .default }⟩
    have hanswer (r : Runner) (t : Thread) : r.useViews (.ok inputs) body t =
        ((invoke call r.bank t).1, r.withBank (invoke call r.bank t).2.1) := rfl
    obtain ⟨ho, hb⟩ := hbody call.args r₁.bank t₁ t₂
    rw [hanswer, hanswer, ← h.bank, invoke, invoke, ho, hb]
    exact ⟨rfl, h.withBank _⟩

/-- A runner whose kernels are functions keeps them, whatever is called. -/
theorem determined_act (h : r.Determined) (a : Action) : (r.act a).2.Determined := by
  rcases act_cases r a with ⟨-, -, c, hbuild, hact⟩ |
    ⟨-, bytes, c, values, -, hc, -, -, hact⟩ | ⟨hkept, -⟩
  · rw [hact]
    refine ⟨h.loaded, ?_⟩
    rintro _ ⟨⟩
    exact h.loaded _ (build_spec hbuild).1
  · rw [hact]
    refine ⟨h.loaded, ?_⟩
    rintro _ ⟨⟩
    exact h.compiled c hc
  · constructor
    · rw [hkept.loader, hkept.descriptor]
      exact h.loaded
    · intro c' hc'
      obtain ⟨c, b, hc, -, rfl⟩ := hkept.of_compiled hc'
      exact h.compiled c hc

/-- The two have come to the same, and the runners go on alike. -/
structure Abreast (x y : Reaction) : Prop where
  /-- the answer -/
  reply : x.reply = y.reply
  /-- the calls of kernels -/
  calls : x.calls = y.calls
  /-- the runners -/
  alike : x.runner.Alike y.runner
  /-- their kernels are functions -/
  determined : x.runner.Determined

/-- Runners that are alike show the same. -/
theorem Abreast.same {x y : Reaction} (h : Abreast x y) : x.Same y where
  reply := h.reply
  calls := h.calls
  isCompiled := by rw [isCompiled, isCompiled, h.alike.compiled]
  weightsLoaded := h.alike.weightsLoaded
  elementsOf := h.alike.elementsOf
  weightOf := h.alike.weightOf

/-- What ends alike without any step in between is abreast. -/
theorem Agree.abreast {x y : Outcome Unit × Runner} (h : Agree x y) (hk : x.2.Determined) :
    Abreast (plainly x) (plainly y) :=
  ⟨congrArg Reply.done h.1, rfl, h.2, hk⟩

/-- Two walks are abreast, however different the attendants: the kernels are called in the same
order with the same arguments and the same buffers, up to the same end. -/
theorem abreast_walk (h : r₁.Alike r₂) (hk : r₁.Determined) (host₁ host₂ : Attendant)
    (t₁ t₂ : Thread) : Abreast (walked (r₁.walk host₁ t₁)) (walked (r₂.walk host₂ t₂)) := by
  cases hc : r₁.compiled with
  | none =>
    rw [walk_of_fresh hc, walk_of_fresh (h.compiled ▸ hc)]
    exact ⟨rfl, rfl, h, hk⟩
  | some c =>
    have hkernels := hk.compiled c hc
    obtain ⟨trace₁, h₁⟩ := walk_of_compiled hc hkernels host₁ t₁
    obtain ⟨trace₂, h₂⟩ := walk_of_compiled (h.compiled ▸ hc) hkernels host₂ t₂
    rw [h₁, h₂, ← h.descriptor]
    -- only the recorded events may differ, and they are no part of being alike
    refine ⟨rfl, rfl, ⟨rfl, h.loader, h.decoders, rfl, h.weightsLoaded⟩, hk.loaded, ?_⟩
    rintro _ ⟨⟩
    exact hkernels

/-- **One call** comes to the same on alike runners, wherever it is made. -/
theorem abreast_serve (h : r₁.Alike r₂) (hk : r₁.Determined) (s₁ s₂ : Surroundings) (q : Request) :
    Abreast (r₁.serve s₁ q) (r₂.serve s₂ q) := by
  cases q with
  | compile => exact (agree_compile h _ _).abreast (determined_act hk _)
  | loadWeights bytes => exact (agree_loadWeights h bytes _ _).abreast (determined_act hk _)
  | setInput name values => exact (agree_setInput h name values).abreast (determined_act hk _)
  | run =>
    -- a run is a walk too, with the sink of its runner as the attendant
    obtain ⟨ho₁, hr₁⟩ := run_eq_walk r₁ s₁.thread
    obtain ⟨ho₂, hr₂⟩ := run_eq_walk r₂ s₂.thread
    rw [serve, serve, ho₁, ho₂, hr₁, hr₂]
    exact abreast_walk h hk r₁.sink.attendant r₂.sink.attendant s₁.thread s₂.thread
  | walk => exact abreast_walk h hk s₁.host s₂.host s₁.thread s₂.thread
  | elementsOf name => exact ⟨congrArg Reply.elements (h.elementsOf name), rfl, h, hk⟩
  | weightOf name => exact ⟨congrArg Reply.weight (h.weightOf name), rfl, h, hk⟩
  | inputViews =>
    rw [serve, serve, ← h.inputViews, ← h.seen]
    exact ⟨rfl, rfl, h, hk⟩
  | outputViews =>
    rw [serve, serve, ← h.outputViews, ← h.seen]
    exact ⟨rfl, rfl, h, hk⟩
  | useInputs body hbody =>
    have hagree :
        Agree (r₁.act (.useInputs body s₁.thread)) (r₂.act (.useInputs body s₂.thread)) := by
      rw [act, act, ← h.inputViews]
      exact agree_useViews h _ hbody _ _
    exact hagree.abreast (determined_act hk _)
  | useOutputs body hbody =>
    have hagree :
        Agree (r₁.act (.useOutputs body s₁.thread)) (r₂.act (.useOutputs body s₂.thread)) := by
      rw [act, act, ← h.outputViews]
      exact agree_useViews h _ hbody _ _
    exact hagree.abreast (determined_act hk _)

/-- **Observing does not influence computing.** Let two runners over one graph be in one state, with
whatever options and sinks, let their kernels be functions, and let the same calls be made on both.
The calls on one may be made on threads that have nothing to do with those of the other, at any
level of logging, and whoever steps through a pass may do anything on its thread between the steps.
Then every call has the same answer on both, kernels are called with the same arguments on the same
elements in the same order, and after every call the two are both compiled or both not, have both
loaded their weights or both not, and have the same elements in every variable and every weight. -/
theorem observers_agree (h : r₁.Alike r₂) (hk : r₁.Determined) (s₁ s₂ : Nat → Surroundings)
    (qs : List Request) :
    List.Forall₂ Reaction.Same (r₁.converse s₁ qs) (r₂.converse s₂ qs) := by
  induction qs generalizing r₁ r₂ s₁ s₂ with
  | nil => exact .nil
  | cons q qs ih =>
    have hfirst := abreast_serve h hk (s₁ 0) (s₂ 0) q
    -- the first call leaves the runners alike, which is all that the other calls need
    exact .cons hfirst.same (ih hfirst.alike hfirst.determined _ _)

/-- The runner whose second instruction fails, with everything about it recorded and timed. -/
def watched : Runner :=
  { halting with
    options := { Options.default with traceEvents := true, timer := true }
    sink := .log }

/-- Calls on a thread on which nothing is logged and no time passes. -/
def idle : Nat → Surroundings := fun _ => ⟨quiet, fun _ _ t => t⟩

/-- Calls on a thread on which everything is logged and time passes, and on which something is
printed between the steps. -/
def busy : Nat → Surroundings := fun _ =>
  ⟨{ quiet with level := .full, clock := fun k => k * 1000000000 }, fun _ _ t => t.print "step"⟩

theorem determined_halting : halting.Determined where
  loaded := by
    rintro _ ⟨⟩
  compiled c hc := by
    obtain rfl := Option.some.inj hc
    intro entry hentry
    rcases List.mem_cons.mp hentry with rfl | hentry
    · exact fun args b t t' => ⟨rfl, rfl⟩
    · obtain rfl := List.mem_singleton.mp hentry
      exact Kernel.determined_of_blind blind_partialWrite

/-- The events are different, and all else is the same. -/
theorem observers_agree_watched :
    let qs := [.run, .elementsOf "a", .walk, .compile]
    halting.Alike watched ∧ halting.Determined ∧
      List.Forall₂ Reaction.Same (halting.converse idle qs) (watched.converse busy qs) ∧
      (halting.converse idle qs).map Reaction.reply =
        [.done (.error (.custom "partial failure")), .elements (.ok [.ofInt 9]),
          .done (.error (.custom "partial failure")), .done (.error .alreadyCompiled)] ∧
      (halting.converse idle qs).map (fun x => x.calls.length) = [2, 0, 2, 0] ∧
      (halting.converse idle qs).map (fun x => x.runner.trace.length) = [0, 0, 0, 0] ∧
      (watched.converse busy qs).map (fun x => x.runner.trace.length) = [1, 1, 1, 1] := by
  have halike : halting.Alike watched := ⟨rfl, rfl, rfl, rfl, rfl⟩
  exact ⟨halike, determined_halting, observers_agree halike determined_halting idle busy _, rfl,
    rfl, rfl, rfl⟩

end Runner

end InferenceEngine
