import InferenceEngine.Model
import InferenceEngine.Proofs.Compiling
import InferenceEngine.Proofs.Directories
import InferenceEngine.Proofs.LittleEndian
import InferenceEngine.Proofs.Loading
import InferenceEngine.Proofs.RoundTrip

/-!
# Models behave like the contents of their directories

A model is opened by reading two files. `Model.directory_exact` is the main statement: what is
opened is decided by the contents of the directory alone, and a runner of the model comes to the
same as one of the descriptor that the graph file spells, loaded with the bytes of the weight file.
A missing weight file is an empty one.

* `Model.ofContents` — what is made of the contents of a directory; `Model.ofDirectory_eq` says that
  opening the directory comes to it.
* `Runner.prepare` — compiling and loading, with both answers. `Runner.prepare_congr` says that it
  is the same on every thread.
* `Runner.prepare_raw` — the raw encoding takes four bytes for each element of the layout.
-/

namespace InferenceEngine

variable {files : Files} {dir backend : String} {contents : NameMap Bytes} {m : Model}

/-! ## Opening -/

namespace Model

/-- Whatever the backend is called, its files lie in the directory: their names begin neither at the
root nor with a dot. -/
theorem plain_graphFileName (backend : String) : Files.Plain (graphFileName backend) := by
  simp [Files.Plain, graphFileName]

theorem plain_weightFileName (backend : String) : Files.Plain (weightFileName backend) := by
  simp [Files.Plain, weightFileName]

/-- The descriptor that the contents of a directory have for a backend, or why there is none. -/
def graphOf (dir backend : String) (contents : NameMap Bytes) : Except Failure Descriptor :=
  let path := Files.join dir (graphFileName backend)
  match (contents.get? (graphFileName backend)).bind Files.decodeText? with
  | none => .error (.unreadable .descriptor path)
  | some text =>
    match Descriptor.ofText? text with
    | none => .error (.malformed (.descriptor (some path)))
    | some d => .ok d

/-- The encoded weights that the contents of a directory have for a backend. -/
def weightsOf (backend : String) (contents : NameMap Bytes) : Bytes :=
  (contents.get? (weightFileName backend)).getD []

/-- Reading the descriptor comes to what the contents of the directory have for it. -/
theorem readDescriptor_eq (h : files.Lists dir contents) (backend : String) :
    readDescriptor files (Files.join dir (graphFileName backend)) =
      graphOf dir backend contents := by
  have hread : files.readText? (Files.join dir (graphFileName backend)) =
      (contents.get? (graphFileName backend)).bind Files.decodeText? := by
    rw [Files.readText?, Files.read?, h.node?_join (plain_graphFileName backend)]
    cases contents.get? (graphFileName backend) <;> rfl
  rw [readDescriptor, hread]
  rfl

/-- Reading the weights never fails. Without a file there are none, and a warning says so. -/
theorem readWeights_eq (h : files.Lists dir contents) (backend : String) (t : Thread) :
    readWeights files (Files.join dir (weightFileName backend)) t =
      (.ok (weightsOf backend contents),
        if contents.get? (weightFileName backend) = none then
          t.emit .warning (missingText (Files.join dir (weightFileName backend)))
        else t) := by
  rw [readWeights, h.node?_join (plain_weightFileName backend), weightsOf]
  cases contents.get? (weightFileName backend) with
  | none => rfl
  | some content => simp

/-- What opening a directory comes to when it has these contents. -/
def ofContents (dir backend : String) (contents : NameMap Bytes) (t : Thread) :
    Except Failure Model × Thread :=
  match graphOf dir backend contents with
  | .error f => (.error f, t)
  | .ok descriptor =>
    (.ok { dir, backend, descriptor, weights := weightsOf backend contents },
      if contents.get? (weightFileName backend) = none then
        t.emit .warning (missingText (Files.join dir (weightFileName backend)))
      else t)

/-- **Opening a directory comes to what its contents say.** -/
theorem ofDirectory_eq (h : files.Lists dir contents) (backend : String) (t : Thread) :
    ofDirectory files dir backend t = ofContents dir backend contents t := by
  rw [ofDirectory, readDescriptor_eq h, ofContents]
  cases graphOf dir backend contents with
  | error f => rfl
  | ok d =>
    dsimp only
    rw [readWeights_eq h]

/-- There is a descriptor just if its file is there, is text, and is the text of a descriptor. -/
theorem graphOf_eq_ok {d : Descriptor} :
    graphOf dir backend contents = .ok d ↔
      ∃ bytes text, contents.get? (graphFileName backend) = some bytes ∧
        Files.decodeText? bytes = some text ∧ Descriptor.ofText? text = some d := by
  rw [graphOf]
  cases contents.get? (graphFileName backend) with
  | none => simp
  | some bytes =>
    rw [Option.bind_some]
    cases htext : Files.decodeText? bytes with
    | none => simp [htext]
    | some text => cases hd : Descriptor.ofText? text <;> simp [htext, hd]

/-- Otherwise the failure says which of these it was: no file or no text, or another text. -/
theorem graphOf_eq_error {f : Failure} :
    graphOf dir backend contents = .error f ↔
      let path := Files.join dir (graphFileName backend)
      ((contents.get? (graphFileName backend)).bind Files.decodeText? = none ∧
        f = .unreadable .descriptor path) ∨
      ∃ text, (contents.get? (graphFileName backend)).bind Files.decodeText? = some text ∧
        Descriptor.ofText? text = none ∧ f = .malformed (.descriptor (some path)) := by
  rw [graphOf]
  cases (contents.get? (graphFileName backend)).bind Files.decodeText? with
  | none => simp [eq_comm]
  | some text => cases hd : Descriptor.ofText? text <;> simp [hd, eq_comm]

end Model

/-! ## Compiling and loading -/

namespace Runner

/-- How compiling a runner and then loading its weights have ended. -/
structure Prepared where
  /-- the answer to compiling -/
  compiled : Outcome Unit
  /-- the answer to loading -/
  loaded : Outcome Unit
  /-- the runner afterwards -/
  runner : Runner
  /-- the thread afterwards -/
  thread : Thread

/-- Compiles a runner and loads its weights, whatever compiling has come to. -/
def prepare (load : Runner → Thread → Outcome Unit × Runner × Thread) (r : Runner) (t : Thread) :
    Prepared :=
  match r.compile t with
  | (compiled, r, t) =>
    match load r t with
    | (loaded, r, t) => ⟨compiled, loaded, r, t⟩

/-- What compiling comes to does not depend on the thread. -/
theorem compile_congr (r : Runner) (t u : Thread) :
    (r.compile t).1 = (r.compile u).1 ∧ (r.compile t).2.1 = (r.compile u).2.1 := by
  rw [compile, compile]
  cases r.compiled with
  | some c => exact ⟨rfl, rfl⟩
  | none => cases build r.loader r.descriptor <;> exact ⟨rfl, rfl⟩

/-- Neither does what loading comes to. -/
theorem loadWeights_congr (r : Runner) (bytes : Bytes) (t u : Thread) :
    (r.loadWeights bytes t).1 = (r.loadWeights bytes u).1 ∧
      (r.loadWeights bytes t).2.1 = (r.loadWeights bytes u).2.1 := by
  rw [loadWeights, loadWeights]
  cases r.compiled with
  | none => exact ⟨rfl, rfl⟩
  | some c =>
    dsimp only
    by_cases hloaded : r.weightsLoaded = true
    · simp [hloaded]
    rw [if_neg hloaded, if_neg hloaded]
    cases r.registry.find r.descriptor.encoding with
    | error f => exact ⟨rfl, rfl⟩
    | ok decoder =>
      dsimp only
      cases decodeWeights decoder bytes r.descriptor.weights c.weights <;> exact ⟨rfl, rfl⟩

/-- Preparing a runner comes to the same on all threads, but for what is written on them. -/
theorem prepare_congr (r : Runner) (bytes : Bytes) (t u : Thread) :
    let p := r.prepare (fun r => r.loadWeights bytes) t
    let p' := r.prepare (fun r => r.loadWeights bytes) u
    p.compiled = p'.compiled ∧ p.loaded = p'.loaded ∧ p.runner = p'.runner := by
  intro p p'
  obtain ⟨hcompiled, hr⟩ := compile_congr r t u
  obtain ⟨hloaded, hr'⟩ := loadWeights_congr (r.compile t).2.1 bytes (r.compile t).2.2
    (r.compile u).2.2
  have hloads : (r.compile t).2.1.loadWeights bytes (r.compile u).2.2 =
      (r.compile u).2.1.loadWeights bytes (r.compile u).2.2 := by rw [hr]
  exact ⟨hcompiled, hloaded.trans (congrArg (·.1) hloads), hr'.trans (congrArg (·.2.1) hloads)⟩

/-- **The raw encoding takes four bytes for each element**, whatever the regions are. -/
theorem prepare_raw {r : Runner} (hnew : r.weightsLoaded = false)
    (hfind : r.registry.find r.descriptor.encoding = .ok decodeRaw) {bytes : Bytes} {t : Thread}
    (hcompiled : (r.prepare (fun r => r.loadWeights bytes) t).compiled = .ok ()) :
    (r.prepare (fun r => r.loadWeights bytes) t).loaded = .ok () ↔
      bytes.length = 4 * r.descriptor.weights.totalSize.toNat := by
  obtain ⟨c, hholds⟩ := holds_of_compile hcompiled
  have hget : r.registry.decoders.get? r.descriptor.encoding = some decodeRaw := by
    rw [DecoderRegistry.find] at hfind
    split at hfind
    · rename_i decoder hget
      rw [hget, Except.ok.inj hfind]
    · cases hfind
  obtain ⟨-, c', -, hr⟩ := compile_of_ok hcompiled
  -- compiling changes nothing that the chain of checks asks for
  have haccepts (values : List Single) : (r.compile t).2.1.Accepts bytes values ↔
      r.weightsLoaded = false ∧ r.Decodes bytes (.ok values) ∧
        values.length = r.descriptor.weights.totalSize.toNat := by
    rw [hr]
    rfl
  refine (load_iff hholds bytes _).1.trans ?_
  constructor
  · rintro ⟨values, hvalues⟩
    obtain ⟨-, ⟨decoder, hdecoder, hdecode⟩, -⟩ := (haccepts values).mp hvalues
    obtain rfl := Option.some.inj (hget.symm.trans hdecoder)
    exact (decodeRaw_eq_ok.mp hdecode).1
  · intro hlength
    refine ⟨words bytes, (haccepts _).mpr ⟨hnew, ⟨decodeRaw, hget, ?_⟩, ?_⟩⟩
    · exact decodeRaw_eq_ok.mpr ⟨hlength, rfl⟩
    · rw [length_words]
      omega

end Runner

namespace Model

/-- **A model directory behaves like its contents.** Let a directory have regular files with some
contents, and let it be opened for a backend.

* It is opened just if there is a graph file that holds the text of a descriptor.
* If it is not, nothing is logged, and what is reported names the graph file: it cannot be read, or
  it spells no descriptor.
* If it is, the model has the descriptor that the graph file spells and the bytes of the weight
  file. Without a weight file it has no bytes, and this is logged.
* With any loader, options, sink and decoders, a runner of the model that is compiled and loads its
  weights from the model answers as a runner of that descriptor does that is compiled and loads
  those bytes, whatever thread each is on, and the two runners are the same afterwards.
* In the raw encoding, loading after compiling succeeds just if the weight file has four bytes for
  each element of the layout, where a missing file has none. -/
theorem directory_exact (h : files.Lists dir contents) (backend : String) (t : Thread) :
    let path := Files.join dir (graphFileName backend)
    let graph := contents.get? (graphFileName backend)
    let weights := contents.get? (weightFileName backend)
    let opened := ofDirectory files dir backend t
    ((∃ m, opened.1 = .ok m) ↔ ∃ bytes text d, graph = some bytes ∧
      Files.decodeText? bytes = some text ∧ Descriptor.ofText? text = some d) ∧
    (∀ f, opened.1 = .error f → opened.2 = t ∧
      ((graph.bind Files.decodeText? = none ∧ f = .unreadable .descriptor path) ∨
        ∃ text, graph.bind Files.decodeText? = some text ∧ Descriptor.ofText? text = none ∧
          f = .malformed (.descriptor (some path)))) ∧
    ∀ m, opened.1 = .ok m → ∃ bytes text d, graph = some bytes ∧
      Files.decodeText? bytes = some text ∧ Descriptor.ofText? text = some d ∧
      m = { dir, backend, descriptor := d, weights := weights.getD [] } ∧
      opened.2 = (if weights = none then
        t.emit .warning (missingText (Files.join dir (weightFileName backend))) else t) ∧
      ∀ loader options sink decoders u u',
        let r : Runner := { m.runner loader with options, sink, decoders }
        let r' : Runner := { Runner.ofDescriptor d loader with options, sink, decoders }
        let p := r.prepare (fun r => r.loadWeightsFrom m) u
        let p' := r'.prepare (fun r => r.loadWeights (weights.getD [])) u'
        p.compiled = p'.compiled ∧ p.loaded = p'.loaded ∧ p.runner = p'.runner ∧
        (u = u' → p.thread = p'.thread) ∧
        (d.encoding = "raw" → (∀ registry ∈ decoders, registry.find "raw" = .ok decodeRaw) →
          p.compiled = .ok () → (p.loaded = .ok () ↔
            (weights.map List.length).getD 0 = 4 * d.weights.totalSize.toNat)) := by
  intro path graph weights opened
  have hopened : opened = ofContents dir backend contents t := ofDirectory_eq h backend t
  rw [hopened, ofContents]
  -- the graph file decides whether there is a model; the weight file is only asked for its bytes
  cases hgraph : graphOf dir backend contents with
  | error f =>
    refine ⟨⟨?_, ?_⟩, ?_, ?_⟩
    · rintro ⟨m, ⟨⟩⟩
    · rintro ⟨bytes, text, d, hspelled⟩
      cases hgraph.symm.trans (graphOf_eq_ok.mpr ⟨bytes, text, hspelled⟩)
    · rintro f' ⟨⟩
      exact ⟨rfl, graphOf_eq_error.mp hgraph⟩
    · rintro m ⟨⟩
  | ok d =>
    obtain ⟨bytes, text, hbytes, htext, hd⟩ := graphOf_eq_ok.mp hgraph
    refine ⟨⟨?_, ?_⟩, ?_, ?_⟩
    · intro _
      exact ⟨bytes, text, d, hbytes, htext, hd⟩
    · intro _
      exact ⟨_, rfl⟩
    · rintro f ⟨⟩
    · rintro m ⟨⟩
      refine ⟨bytes, text, d, hbytes, htext, hd, rfl, rfl, ?_⟩
      intro loader options sink decoders u u' r r' p p'
      obtain ⟨hcompiled, hloaded, hrunner⟩ := Runner.prepare_congr r' (weights.getD []) u u'
      refine ⟨hcompiled, hloaded, hrunner, ?_, ?_⟩
      · rintro rfl
        rfl
      · intro hraw hdecoders hok
        have hfind : r'.registry.find r'.descriptor.encoding = .ok decodeRaw := by
          show (decoders.getD .builtin).find d.encoding = .ok decodeRaw
          rw [hraw]
          cases decoders with
          | none => rfl
          | some registry => exact hdecoders registry rfl
        -- a missing file and an empty one come to the same number of bytes
        have hlength : (weights.map List.length).getD 0 = (weights.getD []).length := by
          cases weights <;> rfl
        rw [hlength]
        exact Runner.prepare_raw rfl hfind hok

/-- A graph with two weights that no region names. -/
def nameless : Descriptor := { Descriptor.default with weights := .empty 2 }

/-- The contents of a directory with this graph and no weight file. -/
def unweighted : NameMap Bytes :=
  NameMap.empty.insert (graphFileName "cpu") (Files.encodeText nameless.print)

/-- The directory of the example lists its one file. -/
theorem lists_unweighted : (Files.ofContents "model" unweighted).Lists "model" unweighted := by
  apply Files.lists_ofContents (by decide)
  intro name hname
  obtain rfl := List.mem_singleton.mp hname
  decide

theorem ofText?_nameless : Descriptor.ofText? nameless.print = some nameless := by
  have hreals : Json.ReadBack nameless.reals := by
    intro x hx
    cases hx
  have hdepth : nameless.tree.depth ≤ Json.nestingLimit := by decide
  obtain ⟨tree, htree, hd⟩ :=
    Descriptor.parse_eq_ok_iff.mp (Descriptor.parse_print_of_depth hreals hdepth)
  rw [Descriptor.ofText?, htree]
  exact hd

/-- Its weights cannot be named, but they are there when it is compiled. -/
theorem compilable_nameless (loader : KernelLoader) (hsource : Materializes loader nameless) :
    Compilable loader nameless := by
  have hweights : nameless.weights.Sound := by
    constructor
    · intro name r hget
      cases hget
    · rintro p q ⟨-, r, s, hget, -⟩
      cases hget
  have hbuffers : nameless.buffers.Fits := by
    intro name r hget
    cases hget
  have hnone : ∀ name ∈ ([] : List String), ∃ region, nameless.buffers.get? name = some region := by
    intro name hname
    cases hname
  exact ⟨hsource, hweights, hbuffers, hnone, hnone⟩

/-- A missing weight file counts as an empty one also where there should be weights: the model is
opened, and its weights are refused. -/
theorem directory_exact_unweighted :
    let files := Files.ofContents "model" unweighted
    let loader : KernelLoader := ⟨fun _ => .ok ⟨[]⟩⟩
    files.Lists "model" unweighted ∧
      ∃ m, (ofDirectory files "model" "cpu" Runner.quiet).1 = .ok m ∧ m.descriptor = nameless ∧
        m.weights = [] ∧
        let p := (m.runner loader).prepare (fun r => r.loadWeightsFrom m) Runner.quiet
        p.compiled = .ok () ∧ p.loaded ≠ .ok () := by
  intro files loader
  have hgraph : unweighted.get? (graphFileName "cpu") = some (Files.encodeText nameless.print) := by
    rw [unweighted, NameMap.get?_insert, if_pos rfl]
  have hweights : unweighted.get? (weightFileName "cpu") = none := by
    rw [unweighted, NameMap.get?_insert, if_neg (by decide)]
    rfl
  have htext := Files.decodeText?_encodeText nameless.print
  have hcompiled : ((Runner.ofDescriptor nameless loader).compile Runner.quiet).1 = .ok () :=
    (Runner.compile_eq_ok_iff rfl _).mpr ⟨compilable_nameless loader ⟨_, rfl⟩, by decide⟩
  have hbuiltin : ∀ registry ∈ (none : Option DecoderRegistry),
      registry.find "raw" = .ok decodeRaw := by
    intro registry hregistry
    cases hregistry
  obtain ⟨hopens, -, hmodel⟩ := directory_exact lists_unweighted "cpu" Runner.quiet
  obtain ⟨m, hm⟩ := hopens.mpr ⟨_, _, _, hgraph, htext, ofText?_nameless⟩
  obtain ⟨bytes, text, d, hbytes, htext', hd, rfl, -, hruns⟩ := hmodel m hm
  obtain rfl := Option.some.inj (hgraph.symm.trans hbytes)
  obtain rfl := Option.some.inj (htext.symm.trans htext')
  obtain rfl := Option.some.inj (ofText?_nameless.symm.trans hd)
  obtain ⟨-, -, -, -, hraw⟩ := hruns loader .default .log none Runner.quiet Runner.quiet
  refine ⟨lists_unweighted, _, hm, rfl, ?_, hcompiled, ?_⟩
  · rw [hweights]
    rfl
  · intro hloaded
    have hlength := (hraw rfl hbuiltin hcompiled).mp hloaded
    rw [hweights] at hlength
    cases hlength

end Model

end InferenceEngine
