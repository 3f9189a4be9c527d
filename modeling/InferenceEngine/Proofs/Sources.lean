import InferenceEngine.Options.Layers
import InferenceEngine.Proofs.Paths
import InferenceEngine.Proofs.Records
import InferenceEngine.Proofs.Rounding

/-!
# Sources of options

The same options can be given as a JSON text, by variables, and by a configuration file.
`Options.sources_exact` says what each of the three ways gives back:

* a JSON text of the options is read as these options, in whatever order its members stand
  (`Options.parse_of_spelled`),
* so are the variables that spell them (`Options.ofVariables_of_given`),
* a configuration file with such a text gives the options with both intervals as `Options.kept` leaves
  them, as an integer that needs all 64 bits of a word passes through a double on its way
  (`Options.ofFile_of_spelled`).
-/

namespace InferenceEngine

open Json

/-! ## Decimal numbers -/

namespace Digits

/-- Digits are written from the last one on, as the library writes them. -/
theorem text_push {rounds n : Nat} (h : n < rounds) (tail : List Digit) :
    text (push rounds n tail) = Nat.toDigits 10 n ++ text tail := by
  have hchar : ∀ d : Digit, Nat.digitChar d.val = d.toChar := by decide
  induction rounds generalizing n tail with
  | zero => exact absurd h (Nat.not_lt_zero n)
  | succ rounds ih =>
    have hlast := hchar ⟨n % 10, Nat.mod_lt n (by decide)⟩
    rw [push, Nat.toDigits_eq_if (by decide)]
    split
    · rename_i hlt
      have hone := congrArg Nat.digitChar (Nat.mod_eq_of_lt hlt)
      rw [← hone, hlast]
      rfl
    · rw [ih (by omega), hlast, List.append_assoc]
      rfl

/-- The decimal spelling of a number is that of its digits. -/
theorem toList_toString (n : Nat) : (toString n).toList = text (ofNat n) := by
  have hrepr : toString n = String.ofList (Nat.toDigits 10 n) := Nat.repr_eq_ofList_toDigits
  have hpush : text (ofNat n) = Nat.toDigits 10 n := by
    rw [ofNat, text_push (Nat.lt_succ_self n)]
    exact List.append_nil _
  rw [hrepr, String.toList_ofList, hpush]

end Digits

/-! ## Settings -/

/-- What is left of an interval that is held as a configuration file holds it. -/
def Options.kept (n : UInt64) : UInt64 :=
  if n.toNat < 2 ^ 63 then n
  else UInt64.ofNat (min (Double.spacing * Binary.roundQuotient n.toNat Double.spacing)
    (UInt64.size - 1))

namespace Setting

/-- A text of digits is not a word for yes or no. -/
theorem not_word_of_digits {s : String} {d : Digit} {ds : List Digit}
    (h : s.toList = Digits.text (d :: ds)) : lower s ∉ yesWords ++ noWords := by
  have hlower : ∀ d : Digit, lowerChar d.toChar = d.toChar := by decide
  have hwords : ∀ w ∈ yesWords ++ noWords, ∀ d : Digit, w.toList.head? ≠ some d.toChar := by decide
  intro hmem
  refine hwords _ hmem d ?_
  rw [lower, String.toList_map, h]
  exact congrArg some (hlower d)

/-- A number below the limit of a word is read from its digits. -/
theorem digitCount?_text {d : Digit} {ds : List Digit} {n : UInt64}
    (h : Digits.value (d :: ds) = n.toNat) : digitCount? (Digits.text (d :: ds)) = some n := by
  have hdigits : allSome Digit.ofChar? (Digits.text (d :: ds)) = some (d :: ds) :=
    allSome_map fun d _ => d.ofChar?_toChar
  show (do
    let ds ← allSome Digit.ofChar? (Digits.text (d :: ds))
    if Digits.value ds < UInt64.size then some (UInt64.ofNat (Digits.value ds)) else none) = _
  rw [hdigits, Option.bind_eq_bind, Option.bind_some, h, if_pos n.toNat_lt, UInt64.ofNat_toNat]

/-- A number is read from its decimal spelling. -/
theorem count?_toString (n : UInt64) : (text (toString n.toNat)).count? = some n := by
  obtain ⟨d, ds, hdigits, -⟩ := Digits.ofNat_spec n.toNat
  have hvalue : Digits.value (d :: ds) = n.toNat := by rw [← hdigits, Digits.value_ofNat]
  have hspelling := Digits.toList_toString n.toNat
  rw [hdigits] at hspelling
  have hword := not_word_of_digits hspelling
  rw [List.mem_append, not_or] at hword
  have hplus : ∀ d : Digit, d.toChar ≠ '+' := by decide
  rw [count?, if_neg hword.1, if_neg hword.2, parseCount?]
  split
  · rename_i heq
    rw [hspelling] at heq
    exact absurd (List.cons.inj heq).1 (hplus d)
  · rw [hspelling]
    exact digitCount?_text hvalue

/-- A truth value is read from its word. -/
theorem flag?_toString (b : Bool) : (text (toString b)).flag? = some b := by
  have hyes : lower "true" = "true" := by decide +kernel
  have hno : lower "false" = "false" := by decide +kernel
  cases b with
  | true =>
    show (text "true").flag? = _
    rw [flag?, hyes]
    rfl
  | false =>
    show (text "false").flag? = _
    rw [flag?, hno]
    rfl

/-- A number of a JSON value is held as an integer if it is below `2 ^ 63`, as a double if not. -/
theorem count?_ofJson (n : UInt64) (fits : FitsWord n.toNat) :
    (ofJson (.number (.integer n.toNat fits))).count? = some (Options.kept n) := by
  have hsmall : (n.toNat : Int) < signedLimit ↔ n.toNat < 2 ^ 63 := by
    rw [signedLimit]
    omega
  rw [ofJson, Options.kept]
  by_cases h : n.toNat < 2 ^ 63
  · have hrange : 0 ≤ (n.toNat : Int) ∧ (n.toNat : Int) < UInt64.size :=
      ⟨Int.natCast_nonneg _, Int.ofNat_lt.mpr n.toNat_lt⟩
    rw [if_pos (hsmall.mpr h), if_pos h, count?, if_pos hrange, Int.toNat_natCast,
      UInt64.ofNat_toNat]
  · rw [if_neg (mt hsmall.mp h), if_neg h, count?,
      Double.toCount_ofInt (Nat.le_of_not_lt h) n.toNat_lt]

end Setting

/-! ## Layers -/

section Names

variable {α : Type} {e : String × α} {name : String} {value : α} {entries : List (String × α)}

/-- What is bound is there, -/
theorem mem_bindName_self : (name, value) ∈ bindName name value entries := by
  induction entries with
  | nil => exact List.mem_cons_self
  | cons b rest ih =>
    rw [bindName]
    split
    · exact List.mem_cons_self
    · split
      · exact List.mem_cons_self
      · exact List.mem_cons_of_mem b ih

/-- and what was there under other names still is. -/
theorem mem_bindName_of_ne (he : e ∈ entries) (hne : e.1 ≠ name) :
    e ∈ bindName name value entries := by
  induction entries with
  | nil => cases he
  | cons b rest ih =>
    rw [bindName]
    split
    · rename_i heq
      obtain rfl | he := List.mem_cons.mp he
      · exact absurd heq.symm hne
      · exact List.mem_cons_of_mem _ he
    · split
      · exact List.mem_cons_of_mem _ he
      · obtain rfl | he := List.mem_cons.mp he
        · exact List.mem_cons_self
        · exact List.mem_cons_of_mem b (ih he)

/-- Nothing is there but what was bound, or was there before. -/
theorem mem_of_mem_bindAll {pairs bound : List (String × α)} (h : e ∈ bindAll pairs bound) :
    e ∈ pairs ∨ e ∈ bound := by
  induction pairs generalizing bound with
  | nil => exact .inr h
  | cons p pairs ih =>
    obtain hp | hbind := ih h
    · exact .inl (List.mem_cons_of_mem p hp)
    · obtain rfl | hbound := mem_bindName hbind
      · exact .inl List.mem_cons_self
      · exact .inr hbound

/-- A pair is bound if no other pair has its name. -/
theorem mem_bindAll {pairs bound : List (String × α)} (honly : ∀ p ∈ pairs, p.1 = e.1 → p = e)
    (h : e ∈ pairs ∨ e ∈ bound) : e ∈ bindAll pairs bound := by
  induction pairs generalizing bound with
  | nil => exact h.resolve_left List.not_mem_nil
  | cons p pairs ih =>
    obtain ⟨hp, hpairs⟩ := List.forall_mem_cons.mp honly
    refine ih hpairs ?_
    by_cases hname : p.1 = e.1
    · rw [hp hname]
      exact .inr mem_bindName_self
    · rw [List.mem_cons] at h
      obtain (rfl | he) | he := h
      · exact absurd rfl hname
      · exact .inl he
      · exact .inr (mem_bindName_of_ne he (Ne.symm hname))

end Names

namespace Layer

variable {l : Layer} {option : String} {s : Setting}

/-- An entry sets the option that its key leads to. -/
theorem entryValue?_eq (option : String) (e : String × Setting) : entryValue? option e =
    if (target e.1).1 = option then some (if (target e.1).2 then e.2 else .compound) else none := rfl

/-- A layer sets an option if some entry does and no entry sets it to something else. -/
theorem value?_eq_some {e : String × Setting} (he : e ∈ l) (hset : entryValue? option e = some s)
    (honly : ∀ e ∈ l, ∀ s', entryValue? option e = some s' → s' = s) :
    l.value? option = some s := by
  cases hvalue : l.value? option with
  | none =>
    have hnone := List.findSome?_eq_none_iff.mp hvalue e (List.mem_reverse.mpr he)
    rw [hset] at hnone
    cases hnone
  | some s' =>
    obtain ⟨e', he', hset'⟩ := List.exists_of_findSome?_eq_some hvalue
    rw [honly e' (List.mem_reverse.mp he') s' hset']

/-- Entries under distinct names that are no paths set the options of these names. -/
theorem value?_of_mem (hnames : ∀ e ∈ l, target e.1 = (e.1, true)) (hnodup : (l.map (·.1)).Nodup)
    {e : String × Setting} (he : e ∈ l) : l.value? e.1 = some e.2 := by
  have hvalue {e : String × Setting} (he : e ∈ l) (option : String) :
      entryValue? option e = if e.1 = option then some e.2 else none := by
    rw [entryValue?_eq, hnames e he]
    rfl
  refine value?_eq_some he ?_ fun e' he' s' hset => ?_
  · rw [hvalue he, if_pos rfl]
  · rw [hvalue he'] at hset
    split at hset
    · rename_i hname
      have hsame : e' = e := List.inj_on_of_nodup_map hnodup he' he hname
      rw [← hsame]
      exact (Option.some.inj hset).symm
    · cases hset

/-! ## Positions -/

/-- The key leads to no position where nothing can be. -/
def Settable (key : String) : Prop :=
  ∀ position ∈ positions key, 0 ≤ position ∧ position < positionLimit

instance (key : String) : Decidable (Settable key) :=
  inferInstanceAs (Decidable (∀ position ∈ positions key, _))

/-- From zero up to the limit of memory every position can be made. -/
theorem breach?_eq_none {position : Int} :
    breach? position = none ↔ 0 ≤ position ∧ position < positionLimit := by
  rw [breach?]
  split
  · simp; omega
  · split <;> simp <;> omega

/-- Nothing breaks loading off just if every key can be set. -/
theorem breaks?_eq_none : l.breaks? = none ↔ ∀ e ∈ l, Settable e.1 := by
  simp only [breaks?, List.findSome?_eq_none_iff, breach?_eq_none, Settable]

/-! ## Variables -/

/-- The variable is for the option, or for a part of it. -/
def IsFor (option name : String) : Prop := ∃ key, variableKey? name = some key ∧ (target key).1 = option

/-- The layer of variables has an entry for each of them that is not empty and whose name starts as
it should. -/
theorem mem_ofVariables {vars : List (String × String)} {e : String × Setting} :
    e ∈ ofVariables vars ↔ ∃ v ∈ bindAll vars [], v.2 ≠ "" ∧
      ∃ key, variableKey? v.1 = some key ∧ e = (key, .text v.2) := by
  rw [ofVariables, List.mem_filterMap, NameMap.entries_ofList]
  refine exists_congr fun v => and_congr_right fun _ => ?_
  by_cases hv : v.2 = ""
  · simp [hv]
  · simp [hv, eq_comm]

/-- Every entry is made from a variable that is listed. -/
theorem exists_variable {vars : List (String × String)} {e : String × Setting}
    (he : e ∈ ofVariables vars) :
    ∃ v ∈ vars, v.2 ≠ "" ∧ ∃ key, variableKey? v.1 = some key ∧ e = (key, .text v.2) := by
  obtain ⟨v, hv, hmade⟩ := mem_ofVariables.mp he
  exact ⟨v, (mem_of_mem_bindAll hv).resolve_right List.not_mem_nil, hmade⟩

/-- A variable sets its option if all others that are listed are for other options. -/
theorem value?_ofVariables {vars : List (String × String)} {name option text : String}
    (hkey : variableKey? name = some option) (htarget : target option = (option, true))
    (hmem : (name, text) ∈ vars) (hne : text ≠ "")
    (honly : ∀ v ∈ vars, IsFor option v.1 → v = (name, text)) :
    (ofVariables vars).value? option = some (.text text) := by
  have hfor : IsFor option name := ⟨option, hkey, congrArg Prod.fst htarget⟩
  have hbound : (name, text) ∈ bindAll vars [] :=
    mem_bindAll (fun v hv hname => honly v hv (hname ▸ hfor)) (.inl hmem)
  refine value?_eq_some (e := (option, .text text)) ?_ ?_ fun e he s' hset => ?_
  · exact mem_ofVariables.mpr ⟨_, hbound, hne, option, hkey, rfl⟩
  · rw [entryValue?_eq, htarget]
    exact if_pos rfl
  · obtain ⟨v, hv, -, key, hkey', rfl⟩ := exists_variable he
    rw [entryValue?_eq] at hset
    split at hset
    · rename_i hname
      obtain rfl := honly v hv ⟨key, hkey', hname⟩
      obtain rfl := Option.some.inj (hkey.symm.trans hkey')
      rw [htarget] at hset
      exact (Option.some.inj hset).symm
    · cases hset

/-- Variables for other options set nothing. -/
theorem value?_ofVariables_eq_none {vars : List (String × String)}
    (h : ∀ v ∈ vars, ¬ IsFor option v.1) : (ofVariables vars).value? option = none := by
  refine List.findSome?_eq_none_iff.mpr fun e he => ?_
  obtain ⟨v, hv, -, key, hkey, rfl⟩ := exists_variable (List.mem_reverse.mp he)
  exact if_neg fun hname => h v hv ⟨key, hkey, hname⟩

/-! ## Configuration files -/

/-- The layer of a file with a JSON text. -/
theorem readFile?_of_json {files : Files} {path text : String}
    (htext : files.readText? path = some text) (hpath : Files.extension path = "json") :
    readFile? readers files path = ofJsonText? text := by
  obtain ⟨content, hcontent, -⟩ := Option.bind_eq_some_iff.mp htext
  have hreader : readers.lookup "json" = some ofJsonText? := rfl
  rw [readFile?, hcontent]
  dsimp only
  rw [hpath, hreader, htext]
  rfl

/-- The layer of a file with a JSON object. -/
theorem readFile?_of_object {files : Files} {path text : String} {members : List (String × Json)}
    (htext : files.readText? path = some text) (hpath : Files.extension path = "json")
    (hobject : Json.ofText? text = some (.object members)) :
    readFile? readers files path = some (members.flatMap ofMember) := by
  rw [readFile?_of_json htext hpath, ofJsonText?, hobject]

/-- Members with plain values set the options of their names. -/
theorem flatMap_ofMember {members : List (String × Json)} (h : ∀ m ∈ members, m.2 ≠ .object []) :
    members.flatMap ofMember = members.map fun m => (m.1, .ofJson m.2) := by
  induction members with
  | nil => rfl
  | cons m members ih =>
    obtain ⟨hm, hmembers⟩ := List.forall_mem_cons.mp h
    rw [List.flatMap_cons, List.map_cons, ih hmembers, ofMember, if_neg fun hboth => hm hboth.1]
    rfl

end Layer

namespace Options

/-! ## Texts -/

/-- The members of the tree of options. -/
def members (o : Options) : List (String × Tree) :=
  [("progress_interval_ms", .ofNat o.progressIntervalMs.toNat),
    ("yield_interval_ms", .ofNat o.yieldIntervalMs.toNat), ("trace_events", .bool o.traceEvents),
    ("timer", .bool o.timer)]

/-- The text is a JSON object of the options, its members in any order. -/
def SpelledBy (o : Options) (text : String) : Prop :=
  ∃ ms, Tree.ofText? text = some (.object ms) ∧
    ms.Perm (o.members.map fun m => (Literal.ofString m.1, m.2))

theorem proper_tree (o : Options) : o.tree.Proper :=
  Tree.proper_ofMembers (by simp [Tree.proper_ofNat, Tree.Proper.bool])

/-- The text options are written as is one of them. -/
theorem spelledBy_compact (o : Options) : o.SpelledBy o.compact :=
  ⟨_, Tree.ofText?_compact o.proper_tree, .refl _⟩

variable {o : Options} {text : String}

/-- The fields of options. -/
def fields (o : Options) : List Tree.Field :=
  [⟨"progress_interval_ms", (· = .ofNat o.progressIntervalMs.toNat),
      o.progressIntervalMs = default.progressIntervalMs⟩,
    ⟨"yield_interval_ms", (· = .ofNat o.yieldIntervalMs.toNat),
      o.yieldIntervalMs = default.yieldIntervalMs⟩,
    ⟨"trace_events", (· = .bool o.traceEvents), o.traceEvents = default.traceEvents⟩,
    ⟨"timer", (· = .bool o.timer), o.timer = default.timer⟩]

/-- A JSON text of options is read as these options. -/
theorem parse_of_spelled (h : o.SpelledBy text) : parse text = .ok o := by
  obtain ⟨ms, htree, hperm⟩ := h
  have hmembers : Tree.Members o.fields o.members :=
    .given rfl (.given rfl (.given rfl (.given rfl .nil)))
  have hrecord : Tree.Record o.fields (.object ms) := by
    refine .object hmembers (List.forall_mem_nil _) ?_
    rw [List.append_nil]
    exact hperm
  obtain ⟨slots, hfields, hfits⟩ : ∃ slots, (Tree.object ms).fields? fieldNames = some slots ∧
      List.Forall₂ Tree.Field.Fits o.fields slots := Tree.fields?_of_record hrecord rfl (by decide)
  obtain _ | ⟨hprogress, _ | ⟨hpause, _ | ⟨hevents, _ | ⟨htimer, _ | _⟩⟩⟩⟩ := hfits
  have hprogress := Tree.optional?_of_fits hprogress fun t ht => ht ▸ Tree.count?_ofNat _
  have hpause := Tree.optional?_of_fits hpause fun t ht => ht ▸ Tree.count?_ofNat _
  have hflag (b : Bool) : (Tree.bool b).flag? = some b := rfl
  have hevents := Tree.optional?_of_fits hevents fun t ht => ht ▸ hflag _
  have htimer := Tree.optional?_of_fits htimer fun t ht => ht ▸ hflag _
  have htree? : ofTree? nestingLimit (.object ms) = some o := by
    show ofTree? (126 + 1) (.object ms) = some o
    simp [ofTree?, hfields, hprogress, hpause, hevents, htimer]
  rw [parse, htree, Option.bind_some, htree?]

/-! ## Layers over the defaults -/

/-- The options of two layers are put together from the settings that win. -/
theorem ofLayers?_eq_some {file vars : Layer}
    (hprogress : settle default.progressIntervalMs Setting.count?
      (winner file vars "progress_interval_ms") = some o.progressIntervalMs)
    (hpause : settle default.yieldIntervalMs Setting.count?
      (winner file vars "yield_interval_ms") = some o.yieldIntervalMs)
    (hevents : settle default.traceEvents Setting.flag?
      (winner file vars "trace_events") = some o.traceEvents)
    (htimer : settle default.timer Setting.flag? (winner file vars "timer") = some o.timer) :
    ofLayers? file vars = some o := by
  simp [ofLayers?, hprogress, hpause, hevents, htimer]

/-- If nothing breaks loading off, it comes to what the layers set. -/
theorem ofLayers_eq_ok {file vars : Layer} (hsettable : ∀ e ∈ file ++ vars, Layer.Settable e.1)
    (hlayers : ofLayers? file vars = some o) : ofLayers file vars = .ok o := by
  rw [ofLayers, Layer.breaks?_eq_none.mpr hsettable, hlayers]
  rfl

/-- The name of an option is a key for all of it, -/
theorem target_of_mem_fieldNames :
    ∀ option ∈ fieldNames, Layer.target option = (option, true) := by decide +kernel

/-- and it leads to no position. -/
theorem settable_of_mem_fieldNames : ∀ option ∈ fieldNames, Layer.Settable option := by
  have hnone : ∀ option ∈ fieldNames, Layer.positions option = [] := by decide +kernel
  intro option hoption position hposition
  rw [hnone option hoption] at hposition
  cases hposition

/-! ## Variables -/

/-- The name of the variable for an option. -/
def variableName (option : String) : String :=
  String.ofList ("DNNRUNNER_".toList ++ option.toList.map Char.toUpper)

/-- The values of options as words, by the names of the options. -/
def spellings (o : Options) : List (String × String) :=
  [("progress_interval_ms", toString o.progressIntervalMs.toNat),
    ("yield_interval_ms", toString o.yieldIntervalMs.toNat),
    ("trace_events", toString o.traceEvents), ("timer", toString o.timer)]

/-- The variables that spell options. -/
def environment (o : Options) : List (String × String) :=
  o.spellings.map fun e => (variableName e.1, e.2)

example : default.environment = [("DNNRUNNER_PROGRESS_INTERVAL_MS", "1000"),
    ("DNNRUNNER_YIELD_INTERVAL_MS", "10"), ("DNNRUNNER_TRACE_EVENTS", "false"),
    ("DNNRUNNER_TIMER", "false")] := by decide +kernel

/-- The variable is for none of the options, and its key leads to no position where nothing can
be. -/
def Unrelated (v : String × String) : Prop :=
  (∀ option ∈ fieldNames, ¬ Layer.IsFor option v.1) ∧
    ∀ key, Layer.variableKey? v.1 = some key → Layer.Settable key

/-- The variables spell the options, whatever others are listed with them. -/
def GivenBy (o : Options) (vars : List (String × String)) : Prop :=
  (∀ v ∈ o.environment, v ∈ vars) ∧ ∀ v ∈ vars, v ∈ o.environment ∨ Unrelated v

theorem givenBy_environment (o : Options) : o.GivenBy o.environment :=
  ⟨fun _ hv => hv, fun _ hv => .inl hv⟩

/-- The key of the variable that is named after an option is the option. -/
theorem variableKey?_variableName :
    ∀ option ∈ fieldNames, Layer.variableKey? (variableName option) = some option := by
  decide +kernel

/-- No option is spelled by an empty text, which would count as none. -/
theorem spelling_ne_empty : ∀ e ∈ o.spellings, e.2 ≠ "" := by
  have hnat (n : Nat) : toString n ≠ "" := by
    intro hempty
    have hdigits := Digits.toList_toString n
    rw [hempty, eq_comm, String.toList_empty, Digits.text, List.map_eq_nil_iff] at hdigits
    exact Digits.ofNat_ne_nil n hdigits
  have hflag : ∀ b : Bool, toString b ≠ "" := by decide
  simp only [spellings, List.forall_mem_cons]
  exact ⟨hnat _, hnat _, hflag _, hflag _, List.forall_mem_nil _⟩

theorem names_spellings (o : Options) : o.spellings.map (·.1) = fieldNames := rfl

theorem mem_fieldNames_of_spelling {e : String × String} (he : e ∈ o.spellings) :
    e.1 ∈ fieldNames := by
  rw [← names_spellings o]
  exact List.mem_map_of_mem he

/-- The environment of some options has a variable for each spelling, and no others. -/
theorem mem_environment {v : String × String} :
    v ∈ o.environment ↔ ∃ e ∈ o.spellings, (variableName e.1, e.2) = v := List.mem_map

/-- Each option is set to its word. -/
theorem value?_of_given {vars : List (String × String)} (h : o.GivenBy vars) :
    ∀ e ∈ o.spellings, (Layer.ofVariables vars).value? e.1 = some (.text e.2) := by
  intro e he
  have hnodup : (o.spellings.map (·.1)).Nodup := by
    rw [names_spellings]
    decide
  have hoption := mem_fieldNames_of_spelling he
  have hlisted := h.1 _ (mem_environment.mpr ⟨e, he, rfl⟩)
  refine Layer.value?_ofVariables (variableKey?_variableName e.1 hoption)
    (target_of_mem_fieldNames e.1 hoption) hlisted (spelling_ne_empty e he) fun v hv hfor => ?_
  obtain hv | hv := h.2 v hv
  · -- the variable of another option is not for this one
    obtain ⟨e', he', rfl⟩ := mem_environment.mp hv
    have hoption' := mem_fieldNames_of_spelling he'
    obtain ⟨key, hkey, htarget⟩ := hfor
    obtain rfl := Option.some.inj ((variableKey?_variableName e'.1 hoption').symm.trans hkey)
    rw [target_of_mem_fieldNames e'.1 hoption'] at htarget
    rw [List.inj_on_of_nodup_map hnodup he' he htarget]
  · exact absurd hfor (hv.1 e.1 hoption)

/-- The variables that spell options are read as these options. -/
theorem ofVariables_of_given {vars : List (String × String)} (h : o.GivenBy vars) :
    ofVariables vars = .ok o := by
  have hvalue := value?_of_given h
  simp only [spellings, List.forall_mem_cons] at hvalue
  obtain ⟨hprogress, hpause, hevents, htimer, -⟩ := hvalue
  have hlayers : ofLayers? [] (.ofVariables vars) = some o := by
    refine ofLayers?_eq_some ?_ ?_ ?_ ?_
    · rw [winner, hprogress]
      exact Setting.count?_toString _
    · rw [winner, hpause]
      exact Setting.count?_toString _
    · rw [winner, hevents]
      exact Setting.flag?_toString _
    · rw [winner, htimer]
      exact Setting.flag?_toString _
  -- besides the values, no key may break loading off: those of options are plain names
  refine ofLayers_eq_ok (fun e he => ?_) hlayers
  obtain ⟨v, hv, -, key, hkey, rfl⟩ := Layer.exists_variable he
  obtain hv | hv := h.2 v hv
  · obtain ⟨e', he', rfl⟩ := mem_environment.mp hv
    have hoption := mem_fieldNames_of_spelling he'
    obtain rfl := Option.some.inj ((variableKey?_variableName e'.1 hoption).symm.trans hkey)
    exact settable_of_mem_fieldNames e'.1 hoption
  · exact hv.2 key hkey

/-! ## Configuration files -/

theorem fitsWord (n : UInt64) : FitsWord n.toNat := by
  refine ⟨?_, Int.ofNat_lt.mpr n.toNat_lt⟩
  rw [signedLimit]
  omega

/-- The members of the value that the text of options denotes. -/
def values (o : Options) : List (String × Json) :=
  [("progress_interval_ms", .number (.integer o.progressIntervalMs.toNat (fitsWord _))),
    ("timer", .bool o.timer), ("trace_events", .bool o.traceEvents),
    ("yield_interval_ms", .number (.integer o.yieldIntervalMs.toNat (fitsWord _)))]

/-- A JSON text of options denotes the object of their values. -/
theorem ofText?_of_spelled (h : o.SpelledBy text) :
    Json.ofText? text = some (.object o.values) := by
  obtain ⟨ms, htree, hperm⟩ := h
  have hmembers : WrittenMembers o.values (treeMembers o.values) :=
    .cons (.plain _) (.cons (.plain _) (.cons (.plain _) (.cons (.plain _) .nil)))
  have horder : (o.members.map fun m => (Literal.ofString m.1, m.2)).Perm (treeMembers o.values) :=
    .cons _ (List.reverse_perm _).symm
  have hascending : Ascending o.values :=
    List.pairwise_map.mp (by decide : ["progress_interval_ms", "timer", "trace_events",
      "yield_interval_ms"].Pairwise (· < ·))
  have hcanonical : (Json.object o.values).Canonical := by
    refine .object hascending ?_
    simp [values, Canonical.number, Canonical.bool]
  have hdepth : (Json.object o.values).tree.depth ≤ nestingLimit := by
    show 1 ≤ 127
    decide
  have hvalue : Tree.value? nestingLimit (.object ms) = some (.object o.values) :=
    Tree.value?_of_written (.object hmembers (hperm.trans horder)) hcanonical hdepth
      (List.forall_mem_nil _)
  rw [Json.ofText?, htree, Option.bind_some, hvalue]

/-- What is left of options in a configuration file. -/
def keptInFile (o : Options) : Options :=
  { o with
    progressIntervalMs := kept o.progressIntervalMs
    yieldIntervalMs := kept o.yieldIntervalMs }

/-- The layer that is made of a configuration file with a JSON text of options. -/
def fileLayer (o : Options) : Layer := o.values.map fun m => (m.1, .ofJson m.2)

theorem mem_fieldNames_of_fileLayer : ∀ e ∈ o.fileLayer, e.1 ∈ fieldNames := by
  simp [fileLayer, values, fieldNames]

/-- A file that spells options is read as their layer. -/
theorem readFile?_of_spelled {files : Files} {path : String}
    (htext : files.readText? path = some text) (hpath : Files.extension path = "json")
    (hspelled : o.SpelledBy text) :
    Layer.readFile? Layer.readers files path = some o.fileLayer := by
  rw [Layer.readFile?_of_object htext hpath (ofText?_of_spelled hspelled),
    Layer.flatMap_ofMember (by simp [values]), fileLayer]

/-- Unrelated variables lead to no position where nothing can be. -/
theorem settable_of_unrelated {vars : List (String × String)} (hvars : ∀ v ∈ vars, Unrelated v) :
    ∀ e ∈ Layer.ofVariables vars, Layer.Settable e.1 := by
  intro e he
  obtain ⟨v, hv, -, key, hkey, rfl⟩ := Layer.exists_variable he
  exact (hvars v hv).2 key hkey

/-- Each option is set to what is written in the file, if no variable sets it. -/
theorem winner_of_fileLayer {vars : List (String × String)} (hvars : ∀ v ∈ vars, Unrelated v) :
    ∀ m ∈ o.values, winner o.fileLayer (.ofVariables vars) m.1 = some (.ofJson m.2) := by
  intro m hm
  have he : (m.1, .ofJson m.2) ∈ o.fileLayer := List.mem_map_of_mem hm
  -- no variable is for an option, so the file has its say, where each name occurs once
  have hnodup : (o.fileLayer.map (·.1)).Nodup := by
    show ["progress_interval_ms", "timer", "trace_events", "yield_interval_ms"].Nodup
    decide
  have hoption := mem_fieldNames_of_fileLayer _ he
  rw [winner, Layer.value?_ofVariables_eq_none fun v hv => (hvars v hv).1 m.1 hoption]
  apply Layer.value?_of_mem _ hnodup he
  intro e' he'
  exact target_of_mem_fieldNames e'.1 (mem_fieldNames_of_fileLayer e' he')

/-- A configuration file with a JSON text of options gives what is left of them. -/
theorem ofFile_of_spelled {files : Files} {path : String} {vars : List (String × String)}
    (htext : files.readText? path = some text) (hpath : Files.extension path = "json")
    (hspelled : o.SpelledBy text) (hvars : ∀ v ∈ vars, Unrelated v) :
    ofFile files path vars = .ok o.keptInFile := by
  have hlayers : ofLayers? o.fileLayer (.ofVariables vars) = some o.keptInFile := by
    have hvalue := winner_of_fileLayer (o := o) hvars
    simp only [values, List.forall_mem_cons] at hvalue
    obtain ⟨hprogress, htimer, hevents, hpause, -⟩ := hvalue
    apply ofLayers?_eq_some
    · rw [hprogress, settle, Setting.count?_ofJson]
      rfl
    · rw [hpause, settle, Setting.count?_ofJson]
      rfl
    · rw [hevents]
      rfl
    · rw [htimer]
      rfl
  rw [ofFile, ofFileWith, readFile?_of_spelled htext hpath hspelled]
  refine ofLayers_eq_ok (fun e he => ?_) hlayers
  rcases List.mem_append.mp he with he | he
  · exact settable_of_mem_fieldNames e.1 (mem_fieldNames_of_fileLayer e he)
  · exact settable_of_unrelated hvars e he

/-! ## All sources -/

/-- The interval comes back from a configuration file: it is below `2 ^ 63`, a double, or so large
that the double next to it is out of range. -/
def Survives (n : UInt64) : Prop :=
  n.toNat < 2 ^ 63 ∨ Double.spacing ∣ n.toNat ∨ n.toNat = UInt64.size - 1

/-- A file keeps a number just if it survives the way through a double. -/
theorem kept_eq_iff (n : UInt64) : kept n = n ↔ Survives n := by
  rw [kept, Survives]
  split
  · rename_i hlt
    exact iff_of_true rfl (.inl hlt)
  · rename_i hge
    have hrange : min (Double.spacing * Binary.roundQuotient n.toNat Double.spacing)
        (UInt64.size - 1) < UInt64.size := by
      have hsize : UInt64.size = 2 ^ 64 := rfl
      omega
    rw [or_iff_right hge, ← Double.min_spacing_eq_iff n.toNat_lt, ← UInt64.toNat_inj,
      UInt64.toNat_ofNat_of_lt' hrange]

/-- **What each source of options gives back.**

* A JSON text of the options gives these options, and the text they are written as is one.
* Variables that spell the options give these options, whatever unrelated ones are listed with them.
* A configuration file with a JSON text of the options, when all variables are unrelated, gives the
  options with what is left of both intervals,
* so it gives these options exactly if both intervals survive. -/
theorem sources_exact (o : Options) :
    (o.SpelledBy o.compact ∧ ∀ text, o.SpelledBy text → parse text = .ok o) ∧
    (o.GivenBy o.environment ∧ ∀ vars, o.GivenBy vars → ofVariables vars = .ok o) ∧
    (∀ files path text vars, files.readText? path = some text → Files.extension path = "json" →
      o.SpelledBy text → (∀ v ∈ vars, Unrelated v) →
        ofFile files path vars = .ok o.keptInFile) ∧
    (o.keptInFile = o ↔ Survives o.progressIntervalMs ∧ Survives o.yieldIntervalMs) := by
  refine ⟨⟨o.spelledBy_compact, fun _ => parse_of_spelled⟩,
    ⟨o.givenBy_environment, fun _ => ofVariables_of_given⟩, fun _ _ _ _ => ofFile_of_spelled, ?_⟩
  rw [← kept_eq_iff, ← kept_eq_iff]
  constructor
  · intro h
    exact ⟨congrArg progressIntervalMs h, congrArg yieldIntervalMs h⟩
  · rintro ⟨hprogress, hpause⟩
    rw [keptInFile, hprogress, hpause]

/-- Options with the least interval that does not survive. -/
def odd : Options := ⟨9223372036854775809, 10, false, false⟩

/-- A directory with nothing but a configuration file. -/
def stored (o : Options) : Files :=
  Files.empty.add "o.json" (.file (Files.encodeText o.compact))

/-- A file with the text of these options gives other ones, where the text itself does not. -/
theorem odd_lost_in_file :
    odd.stored.readText? "o.json" = some odd.compact ∧ Files.extension "o.json" = "json" ∧
      parse odd.compact = .ok odd ∧
      ofFile odd.stored "o.json" [] = .ok { odd with progressIntervalMs := 9223372036854775808 } ∧
      ofFile odd.stored "o.json" [] ≠ .ok odd := by
  have hname : Files.IsName "o.json" := by decide
  have htext : odd.stored.readText? "o.json" = some odd.compact := Files.readText?_add hname rfl _
  have hpieces : "o.json".toList = ['o'] ++ '.' :: ['j', 's', 'o', 'n'] := rfl
  have hpath : Files.extension "o.json" = "json" :=
    Files.extension_of_isName hname hpieces (by decide) (by decide) (by decide)
  have hkept : odd.keptInFile = { odd with progressIntervalMs := 9223372036854775808 } := by
    decide +kernel
  have hfile : ofFile odd.stored "o.json" [] =
      .ok { odd with progressIntervalMs := 9223372036854775808 } :=
    hkept ▸ ofFile_of_spelled htext hpath odd.spelledBy_compact (List.forall_mem_nil _)
  refine ⟨htext, hpath, parse_of_spelled odd.spelledBy_compact, hfile, ?_⟩
  rw [hfile]
  exact fun h => absurd (Outcome.ok.inj h) (by decide)

end Options

end InferenceEngine
