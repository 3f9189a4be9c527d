import InferenceEngine.Proofs.Sources
import Mathlib

/-!
# How layers of options combine

Variables go over a file, and a file over the defaults. `Options.layering_exact` says, entry by
entry, what comes of it: which setting of an option wins, when the winning settings give options,
and which entries have no part in this.

A key names an option in any case. But keys are also paths: one such as `timer.x` is for a part of
an option and makes the option a compound, which no option accepts. So what a layer sets an option
to is said in two ways, depending on whether a key is a path to a part of it:

* `Layer.value?_of_whole` — if none is, the last member with the name of the option counts.
* `Layer.value?_of_divides` — if one is and there is no such member, the option is a compound.

Layers come out of hash maps, which promise no order. `Options.Loads` is loading with the entries in
any order, of which `Options.ofVariables` and `Options.ofFile` take one. What is proved is proved of
every order:

* `Layer.member?_of_variables` — for variables with different names there is no last or first.
* `Layer.member?_of_perm` — neither for members of a file, if their names differ in more than case.
* `Options.Loads.eq_ok_iff`, `Options.Loads.eq_of_choice` — the options are those of the chosen
  settings, so what is not chosen may be left out.
* `Options.not_suits_moment` — no option is a date or a time, so the text of one is bad where it wins.
-/

namespace InferenceEngine

/-! ## Keys -/

/-- No character has the Kelvin sign as its lower case. -/
theorem Setting.lowerChar_eq {c : Char} :
    (c = Char.ofNat 0x212a ∧ lowerChar c = 'k') ∨
      (c.toLower ≠ Char.ofNat 0x212a ∧ lowerChar c = c.toLower) := by
  by_cases hc : c = Char.ofNat 0x212a
  · exact .inl ⟨hc, if_pos hc⟩
  · refine .inr ⟨fun hlower => ?_, if_neg hc⟩
    by_cases hupper : c.isUpper
    · have halpha : c.toLower.isAlpha = true := by
        rw [Char.isAlpha_toLower_eq_isAlpha, Char.isAlpha, hupper, Bool.true_or]
      rw [hlower] at halpha
      exact absurd halpha (by decide)
    · rw [Char.toLower_eq_of_not_isUpper (by simpa using hupper)] at hlower
      exact hc hlower

theorem Setting.lowerChar_lowerChar (c : Char) : lowerChar (lowerChar c) = lowerChar c := by
  obtain ⟨-, hlower⟩ | ⟨hne, hlower⟩ := lowerChar_eq (c := c)
  · rw [hlower]
    decide
  · rw [hlower, lowerChar, if_neg hne, Char.toLower_toLower_eq_toLower]

/-- Lower case stays as it is. -/
theorem Setting.lower_lower (s : String) : lower (lower s) = lower s := by
  rw [lower, lower, String.map_map]
  exact congrArg (String.map · s) (funext lowerChar_lowerChar)

theorem Setting.lower_append (s t : String) : lower (s ++ t) = lower s ++ lower t := by
  rw [← String.toList_inj]
  simp only [lower, String.toList_map, String.toList_append, List.map_append]

namespace Layer

open Options (fieldNames)

variable {l : Layer} {key name option : String}

/-- The case of a character does not matter for whether it may stand in a name. -/
theorem isNameChar_toLower (c : Char) : isNameChar c.toLower = isNameChar c := by
  by_cases hupper : c.isUpper
  · have halpha : c.isAlpha = true := by rw [Char.isAlpha, hupper, Bool.true_or]
    have hlower : c.toLower.isAlpha = true := by rw [Char.isAlpha_toLower_eq_isAlpha, halpha]
    simp [isNameChar, Char.isAlphanum, halpha, hlower]
  · rw [Char.toLower_eq_of_not_isUpper (by simpa using hupper)]

/-- A key that sets all of an option is its name in some case. -/
theorem lower_of_target (h : target key = (name, true)) : Setting.lower key = name := by
  rw [target] at h
  split at h
  · exact congrArg Prod.fst h
  · cases congrArg Prod.snd h

/-- The name of an option, in whatever case, sets all of it. -/
theorem target_of_lower (h : Setting.lower key = option) (hoption : option ∈ fieldNames) :
    target key = (option, true) := by
  have hnames : ∀ option ∈ fieldNames, option.toList.all (fun c => isNameChar c ∧ c ≠ 'k') := by
    decide
  have hall : ∀ c ∈ key.toList, isNameChar c = true := by
    intro c hc
    have hmem : Setting.lowerChar c ∈ option.toList := by
      rw [← h, Setting.lower, String.toList_map]
      exact List.mem_map_of_mem hc
    obtain ⟨hchar, hk⟩ := of_decide_eq_true (List.all_eq_true.mp (hnames option hoption) _ hmem)
    -- no option has a k in its name, so the Kelvin sign is not in the key
    obtain ⟨-, hlower⟩ | ⟨-, hlower⟩ := Setting.lowerChar_eq (c := c)
    · exact absurd hlower hk
    · rw [← isNameChar_toLower, ← hlower]
      exact hchar
  have hrest : key.toList.drop (key.toList.takeWhile isNameChar).length = [] := by
    rw [List.takeWhile_eq_self_iff.mpr hall, List.drop_length]
  have hnone : (key.toList.drop (key.toList.takeWhile isNameChar).length).isEmpty = true := by
    rw [hrest]
    rfl
  have hpath : path? key = none := if_pos (.inr hnone)
  rw [target, hpath, h]

/-! ## What a layer sets an option to -/

/-- The last entry whose key is the name of the option, in whatever case. -/
def member? (l : Layer) (option : String) : Option Setting :=
  (l.reverse.find? fun e => Setting.lower e.1 = option).map (·.2)

/-- Some key is a path to a part of the option. -/
def Divides (l : Layer) (option : String) : Prop := ∃ e ∈ l, target e.1 = (option, false)

instance (l : Layer) (option : String) : Decidable (l.Divides option) :=
  inferInstanceAs (Decidable (∃ e ∈ l, _))

/-- Without an entry of its name an option has no member. -/
theorem member?_eq_none : l.member? option = none ↔ ∀ e ∈ l, Setting.lower e.1 ≠ option := by
  simp [member?]

/-- If all members for an option set it alike, it does not matter which is the last. -/
theorem member?_eq_some {e : String × Setting} (he : e ∈ l) (hname : Setting.lower e.1 = option)
    (hunique : ∀ e' ∈ l, Setting.lower e'.1 = option → e'.2 = e.2) :
    l.member? option = some e.2 := by
  rw [member?]
  cases hfound : l.reverse.find? (Setting.lower ·.1 = option) with
  | none =>
    have hno := List.find?_eq_none.mp hfound e (List.mem_reverse.mpr he)
    exact absurd (decide_eq_true hname) hno
  | some e' =>
    have he' := List.mem_reverse.mp (List.mem_of_find?_eq_some hfound)
    have hname' : Setting.lower e'.1 = option := by simpa using List.find?_some hfound
    exact congrArg some (hunique e' he' hname')

/-- Members whose names differ in more than their case may come in any order. -/
theorem member?_of_perm {l' : Layer} (h : (l.map fun e => Setting.lower e.1).Nodup)
    (hperm : l'.Perm l) (option : String) : l'.member? option = l.member? option := by
  by_cases hfor : ∃ e ∈ l, Setting.lower e.1 = option
  · obtain ⟨e, he, hname⟩ := hfor
    have hunique : ∀ e' ∈ l, Setting.lower e'.1 = option → e'.2 = e.2 := by
      intro e' he' hname'
      rw [List.inj_on_of_nodup_map h he' he (hname'.trans hname.symm)]
    rw [member?_eq_some he hname hunique]
    exact member?_eq_some (hperm.mem_iff.mpr he) hname fun e' he' =>
      hunique e' (hperm.mem_iff.mp he')
  · have hnone : ∀ e ∈ l, Setting.lower e.1 ≠ option := fun e he hname => hfor ⟨e, he, hname⟩
    rw [member?_eq_none.mpr hnone, member?_eq_none]
    exact fun e he => hnone e (hperm.mem_iff.mp he)

/-- An entry for an option sets all of it, unless its key is a path. -/
theorem entryValue?_of_whole {e : String × Setting} (hoption : option ∈ fieldNames)
    (h : target e.1 ≠ (option, false)) :
    entryValue? option e = if Setting.lower e.1 = option then some e.2 else none := by
  rw [entryValue?_eq]
  by_cases hname : Setting.lower e.1 = option
  · rw [target_of_lower hname hoption, if_pos rfl, if_pos rfl, if_pos hname]
  · rw [if_neg hname]
    refine if_neg fun htarget => ?_
    cases hwhole : (target e.1).2 with
    | true => exact hname (lower_of_target (Prod.ext htarget hwhole))
    | false => exact h (Prod.ext htarget hwhole)

theorem findSome?_eq_map_find? {α β : Type} {f : α → Option β} {p : α → Bool} {g : α → β}
    {xs : List α} (h : ∀ x ∈ xs, f x = if p x then some (g x) else none) :
    xs.findSome? f = (xs.find? p).map g := by
  induction xs with
  | nil => rfl
  | cons x xs ih =>
    obtain ⟨hx, hxs⟩ := List.forall_mem_cons.mp h
    rw [List.findSome?_cons, List.find?_cons, hx, ih hxs]
    cases p x <;> rfl

/-- A layer that does not divide an option sets it as the last member of its name says. -/
theorem value?_of_whole (hoption : option ∈ fieldNames) (h : ¬ l.Divides option) :
    l.value? option = l.member? option := by
  rw [value?, member?]
  refine findSome?_eq_map_find? fun e he => ?_
  have hwhole : target e.1 ≠ (option, false) := fun htarget =>
    h ⟨e, List.mem_reverse.mp he, htarget⟩
  rw [entryValue?_of_whole hoption hwhole]
  by_cases hname : Setting.lower e.1 = option <;> simp [hname]

/-- A layer that divides an option and has no member of its name makes it a compound. -/
theorem value?_of_divides (h : l.Divides option) (hnone : l.member? option = none) :
    l.value? option = some .compound := by
  obtain ⟨e, he, htarget⟩ := h
  refine value?_eq_some he ?_ fun e' he' s hset => ?_
  · rw [entryValue?_eq, htarget]
    exact if_pos rfl
  · rw [entryValue?_eq] at hset
    obtain ⟨hname, hset⟩ := Option.ite_none_right_eq_some.mp hset
    cases hwhole : (target e'.1).2 with
    | true =>
      have hmember := lower_of_target (Prod.ext hname hwhole : target e'.1 = (option, true))
      exact absurd hmember (member?_eq_none.mp hnone e' he')
    | false =>
      rw [hwhole] at hset
      exact (Option.some.inj hset).symm

/-! ## The layer of variables -/

/-- The name of a variable is its key behind the prefix, in whatever case. -/
theorem variableKey?_eq_some : variableKey? name = some key ↔
    Setting.lower name = "dnnrunner_" ++ key := by
  have hchars (cs : List Char) : (if variableStart.isPrefixOf cs then
      some (String.ofList (cs.drop variableStart.length)) else none) = some key ↔
      cs = variableStart ++ key.toList := by
    rw [Option.ite_none_right_eq_some, List.isPrefixOf_iff_prefix]
    constructor
    · rintro ⟨⟨rest, rfl⟩, hrest⟩
      rw [List.drop_left] at hrest
      rw [← Option.some.inj hrest, String.toList_ofList]
    · rintro rfl
      refine ⟨List.prefix_append _ _, ?_⟩
      rw [List.drop_left, String.ofList_toList]
  have hstring (s start : String) : s.toList = start.toList ++ key.toList ↔ s = start ++ key := by
    rw [← String.toList_append, String.toList_inj]
  rw [variableKey?, hchars]
  exact hstring _ "dnnrunner_"

/-- The keys of variables are in lower case. -/
theorem lower_key (h : variableKey? name = some key) : Setting.lower key = key := by
  have hname := variableKey?_eq_some.mp h
  have hstart : Setting.lower "dnnrunner_" = "dnnrunner_" := by decide +kernel
  have hsame := congrArg Setting.lower hname
  rw [Setting.lower_lower, hname, Setting.lower_append, hstart, ← String.toList_inj,
    String.toList_append, String.toList_append] at hsame
  exact (String.toList_inj.mp (List.append_cancel_left hsame)).symm

/-- No two variables have the same name, whatever its case. -/
def Distinct (vars : List (String × String)) : Prop := (vars.map fun v => Setting.lower v.1).Nodup

/-- The variable is named after the option, in whatever case, and is not empty. -/
def Gives (option : String) (v : String × String) : Prop :=
  v.2 ≠ "" ∧ Setting.lower v.1 = "dnnrunner_" ++ option

instance (option : String) (v : String × String) : Decidable (Gives option v) :=
  inferInstanceAs (Decidable (_ ∧ _))

/-- The text of the variable for an option. -/
def given? (vars : List (String × String)) (option : String) : Option String :=
  (vars.find? (Gives option ·)).map (·.2)

variable {vars vars' : List (String × String)}

/-- A name in whatever case belongs to one variable. -/
theorem Distinct.eq_of_lower (h : Distinct vars) {v w : String × String} (hv : v ∈ vars)
    (hw : w ∈ vars) (hsame : Setting.lower v.1 = Setting.lower w.1) : v = w :=
  List.inj_on_of_nodup_map h hv hw hsame

theorem Distinct.nodup (h : Distinct vars) : (vars.map (·.1)).Nodup := by
  refine List.Nodup.of_map Setting.lower ?_
  rwa [List.map_map]

/-- Variables with different names all have an entry, unless they are empty. -/
theorem mem_ofVariables_of_distinct (h : Distinct vars) {e : String × Setting} :
    e ∈ ofVariables vars ↔ ∃ v ∈ vars, Gives e.1 v ∧ e.2 = .text v.2 := by
  have hall (v : String × String) : v ∈ bindAll vars [] ↔ v ∈ vars := by
    refine ⟨fun hv => (mem_of_mem_bindAll hv).resolve_right List.not_mem_nil, fun hv => ?_⟩
    refine mem_bindAll (fun w hw hname => ?_) (.inl hv)
    exact List.inj_on_of_nodup_map h.nodup hw hv hname
  rw [mem_ofVariables]
  constructor
  · rintro ⟨v, hv, hne, key, hkey, rfl⟩
    exact ⟨v, (hall v).mp hv, ⟨hne, variableKey?_eq_some.mp hkey⟩, rfl⟩
  · rintro ⟨v, hv, ⟨hne, hname⟩, hvalue⟩
    exact ⟨v, (hall v).mpr hv, hne, e.1, variableKey?_eq_some.mpr hname, Prod.ext rfl hvalue⟩

/-- Whatever order the variables come in, the last member for an option is the variable for it. -/
theorem member?_of_variables (h : Distinct vars) (hl : l.Perm (ofVariables vars))
    (hoption : option ∈ fieldNames) : l.member? option = (given? vars option).map .text := by
  have hlower : Setting.lower option = option :=
    lower_key (Options.variableKey?_variableName option hoption)
  -- a member for the option is made from a variable for it
  have hfrom {e : String × Setting} (he : e ∈ l) (hkey : Setting.lower e.1 = option) :
      ∃ v ∈ vars, Gives option v ∧ e.2 = .text v.2 := by
    obtain ⟨v, hv, hgives, hvalue⟩ := (mem_ofVariables_of_distinct h).mp (hl.mem_iff.mp he)
    rw [← lower_key (variableKey?_eq_some.mpr hgives.2), hkey] at hgives
    exact ⟨v, hv, hgives, hvalue⟩
  rw [given?]
  cases hgiven : vars.find? (Gives option ·) with
  | none =>
    rw [Option.map_none, Option.map_none, member?_eq_none]
    intro e he hkey
    obtain ⟨v, hv, hgives, -⟩ := hfrom he hkey
    exact List.find?_eq_none.mp hgiven v hv (decide_eq_true hgives)
  | some v =>
    have hv := List.mem_of_find?_eq_some hgiven
    have hgives : Gives option v := by simpa using List.find?_some hgiven
    have hentry : (option, .text v.2) ∈ l :=
      hl.mem_iff.mpr ((mem_ofVariables_of_distinct h).mpr ⟨v, hv, hgives, rfl⟩)
    refine member?_eq_some hentry hlower fun e he hkey => ?_
    -- there is no second variable for the option
    obtain ⟨w, hw, hsame, hvalue⟩ := hfrom he hkey
    rw [hvalue, h.eq_of_lower hw hv (hsame.2.trans hgives.2.symm)]

/-- The order of variables does not matter for which one is for an option. -/
theorem given?_of_perm (h : Distinct vars) (hperm : vars'.Perm vars) (option : String) :
    given? vars' option = given? vars option := by
  rw [given?, given?]
  cases hgiven : vars.find? (Gives option ·) with
  | none =>
    have hnone : vars'.find? (Gives option ·) = none :=
      List.find?_eq_none.mpr fun v hv => List.find?_eq_none.mp hgiven v (hperm.mem_iff.mp hv)
    rw [hnone]
  | some v =>
    have hv := List.mem_of_find?_eq_some hgiven
    have hgives : Gives option v := by simpa using List.find?_some hgiven
    cases hgiven' : vars'.find? (Gives option ·) with
    | none =>
      have hno := List.find?_eq_none.mp hgiven' v (hperm.mem_iff.mpr hv)
      exact absurd (decide_eq_true hgives) hno
    | some w =>
      have hw := hperm.mem_iff.mp (List.mem_of_find?_eq_some hgiven')
      have hgives' : Gives option w := by simpa using List.find?_some hgiven'
      rw [h.eq_of_lower hw hv (hgives'.2.trans hgives.2.symm)]

/-- The key of the variable is a path to a part of the option, and the variable is not empty. -/
def Splits (option : String) (v : String × String) : Prop :=
  v.2 ≠ "" ∧ (variableKey? v.1).map target = some (option, false)

instance (option : String) (v : String × String) : Decidable (Splits option v) :=
  inferInstanceAs (Decidable (_ ∧ _))

/-- Whatever order the variables come in, they divide an option if one of them splits it. -/
theorem divides_of_variables (h : Distinct vars) (hl : l.Perm (ofVariables vars)) :
    l.Divides option ↔ ∃ v ∈ vars, Splits option v := by
  constructor
  · rintro ⟨e, he, htarget⟩
    obtain ⟨v, hv, ⟨hne, hname⟩, -⟩ := (mem_ofVariables_of_distinct h).mp (hl.mem_iff.mp he)
    refine ⟨v, hv, hne, ?_⟩
    rw [variableKey?_eq_some.mpr hname, Option.map_some, htarget]
  · rintro ⟨v, hv, hne, hsplits⟩
    obtain ⟨key, hkey, htarget⟩ := Option.map_eq_some_iff.mp hsplits
    refine ⟨(key, .text v.2), hl.mem_iff.mpr ?_, htarget⟩
    exact (mem_ofVariables_of_distinct h).mpr ⟨v, hv, ⟨hne, variableKey?_eq_some.mp hkey⟩, rfl⟩

end Layer

/-! ## Winning settings -/

namespace Options

open Layer

variable {file listed : Layer} {vars : List (String × String)} {win win' : String → Option Setting}
  {option : String} {o : Options} {result : Outcome Options}

/-- The options are made of the settings that win, or of the defaults. -/
structure Settles (win : String → Option Setting) (o : Options) : Prop where
  /-- the least time between two notifications -/
  progressIntervalMs : settle default.progressIntervalMs Setting.count?
    (win "progress_interval_ms") = some o.progressIntervalMs
  /-- the pause after a notification -/
  yieldIntervalMs : settle default.yieldIntervalMs Setting.count?
    (win "yield_interval_ms") = some o.yieldIntervalMs
  /-- whether events are recorded -/
  traceEvents : settle default.traceEvents Setting.flag? (win "trace_events") = some o.traceEvents
  /-- whether kernels are timed -/
  timer : settle default.timer Setting.flag? (win "timer") = some o.timer

/-- The setting has a value of the type of the option. -/
def Suits (option : String) (s : Setting) : Prop :=
  (if option = "trace_events" ∨ option = "timer" then s.flag?.isSome else s.count?.isSome) = true

instance (option : String) (s : Setting) : Decidable (Suits option s) :=
  inferInstanceAs (Decidable (_ = true))

/-- Options are what the winning settings are converted to, one by one. -/
theorem ofLayers?_eq_some_iff {vars : Layer} :
    ofLayers? file vars = some o ↔ Settles (winner file vars) o := by
  constructor
  · intro h
    simp only [ofLayers?, Option.bind_eq_bind, Option.bind_eq_some_iff] at h
    obtain ⟨progress, hprogress, pause, hpause, events, hevents, timer, htimer, ho⟩ := h
    obtain rfl := Option.some.inj ho
    exact ⟨hprogress, hpause, hevents, htimer⟩
  · intro h
    exact ofLayers?_eq_some h.progressIntervalMs h.yieldIntervalMs h.traceEvents h.timer

theorem exists_settle_iff {α : Type} {default : α} {convert : Setting → Option α}
    {setting : Option Setting} : (∃ x, settle default convert setting = some x) ↔
      ∀ s, setting = some s → (convert s).isSome = true := by
  cases setting with
  | none => exact iff_of_true ⟨default, rfl⟩ nofun
  | some s => simp [settle, Option.isSome_iff_exists]

/-- There are options just if what wins suits them all. -/
theorem exists_settles_iff :
    (∃ o, Settles win o) ↔ ∀ option ∈ fieldNames, ∀ s, win option = some s → Suits option s := by
  have hcount (option : String) (h : ¬ (option = "trace_events" ∨ option = "timer"))
      (default : UInt64) : (∃ n, settle default Setting.count? (win option) = some n) ↔
        ∀ s, win option = some s → Suits option s := by
    rw [exists_settle_iff]
    simp only [Suits, if_neg h]
  have hflag (option : String) (h : option = "trace_events" ∨ option = "timer")
      (default : Bool) : (∃ b, settle default Setting.flag? (win option) = some b) ↔
        ∀ s, win option = some s → Suits option s := by
    rw [exists_settle_iff]
    simp only [Suits, if_pos h]
  simp only [fieldNames, List.forall_mem_cons]
  rw [← hcount "progress_interval_ms" (by decide) default.progressIntervalMs,
    ← hcount "yield_interval_ms" (by decide) default.yieldIntervalMs,
    ← hflag "trace_events" (by decide) default.traceEvents,
    ← hflag "timer" (by decide) default.timer]
  constructor
  · rintro ⟨o, h⟩
    exact ⟨⟨_, h.progressIntervalMs⟩, ⟨_, h.yieldIntervalMs⟩, ⟨_, h.traceEvents⟩, ⟨_, h.timer⟩,
      List.forall_mem_nil _⟩
  · -- the four fields are settled apart from each other
    rintro ⟨⟨progress, hprogress⟩, ⟨pause, hpause⟩, ⟨events, hevents⟩, ⟨timer, htimer⟩, -⟩
    exact ⟨⟨progress, pause, events, timer⟩, hprogress, hpause, hevents, htimer⟩

/-- Nothing but the winning settings of the four options counts. -/
theorem settles_congr (h : ∀ option ∈ fieldNames, win option = win' option) :
    Settles win o ↔ Settles win' o := by
  simp only [fieldNames, List.forall_mem_cons] at h
  obtain ⟨hprogress, hpause, hevents, htimer, -⟩ := h
  constructor
  · rintro ⟨hprogress', hpause', hevents', htimer'⟩
    exact ⟨hprogress ▸ hprogress', hpause ▸ hpause', hevents ▸ hevents', htimer ▸ htimer'⟩
  · rintro ⟨hprogress', hpause', hevents', htimer'⟩
    exact ⟨hprogress ▸ hprogress', hpause ▸ hpause', hevents ▸ hevents', htimer ▸ htimer'⟩

/-- The setting of an option: the text of its variable, else its last member in the file. -/
def choice (file : Layer) (vars : List (String × String)) (option : String) : Option Setting :=
  ((given? vars option).map .text).orElse fun _ => file.member? option

/-- No key that counts is a path to a part of an option: none of a variable, and one of the file
only if a variable sets the option. -/
def Whole (file : Layer) (vars : List (String × String)) : Prop :=
  ∀ option ∈ fieldNames, (∀ v ∈ vars, ¬ Splits option v) ∧
    (file.Divides option → (given? vars option).isSome = true)

instance (file : Layer) (vars : List (String × String)) : Decidable (Whole file vars) :=
  inferInstanceAs (Decidable (∀ option ∈ fieldNames, (∀ v ∈ vars, ¬ Splits option v) ∧
    (file.Divides option → (given? vars option).isSome = true)))

/-- The keys that are set lead to no position where nothing can be: none of the file, and none of a
variable that is not empty. -/
def Tame (file : Layer) (vars : List (String × String)) : Prop :=
  (∀ e ∈ file, Settable e.1) ∧
    ∀ v ∈ vars, v.2 ≠ "" → ∀ key ∈ variableKey? v.1, Settable key

instance (file : Layer) (vars : List (String × String)) : Decidable (Tame file vars) :=
  inferInstanceAs (Decidable ((∀ e ∈ file, Settable e.1) ∧
    ∀ v ∈ vars, v.2 ≠ "" → ∀ key ∈ variableKey? v.1, Settable key))

/-- If no key that counts is a path, the setting that wins is the chosen one, in any order of the
variables. -/
theorem winner_of_whole (h : Distinct vars) (hlisted : listed.Perm (Layer.ofVariables vars))
    (hwhole : Whole file vars) (hoption : option ∈ fieldNames) :
    winner file listed option = choice file vars option := by
  obtain ⟨hvars, hfile⟩ := hwhole option hoption
  have hdivides : ¬ listed.Divides option := by
    rw [divides_of_variables h hlisted]
    exact fun ⟨v, hv, hsplits⟩ => hvars v hv hsplits
  rw [winner, choice, value?_of_whole hoption hdivides, member?_of_variables h hlisted hoption]
  cases hgiven : given? vars option with
  | some text => rfl
  | none => exact value?_of_whole hoption fun hpath => by simpa [hgiven] using hfile hpath

/-- The ways to load options from variables, with a file of any kind or without. The layers are
gone through in any order of their entries. -/
inductive Loads (vars : List (String × String)) : Layer → Outcome Options → Prop
  /-- from the variables alone -/
  | alone {listed : Layer} (hlisted : listed.Perm (Layer.ofVariables vars)) :
    Loads vars [] (ofLayers [] listed)
  /-- from the variables and a file -/
  | withFile {readers : Readers} {files : Files} {path : String} {read file listed : Layer}
    (hread : readFile? readers files path = some read) (hfile : file.Perm read)
    (hlisted : listed.Perm (Layer.ofVariables vars)) : Loads vars file (ofLayers file listed)

/-- Loading from variables takes one of the orders. -/
theorem loads_ofVariables (vars : List (String × String)) : Loads vars [] (ofVariables vars) :=
  .alone (.refl _)

/-- So does loading from a file. -/
theorem loads_ofFileWith {readers : Readers} {files : Files} {path : String}
    (h : readFile? readers files path = some file) (vars : List (String × String)) :
    Loads vars file (ofFileWith readers files path vars) := by
  rw [ofFileWith, h]
  exact .withFile h (.refl _) (.refl _)

/-- Nothing breaks loading off, so it comes to what the layers set. -/
theorem Loads.eq_loaded (h : Loads vars file result) (htame : Tame file vars) :
    ∃ listed : Layer, listed.Perm (Layer.ofVariables vars) ∧
      result = loaded (ofLayers? file listed) := by
  obtain ⟨listed, hlisted, hresult⟩ :
      ∃ listed : Layer, listed.Perm (Layer.ofVariables vars) ∧ result = ofLayers file listed := by
    cases h with
    | alone hlisted => exact ⟨_, hlisted, rfl⟩
    | withFile _ _ hlisted => exact ⟨_, hlisted, rfl⟩
  have hsettable : ∀ e ∈ file ++ listed, Settable e.1 := by
    intro e he
    rcases List.mem_append.mp he with he | he
    · exact htame.1 e he
    · obtain ⟨v, hv, hne, key, hkey, rfl⟩ := exists_variable (hlisted.mem_iff.mp he)
      exact htame.2 v hv hne key hkey
  refine ⟨listed, hlisted, ?_⟩
  rw [hresult, ofLayers, breaks?_eq_none.mpr hsettable]

theorem loaded_eq_ok {found : Option Options} : loaded found = .ok o ↔ found = some o := by
  cases found <;> simp [loaded]

/-- If no key that counts is a path, the options are made of the settings that are chosen by
name. -/
theorem Loads.eq_ok_iff (h : Loads vars file result) (hnames : Distinct vars)
    (htame : Tame file vars) (hwhole : Whole file vars) :
    result = .ok o ↔ Settles (choice file vars) o := by
  obtain ⟨listed, hlisted, rfl⟩ := h.eq_loaded htame
  rw [loaded_eq_ok, ofLayers?_eq_some_iff]
  exact settles_congr fun option hoption => winner_of_whole hnames hlisted hwhole hoption

/-- Loading gives options, or says that they are bad. -/
theorem Loads.ok_or_bad (h : Loads vars file result) (htame : Tame file vars) :
    (∃ o, result = .ok o) ∨ result = .error .badOptions := by
  obtain ⟨listed, -, rfl⟩ := h.eq_loaded htame
  cases ofLayers? file listed with
  | none => exact .inr rfl
  | some o => exact .inl ⟨o, rfl⟩

/-- What is chosen decides what is loaded. -/
theorem Loads.eq_of_choice {file' : Layer} {vars' : List (String × String)}
    {result' : Outcome Options} (h : Loads vars file result) (h' : Loads vars' file' result')
    (hnames : Distinct vars) (hnames' : Distinct vars') (htame : Tame file vars)
    (htame' : Tame file' vars') (hwhole : Whole file vars) (hwhole' : Whole file' vars')
    (hchoice : ∀ option ∈ fieldNames, choice file' vars' option = choice file vars option) :
    result' = result := by
  have hsame (o : Options) : result' = .ok o ↔ result = .ok o := by
    rw [h.eq_ok_iff hnames htame hwhole, h'.eq_ok_iff hnames' htame' hwhole']
    exact settles_congr hchoice
  obtain ⟨o, ho⟩ | hbad := h.ok_or_bad htame
  · rw [ho, (hsame o).mpr ho]
  · obtain ⟨o, ho⟩ | hbad' := h'.ok_or_bad htame'
    · cases hbad.symm.trans ((hsame o).mp ho)
    · rw [hbad, hbad']

/-- A key that is a path makes its option a compound, which is no option. -/
theorem Loads.bad_of_path (h : Loads vars file result) (hnames : Distinct vars)
    (htame : Tame file vars) (hoption : option ∈ fieldNames) (hnone : given? vars option = none)
    (hpath : (∃ v ∈ vars, Splits option v) ∨ file.Divides option ∧ file.member? option = none) :
    result = .error .badOptions := by
  obtain ⟨listed, hlisted, rfl⟩ := h.eq_loaded htame
  have hvars : listed.member? option = none := by
    rw [member?_of_variables hnames hlisted hoption, hnone, Option.map_none]
  have hwinner : winner file listed option = some .compound := by
    rw [winner]
    by_cases hsplits : listed.Divides option
    · rw [value?_of_divides hsplits hvars]
      rfl
    · rw [← divides_of_variables hnames hlisted] at hpath
      obtain ⟨hdivides, hmember⟩ := hpath.resolve_left hsplits
      rw [value?_of_whole hoption hsplits, hvars, value?_of_divides hdivides hmember]
      rfl
  have hunsuited : ∀ option ∈ fieldNames, ¬ Suits option .compound := by decide
  refine (h.ok_or_bad htame).resolve_left ?_
  rintro ⟨o, ho⟩
  have hsettles := ofLayers?_eq_some_iff.mp (loaded_eq_ok.mp ho)
  exact hunsuited option hoption (exists_settles_iff.mp ⟨o, hsettles⟩ option hoption _ hwinner)

/-! ## Dates and times -/

section Marked

variable {s : String} {c : Char} (hmem : c ∈ s.toList) (hc : c = '-' ∨ c = ':')

include hmem hc

/-- A text with a dash or a colon in it is no word, in whatever case. -/
theorem lower_notMem_of_mark :
    Setting.lower s ∉ "0" :: "1" :: (Setting.yesWords ++ Setting.noWords) := by
  have hlower : Setting.lowerChar c = c := by rcases hc with rfl | rfl <;> decide
  have hstays : c ∈ (Setting.lower s).toList := by
    rw [Setting.lower, String.toList_map]
    exact List.mem_map.mpr ⟨c, hmem, hlower⟩
  have hplain : ∀ word ∈ "0" :: "1" :: (Setting.yesWords ++ Setting.noWords),
      '-' ∉ word.toList ∧ ':' ∉ word.toList := by decide
  intro hword
  obtain ⟨hdash, hcolon⟩ := hplain _ hword
  rcases hc with rfl | rfl
  · exact hdash hstays
  · exact hcolon hstays

/-- Nor is it a number, which has only digits behind its sign. -/
theorem parseCount?_of_mark : Setting.parseCount? s = none := by
  have hdigit : Digit.ofChar? c = none := by rcases hc with rfl | rfl <;> decide
  have hdigits {cs : List Char} (hmem : c ∈ cs) : Setting.digitCount? cs = none := by
    cases cs with
    | nil => rfl
    | cons c' cs =>
      show (Json.allSome Digit.ofChar? (c' :: cs)).bind _ = none
      rw [Json.allSome_eq_none_of_mem hmem hdigit]
      rfl
  rw [Setting.parseCount?]
  split
  · rename_i cs hplus
    rw [hplus] at hmem
    refine hdigits ((List.mem_cons.mp hmem).resolve_left ?_)
    rcases hc with rfl | rfl <;> decide
  · exact hdigits hmem

/-- So no option accepts it. -/
theorem not_suits_of_mark (option : String) : ¬ Suits option (.text s) := by
  have hword := lower_notMem_of_mark hmem hc
  simp only [List.mem_cons, List.mem_append, not_or] at hword
  obtain ⟨hzero, hone, hyes, hno⟩ := hword
  have hflag : Setting.flag? (.text s) = none := by
    rw [Setting.flag?, if_neg (not_or.mpr ⟨hone, hyes⟩), if_neg (not_or.mpr ⟨hzero, hno⟩)]
  have hcount : Setting.count? (.text s) = none := by
    rw [Setting.count?, if_neg hyes, if_neg hno, parseCount?_of_mark hmem hc]
  simp [Suits, hflag, hcount]

end Marked

/-- **No option is a date or a time.** A configuration keeps the text of one, and where it wins the
options are bad. -/
theorem not_suits_moment (m : Toml.Moment) (option : String) : ¬ Suits option (.text m.text) := by
  have hdate (d : Toml.Date) : '-' ∈ d.text.toList := by simp [Toml.Date.text]
  have htime (t : Toml.Time) : ':' ∈ t.text.toList := by
    rw [Toml.Time.text]
    split <;> simp
  cases m with
  | date d => exact not_suits_of_mark (hdate d) (.inl rfl) option
  | time t => exact not_suits_of_mark (htime t) (.inr rfl) option
  | both d t offset =>
    refine not_suits_of_mark ?_ (.inl rfl) option
    simp [Toml.Moment.text, hdate d]

/-! ## Entries that do not count -/

/-- A variable that is for another option, or empty, gives nothing. -/
theorem given?_drop {before after : List (String × String)} {v : String × String}
    (h : ¬ Gives option v) :
    given? (before ++ v :: after) option = given? (before ++ after) option := by
  rw [given?, given?, List.find?_append, List.find?_append, List.find?_cons, decide_eq_false h]

/-- A member with another name does not count, and neither does one before another of its name. -/
theorem member?_drop {before after : Layer} {e : String × Setting}
    (h : Setting.lower e.1 = option → ∃ e' ∈ after, Setting.lower e'.1 = option) :
    Layer.member? (before ++ e :: after) option = Layer.member? (before ++ after) option := by
  rw [member?, member?, List.reverse_append, List.reverse_append, List.reverse_cons,
    List.find?_append, List.find?_append, List.find?_append, List.find?_singleton]
  by_cases hname : Setting.lower e.1 = option
  · obtain ⟨e', he', hsame⟩ := h hname
    cases hfound : after.reverse.find? (Setting.lower ·.1 = option) with
    | none =>
      have hno := List.find?_eq_none.mp hfound e' (List.mem_reverse.mpr he')
      exact absurd (decide_eq_true hsame) hno
    | some e'' => rfl
  · rw [decide_eq_false hname, if_neg Bool.false_ne_true, Option.or_none]

/-- Without a variable that is for no option there is no new path that counts. -/
theorem Whole.drop_variable {before after : List (String × String)} {v : String × String}
    (h : Whole file (before ++ v :: after)) (hidle : ∀ option ∈ fieldNames, ¬ Gives option v) :
    Whole file (before ++ after) := by
  intro option hoption
  obtain ⟨hvars, hfile⟩ := h option hoption
  have hsublist := (List.sublist_cons_self v after).append_left before
  rw [given?_drop (hidle option hoption)] at hfile
  exact ⟨fun w hw => hvars w (hsublist.subset hw), hfile⟩

/-- The order has no part in whether a path counts. -/
theorem Whole.of_perm {file' : Layer} {vars' : List (String × String)} (h : Whole file vars)
    (hnames : Distinct vars) (hfile : file'.Perm file) (hvars : vars'.Perm vars) :
    Whole file' vars' := by
  intro option hoption
  obtain ⟨hsplits, hdivides⟩ := h option hoption
  refine ⟨fun v hv => hsplits v (hvars.mem_iff.mp hv), fun ⟨e, he, htarget⟩ => ?_⟩
  rw [given?_of_perm hnames hvars]
  exact hdivides ⟨e, hfile.mem_iff.mp he, htarget⟩

theorem Whole.drop_member {before after : Layer} {e : String × Setting}
    (h : Whole (before ++ e :: after) vars) : Whole (before ++ after) vars := by
  intro option hoption
  obtain ⟨hvars, hfile⟩ := h option hoption
  have hsublist := (List.sublist_cons_self e after).append_left before
  exact ⟨hvars, fun ⟨e', he', htarget⟩ => hfile ⟨e', hsublist.subset he', htarget⟩⟩

/-- Fewer entries, in whatever order, are as tame. -/
theorem Tame.mono {file' : Layer} {vars' : List (String × String)} (h : Tame file vars)
    (hfile : ∀ e ∈ file', e ∈ file) (hvars : ∀ v ∈ vars', v ∈ vars) : Tame file' vars' :=
  ⟨fun e he => h.1 e (hfile e he), fun v hv => h.2 v (hvars v hv)⟩

/-- **How layers of options combine.** Let options be loaded from variables whose names differ in
more than their case, alone or with a file of any kind, and let no key that is set lead to a position
that is negative or beyond all memory. There are options, or they are bad.

If no key that counts is a path to a part of an option, then each option has its chosen setting: the
text of its variable, else its last member in the file, else the default.

* The options are the values of the chosen settings,
* and there are options just if each of them suits its option.
* A variable that is empty, or is for none of the options, may be left out,
* and so may a member of the file that is for none of them, or for one that a variable or a later
  member is for, whatever its value.
* The order of the variables does not matter, and neither does that of the members of the file if
  their names differ in more than their case.

If a key is a path to a part of an option that is not set as a whole, then the options are bad.

All this holds for every order in which the entries of a layer are gone through. The last member is
that of the order that is taken; if there are no two for an option, it is the only one. -/
theorem layering_exact (h : Loads vars file result) (hnames : Distinct vars)
    (htame : Tame file vars) :
    ((∃ o, result = .ok o) ∨ result = .error .badOptions) ∧
    (Whole file vars →
      (∀ o, result = .ok o ↔ Settles (choice file vars) o) ∧
      ((∃ o, result = .ok o) ↔
        ∀ option ∈ fieldNames, ∀ s, choice file vars option = some s → Suits option s) ∧
      (∀ before v after, vars = before ++ v :: after → (∀ option ∈ fieldNames, ¬ Gives option v) →
        ∀ result', Loads (before ++ after) file result' → result' = result) ∧
      (∀ before e after, file = before ++ e :: after →
        (∀ option ∈ fieldNames, Setting.lower e.1 = option →
          (given? vars option).isSome = true ∨ ∃ e' ∈ after, Setting.lower e'.1 = option) →
        ∀ result', Loads vars (before ++ after) result' → result' = result) ∧
      (∀ vars' result', vars'.Perm vars → Loads vars' file result' → result' = result) ∧
      ((file.map fun e => Setting.lower e.1).Nodup →
        ∀ file' result', file'.Perm file → Loads vars file' result' → result' = result)) ∧
    ∀ option ∈ fieldNames, given? vars option = none →
      ((∃ v ∈ vars, Splits option v) ∨ file.Divides option ∧ file.member? option = none) →
      result = .error .badOptions := by
  refine ⟨h.ok_or_bad htame,
    fun hwhole => ⟨fun o => h.eq_ok_iff hnames htame hwhole, ?_, ?_, ?_, ?_, ?_⟩, ?_⟩
  · simp only [h.eq_ok_iff hnames htame hwhole]
    exact exists_settles_iff
  · rintro before v after rfl hidle result' h'
    have hsublist := (List.sublist_cons_self v after).append_left before
    refine h.eq_of_choice h' hnames ((hsublist.map _).nodup hnames) htame
      (htame.mono (fun _ he => he) fun w hw => hsublist.subset hw) hwhole
      (hwhole.drop_variable hidle) fun option hoption => ?_
    rw [choice, choice, given?_drop (hidle option hoption)]
  · rintro before e after rfl hlost result' h'
    have hsublist := (List.sublist_cons_self e after).append_left before
    refine h.eq_of_choice h' hnames hnames htame
      (htame.mono (fun e he => hsublist.subset he) fun _ hv => hv) hwhole hwhole.drop_member
      fun option hoption => ?_
    rw [choice, choice]
    -- where a variable is set the file has no say; where none is, a later member takes the place
    cases hgiven : given? vars option with
    | some text => rfl
    | none =>
      rw [member?_drop fun hname => (hlost option hoption hname).resolve_left (by simp [hgiven])]
  · intro vars' result' hperm h'
    refine h.eq_of_choice h' hnames ((hperm.map _).nodup_iff.mpr hnames) htame
      (htame.mono (fun _ he => he) fun v hv => hperm.mem_iff.mp hv) hwhole
      (hwhole.of_perm hnames (.refl _) hperm) fun option _ => ?_
    rw [choice, choice, given?_of_perm hnames hperm]
  · -- with one member for a name at most, the last one does not depend on the order
    intro hmembers file' result' hperm h'
    refine h.eq_of_choice h' hnames hnames htame
      (htame.mono (fun e he => hperm.mem_iff.mp he) fun _ hv => hv) hwhole
      (hwhole.of_perm hnames hperm (.refl _)) fun option _ => ?_
    rw [choice, choice, member?_of_perm hmembers hperm]
  · intro option hoption hnone hpath
    exact h.bad_of_path hnames htame hoption hnone hpath

/-- A variable that is for a part of an option, which has none. -/
theorem default_lost_to_path :
    Distinct [("DNNRUNNER_TIMER.X", "on")] ∧
      (∀ option ∈ fieldNames, choice [] [("DNNRUNNER_TIMER.X", "on")] option = none) ∧
      Settles (choice [] [("DNNRUNNER_TIMER.X", "on")]) default ∧
      ofVariables [("DNNRUNNER_TIMER.X", "on")] = .error .badOptions ∧
      ofVariables [("DNNRUNNER_TIMER.X", "on")] ≠ .ok default := by
  have hchoice :
      ∀ option ∈ fieldNames, choice [] [("DNNRUNNER_TIMER.X", "on")] option = none := by
    decide +kernel
  have hsettles : Settles (fun _ => none) default := ⟨rfl, rfl, rfl, rfl⟩
  have hbad : ofVariables [("DNNRUNNER_TIMER.X", "on")] = .error .badOptions := by
    decide +kernel
  refine ⟨List.nodup_singleton _, hchoice, (settles_congr hchoice).mpr hsettles, hbad, ?_⟩
  intro hok
  cases hbad.symm.trans hok

/-- A text that sets an option badly, one well and none. -/
def mixedText : String :=
  "\x7b\"TIMER\":\"on\",\"progress_interval_ms\":\"soon\",\"threads\":4\x7d"

/-- A directory with nothing but the text. -/
def mixed : Files := Files.empty.add "o.json" (.file (Files.encodeText mixedText))

/-- A variable that overrides what is bad, an empty one, and three others, of which one leads into
a list. -/
def mixedVars : List (String × String) :=
  [("DNNRUNNER_Progress_Interval_MS", "250"), ("DNNRUNNER_TIMER", ""), ("DNNRUNNER_TRACE", "1"),
    ("DNNRUNNER_LANES[2]", "x"), ("PATH", "/bin")]

/-- What the file says badly is overridden, and an empty variable hides nothing. -/
theorem layering_exact_mixed :
    let file := [("TIMER", .text "on"), ("progress_interval_ms", .text "soon"),
      ("threads", .integer 4)]
    Loads mixedVars file (ofFile mixed "o.json" mixedVars) ∧ Distinct mixedVars ∧
      Tame file mixedVars ∧ Whole file mixedVars ∧
      ofFile mixed "o.json" mixedVars = .ok ⟨250, 10, false, true⟩ := by
  intro file
  have hname : Files.IsName "o.json" := by decide
  have htext : mixed.readText? "o.json" = some mixedText := Files.readText?_add hname rfl _
  have hpieces : "o.json".toList = ['o'] ++ '.' :: ['j', 's', 'o', 'n'] := rfl
  have hpath : Files.extension "o.json" = "json" :=
    Files.extension_of_isName hname hpieces (by decide) (by decide) (by decide)
  have hread : Layer.ofJsonText? mixedText = some file := by decide +kernel
  have hloads : Loads mixedVars file (ofFile mixed "o.json" mixedVars) :=
    loads_ofFileWith ((Layer.readFile?_of_json htext hpath).trans hread) mixedVars
  have hnames : Distinct mixedVars := by
    show List.Nodup _
    decide +kernel
  have htame : Tame file mixedVars := by decide +kernel
  have hwhole : Whole file mixedVars := by decide +kernel
  have hsettles : Settles (choice file mixedVars) ⟨250, 10, false, true⟩ :=
    ⟨by decide +kernel, by decide +kernel, by decide +kernel, by decide +kernel⟩
  obtain ⟨-, hlayers, -⟩ := layering_exact hloads hnames htame
  exact ⟨hloads, hnames, htame, hwhole, ((hlayers hwhole).1 _).mpr hsettles⟩

end Options

end InferenceEngine
