import InferenceEngine.Kernel.Manifest
import InferenceEngine.Kernel.Observation
import InferenceEngine.Proofs.ByteOrder
import InferenceEngine.Proofs.Linking
import InferenceEngine.Proofs.Orders

/-!
# From links and a source to a registry

Three times a name may be given twice: when kernels are linked, among the members of a manifest, and
when a registry is filled. The first two times the last of them counts (`lastOf`); a registry is
filled from names that ascend, so there nothing repeats and the handle of a name is its rank.

* `Registry.Offers` — the entry points are the listed names in the order of their bytes.
* `LinkedKernels.Manifest` — what a source says if it is a manifest.
* `LinkedKernels.resolveAll_cases` — the symbols of a manifest are all linked, or the first that is
  not is reported.
* `LinkedKernels.materialize_exact` — the registry of a source, and when there is none.
-/

namespace InferenceEngine

/-! ## The last of a repeated name -/

section Names

variable {α : Type} {name : String}

/-- The value that comes last with a name. -/
def lastOf (pairs : List (String × α)) (name : String) : Option α := pairs.reverse.lookup name

/-- A name is looked up in front first. -/
theorem lookup_cons_eq_ite (key : String) (value : α) (entries : List (String × α))
    (name : String) : ((key, value) :: entries).lookup name =
      if name = key then some value else entries.lookup name := by
  rw [List.lookup_cons]
  by_cases h : name = key
  · rw [if_pos h, beq_iff_eq.mpr h]
  · rw [if_neg h, beq_false_of_ne h]

/-- The pair in front counts only if no later one does. -/
theorem lastOf_cons (key : String) (value : α) (pairs : List (String × α)) (name : String) :
    lastOf ((key, value) :: pairs) name =
      (lastOf pairs name).or (if name = key then some value else none) := by
  rw [lastOf, List.reverse_cons, List.lookup_append, lookup_cons_eq_ite]
  rfl

/-- What is listed is found. -/
theorem exists_lookup_iff {entries : List (String × α)} :
    (∃ value, entries.lookup name = some value) ↔ name ∈ entries.map (·.1) := by
  obtain ⟨hplace, hnone⟩ | ⟨place, x, hplace, hentry, hsome⟩ := lookup_cases entries name
  · rw [List.idxOf?_eq_none_iff] at hplace
    simp [hnone, hplace]
  · have hmem : (name, x) ∈ entries := List.mem_of_getElem? hentry
    exact ⟨fun _ => List.mem_map.mpr ⟨_, hmem, rfl⟩, fun _ => ⟨x, hsome⟩⟩

theorem exists_lastOf_iff {pairs : List (String × α)} :
    (∃ value, lastOf pairs name = some value) ↔ name ∈ pairs.map (·.1) := by
  rw [lastOf, exists_lookup_iff, List.map_reverse, List.mem_reverse]

/-- Binding a name changes what that name stands for and nothing else. -/
theorem lookup_bindName (key : String) (value : α) (bound : List (String × α)) (name : String) :
    (bindName key value bound).lookup name =
      if name = key then some value else bound.lookup name := by
  induction bound with
  | nil => exact lookup_cons_eq_ite key value [] name
  | cons e rest ih =>
    obtain ⟨k, v⟩ := e
    rw [bindName, lookup_cons_eq_ite k]
    split
    · rename_i hk
      subst hk
      rw [lookup_cons_eq_ite]
      by_cases hname : name = key <;> simp only [hname, if_true, if_false]
    · rename_i hk
      split
      · rw [lookup_cons_eq_ite, lookup_cons_eq_ite]
      · rw [lookup_cons_eq_ite, ih]
        by_cases hname : name = k
        · subst hname
          rw [if_pos rfl, if_neg (Ne.symm hk), if_pos rfl]
        · rw [if_neg hname, if_neg hname]

/-- Binding pairs one after the other leaves the last of a repeated name. -/
theorem lookup_bindAll (pairs bound : List (String × α)) (name : String) :
    (bindAll pairs bound).lookup name = (lastOf pairs name).or (bound.lookup name) := by
  induction pairs generalizing bound with
  | nil => rfl
  | cons p pairs ih =>
    obtain ⟨key, value⟩ := p
    rw [lastOf_cons, Option.or_assoc]
    refine (ih (bindName key value bound)).trans (congrArg _ ?_)
    rw [lookup_bindName]
    by_cases hname : name = key <;>
      simp only [hname, if_true, if_false, Option.some_or, Option.none_or]

/-- In a map of pairs, a name stands for what it was paired with last. -/
theorem NameMap.get?_ofList (pairs : List (String × α)) (name : String) :
    (NameMap.ofList pairs).get? name = lastOf pairs name := by
  rw [NameMap.get?, NameMap.entries_ofList, lookup_bindAll]
  exact Option.or_none

end Names

/-! ## Registries -/

/-- The entry points are the listed names and no others, in the order of their bytes; each has the
kernel that is found for it, and its rank is its handle. -/
structure Registry.Offers (r : Registry) (names : List String) (find : String → Option Kernel) :
    Prop where
  /-- names strictly ascend -/
  ascending : r.names.Pairwise fun a b => Files.encodeText a < Files.encodeText b
  /-- the names are those that are listed -/
  mem_names : ∀ name, name ∈ r.names ↔ name ∈ names
  /-- a name has the kernel that is found for it -/
  get? : ∀ name, r.get? name = find name
  /-- a handle is the number of names before, and leads to the same kernel -/
  entry : ∀ name ∈ names, ∃ handle kernel, r.handle? name = some handle ∧
    handle = r.names.countP (fun other => Files.encodeText other < Files.encodeText name) ∧
    find name = some kernel ∧ r.entry handle = .ok kernel

namespace Registry

/-- A new name comes last. -/
theorem insertEntry_of_notMem {name : String} (kernel : Kernel) {entries : List (String × Kernel)}
    (h : name ∉ entries.map (·.1)) :
    insertEntry name kernel entries = entries ++ [(name, kernel)] := by
  induction entries with
  | nil => rfl
  | cons e rest ih =>
    rw [List.map_cons, List.mem_cons, not_or] at h
    rw [insertEntry, if_neg (Ne.symm h.1), ih h.2, List.cons_append]

/-- New names come one behind the other. -/
theorem entries_foldl_insert (r : Registry) {rest : List (String × Kernel)}
    (h : ((r.entries ++ rest).map (·.1)).Nodup) :
    (rest.foldl (fun r e => r.insert e.1 e.2) r).entries = r.entries ++ rest := by
  induction rest generalizing r with
  | nil => exact (List.append_nil _).symm
  | cons e rest ih =>
    have hnew : e.1 ∉ r.entries.map (·.1) := by
      rw [List.map_append, List.map_cons] at h
      exact fun hmem => (List.disjoint_of_nodup_append h) hmem List.mem_cons_self
    have hinsert : (r.insert e.1 e.2).entries = r.entries ++ [e] := insertEntry_of_notMem e.2 hnew
    rw [List.append_cons, ← hinsert] at h ⊢
    exact ih (r.insert e.1 e.2) h

/-- Names that do not repeat are listed in the order in which they are inserted. -/
theorem entries_ofList_of_nodup {entries : List (String × Kernel)}
    (h : (entries.map (·.1)).Nodup) : (ofList entries).entries = entries :=
  entries_foldl_insert empty h

/-- What is below a name is before it. -/
theorem idxOf?_of_ascending {names : List String} {name : String}
    (h : names.Pairwise fun a b => Files.encodeText a < Files.encodeText b) (hmem : name ∈ names) :
    names.idxOf? name =
      some (names.countP fun other => Files.encodeText other < Files.encodeText name) := by
  induction names with
  | nil => cases hmem
  | cons first rest ih =>
    obtain ⟨hfirst, hrest⟩ := List.pairwise_cons.mp h
    rw [List.idxOf?_cons]
    obtain rfl | hmem := List.mem_cons.mp hmem
    · have hnone : (name :: rest).countP
          (fun other => Files.encodeText other < Files.encodeText name) = 0 := by
        refine List.countP_eq_zero.mpr fun other hother => ?_
        obtain rfl | hother := List.mem_cons.mp hother
        · simp [List.lt_irrefl]
        · simpa using List.le_of_lt (hfirst other hother)
      rw [hnone, beq_self_eq_true]
      rfl
    · -- a name further on is behind the first one, which counts as one that is smaller
      have hlt := hfirst name hmem
      have hne : first ≠ name := by
        rintro rfl
        exact List.lt_irrefl _ hlt
      rw [beq_false_of_ne hne, ih hrest hmem, List.countP_cons_of_pos (by simpa using hlt)]
      rfl

/-- Going by the handle comes to the same as looking the name up. -/
theorem get?_eq_lookup (r : Registry) (name : String) : r.get? name = r.entries.lookup name :=
  (lookup_eq_idxOf? r.entries name).symm

/-- Entries in order make a registry in order. -/
theorem offers_ofList {entries : List (String × Kernel)} (h : Ascending entries)
    {names : List String} {find : String → Option Kernel}
    (hnames : ∀ name, name ∈ entries.map (·.1) ↔ name ∈ names)
    (hfind : ∀ name, entries.lookup name = find name) : (ofList entries).Offers names find := by
  have hentries : (ofList entries).entries = entries :=
    entries_ofList_of_nodup (nodup_of_ascending h)
  have hlisted : (ofList entries).names = entries.map (·.1) := congrArg (·.map (·.1)) hentries
  have hascending : (entries.map (·.1)).Pairwise
      fun a b => Files.encodeText a < Files.encodeText b :=
    List.pairwise_map.mpr (h.imp fun hlt => Files.encodeText_lt_iff.mpr hlt)
  refine ⟨hlisted ▸ hascending, fun name => hlisted ▸ hnames name, fun name => ?_, ?_⟩
  · rw [get?_eq_lookup, hentries, hfind]
  · intro name hname
    rw [hlisted]
    have hrank := idxOf?_of_ascending hascending ((hnames name).mpr hname)
    obtain ⟨hnone, -⟩ | ⟨place, kernel, hplace, hentry, hlookup⟩ := lookup_cases entries name
    · rw [hnone] at hrank
      cases hrank
    · refine ⟨place, kernel, ?_, Option.some.inj (hplace.symm.trans hrank), ?_, ?_⟩
      · rw [handle?, hlisted, hplace]
      · rw [← hfind, hlookup]
      · rw [entry, entry?, hentries, hentry]
        rfl

end Registry

/-! ## Sources -/

/-- A text is blank if nothing is left of it after trimming. -/
theorem Text.allBlank_iff {s : String} : Text.allBlank s = true ↔ Text.trim s = "" := by
  rw [Text.allBlank, Text.trim, List.all_eq_true, String.ofList_eq_empty_iff,
    List.reverse_eq_nil_iff, List.dropWhile_eq_nil_iff]
  refine ⟨fun h => ?_, fun h => ?_⟩
  · rw [List.dropWhile_eq_nil_iff.mpr h]
    exact fun c hc => absurd hc List.not_mem_nil
  · -- what is left at the front does not start with a blank
    rcases hleft : s.toList.dropWhile Text.isBlank with _ | ⟨c, cs⟩
    · exact List.dropWhile_eq_nil_iff.mp hleft
    · have hfirst := List.head?_dropWhile_not Text.isBlank s.toList
      rw [hleft] at h hfirst
      have hblank := h c (by simp)
      simp [hblank] at hfirst

namespace LinkedKernels

open Json

/-- The kernels after a history of links. -/
def linked (links : List (String × Kernel)) : LinkedKernels :=
  links.foldl (fun l p => l.link p.1 p.2) .empty

/-- Linking kernels one after the other is making a map of them. -/
theorem linked_eq_ofList (links : List (String × Kernel)) : linked links = ofList links := by
  have hfold (l : LinkedKernels) : links.foldl (fun l p => l.link p.1 p.2) l =
      ⟨links.foldl (fun m p => m.insert p.1 p.2) l.symbols⟩ := by
    induction links generalizing l with
    | nil => rfl
    | cons p links ih => exact ih (l.link p.1 p.2)
  exact hfold empty

/-- The source is an object with these members, all of them strings, in the order of the text. -/
def Manifest (source : String) (pairs : List (String × String)) : Prop :=
  ∃ ms, Tree.ofText? source = some (.object ms) ∧
    List.Forall₂ (fun m p => m.1.decode? = some p.1 ∧ m.2.text? = some p.2) ms pairs

/-- Names are read first and values then, and both of the same members. -/
theorem named?_bind {ms : List (Literal × Tree)} {pairs : List (String × String)} :
    ((Tree.named? ms).bind (allSome fun m => m.2.text?.map fun x => (m.1, x))) = some pairs ↔
      List.Forall₂ (fun m p => m.1.decode? = some p.1 ∧ m.2.text? = some p.2) ms pairs := by
  simp only [Option.bind_eq_some_iff, Tree.named?, allSome_eq_some_iff]
  constructor
  · -- all names are read before the first value is, so the two lists are taken apart side by side
    rintro ⟨named, hnames, hvalues⟩
    induction hnames generalizing pairs with
    | nil =>
      obtain rfl := List.forall₂_nil_left_iff.mp hvalues
      exact .nil
    | @cons m n ms named hname _ ih =>
      obtain ⟨p, rest, hvalue, hrest, rfl⟩ := List.forall₂_cons_left_iff.mp hvalues
      obtain ⟨k, hk, rfl⟩ := Option.map_eq_some_iff.mp hname
      obtain ⟨x, hx, rfl⟩ := Option.map_eq_some_iff.mp hvalue
      exact .cons ⟨hk, hx⟩ (ih hrest)
  · intro h
    induction h with
    | nil => exact ⟨[], .nil, .nil⟩
    | @cons m p ms pairs hmember _ ih =>
      obtain ⟨named, hnames, hvalues⟩ := ih
      exact ⟨(p.1, m.2) :: named, .cons (by rw [hmember.1]; rfl) hnames,
        .cons (by rw [hmember.2]; rfl) hvalues⟩

variable {source : String}

/-- What is read as a manifest is bound one member after the other. -/
theorem manifest?_eq_some_iff {m : NameMap String} :
    manifest? source = some m ↔ ∃ pairs, Manifest source pairs ∧ m = NameMap.ofList pairs := by
  constructor
  · intro h
    obtain ⟨t, htree, hmap⟩ := Option.bind_eq_some_iff.mp h
    cases t with
    | object ms =>
      obtain ⟨named, hnamed, hpairs⟩ := Option.bind_eq_some_iff.mp hmap
      obtain ⟨pairs, hpairs, hm⟩ := Option.bind_eq_some_iff.mp hpairs
      refine ⟨pairs, ⟨ms, htree, named?_bind.mp ?_⟩, (Option.some.inj hm).symm⟩
      exact Option.bind_eq_some_iff.mpr ⟨named, hnamed, hpairs⟩
    | _ => cases hmap
  · rintro ⟨pairs, ⟨ms, htree, hmembers⟩, rfl⟩
    obtain ⟨named, hnamed, hpairs⟩ := Option.bind_eq_some_iff.mp (named?_bind.mpr hmembers)
    refine Option.bind_eq_some_iff.mpr ⟨.object ms, htree, ?_⟩
    refine Option.bind_eq_some_iff.mpr ⟨named, hnamed, ?_⟩
    exact Option.bind_eq_some_iff.mpr ⟨pairs, hpairs, rfl⟩

/-! ## Symbols -/

/-- A symbol is linked, or it is the one that the failure names. -/
theorem resolve_cases (l : LinkedKernels) (symbol : String) :
    (∃ kernel, l.symbols.get? symbol = some kernel ∧ l.resolve symbol = .ok kernel) ∨
      (l.symbols.get? symbol = none ∧
        l.resolve symbol = .error (.kernelCompilation (.undefined symbol))) := by
  rw [resolve]
  rcases l.symbols.get? symbol with _ | kernel
  · exact .inr ⟨rfl, rfl⟩
  · exact .inl ⟨kernel, rfl, rfl⟩

/-- Each entry has the kernel that is linked under its symbol. -/
def Resolved (l : LinkedKernels) (entries : List (String × String))
    (kernels : List (String × Kernel)) : Prop :=
  List.Forall₂ (fun e k => k.1 = e.1 ∧ l.symbols.get? e.2 = some k.2) entries kernels

/-- All symbols are linked, or the first that is not is reported. -/
theorem resolveAll_cases (l : LinkedKernels) (r : Registry) (entries : List (String × String)) :
    (∃ kernels, l.Resolved entries kernels ∧
      l.resolveAll r entries = .ok (kernels.foldl (fun r e => r.insert e.1 e.2) r)) ∨
    ∃ before e after, entries = before ++ e :: after ∧
      (∀ b ∈ before, ∃ kernel, l.symbols.get? b.2 = some kernel) ∧ l.symbols.get? e.2 = none ∧
      l.resolveAll r entries = .error (.kernelCompilation (.undefined e.2)) := by
  induction entries generalizing r with
  | nil => exact .inl ⟨[], .nil, rfl⟩
  | cons e rest ih =>
    obtain ⟨name, symbol⟩ := e
    rw [resolveAll]
    obtain ⟨kernel, hsome, hresolve⟩ | ⟨hnone, hresolve⟩ := l.resolve_cases symbol
    · rw [hresolve]
      obtain ⟨kernels, hall, hrest⟩ | ⟨before, e, after, rfl, hbefore, he, hrest⟩ :=
        ih (r.insert name kernel)
      · exact .inl ⟨(name, kernel) :: kernels, .cons ⟨rfl, hsome⟩ hall, hrest⟩
      · exact .inr ⟨(name, symbol) :: before, e, after, rfl,
          List.forall_mem_cons.mpr ⟨⟨kernel, hsome⟩, hbefore⟩, he, hrest⟩
    · rw [hresolve]
      exact .inr ⟨[], (name, symbol), rest, rfl, List.forall_mem_nil _, hnone, rfl⟩

section Resolved

variable {l : LinkedKernels} {entries : List (String × String)} {kernels : List (String × Kernel)}

/-- The kernels have the keys of the manifest as their names, -/
theorem Resolved.names (h : l.Resolved entries kernels) :
    kernels.map (·.1) = entries.map (·.1) := by
  induction h with
  | nil => rfl
  | cons hhead _ ih => rw [List.map_cons, List.map_cons, hhead.1, ih]

/-- so their names ascend as the keys do. -/
theorem Resolved.ascending (h : l.Resolved entries kernels) (he : Ascending entries) :
    Ascending kernels := by
  have hnames : (kernels.map (·.1)).Pairwise (· < ·) := h.names ▸ List.pairwise_map.mpr he
  exact List.pairwise_map.mp hnames

/-- Every symbol that is named is linked, or there would be no kernels. -/
theorem Resolved.exists_kernel (h : l.Resolved entries kernels) {e : String × String}
    (he : e ∈ entries) : ∃ kernel, l.symbols.get? e.2 = some kernel := by
  induction h with
  | nil => cases he
  | cons hhead _ ih =>
    obtain rfl | he := List.mem_cons.mp he
    · exact ⟨_, hhead.2⟩
    · exact ih he

/-- Under a key there is the kernel of the symbol that the manifest has for it. -/
theorem Resolved.lookup (h : l.Resolved entries kernels) (name : String) :
    kernels.lookup name = (entries.lookup name).bind l.symbols.get? := by
  induction h with
  | nil => rfl
  | @cons e k entries kernels hhead _ ih =>
    obtain ⟨key, symbol⟩ := e
    obtain ⟨key', kernel⟩ := k
    obtain ⟨rfl, hkernel⟩ : key' = key ∧ l.symbols.get? symbol = some kernel := hhead
    rw [lookup_cons_eq_ite, lookup_cons_eq_ite, ih]
    split
    · exact hkernel.symm
    · rfl

end Resolved

/-! ## Registries of sources -/

section Materialize

variable (links : List (String × Kernel)) {pairs : List (String × String)} {symbol : String}

/-- A symbol stands for the kernel that was linked under it last. -/
theorem get?_linked (symbol : String) :
    (linked links).symbols.get? symbol = lastOf links symbol := by
  rw [linked_eq_ofList]
  exact NameMap.get?_ofList links symbol

theorem exists_get?_linked :
    (∃ kernel, (linked links).symbols.get? symbol = some kernel) ↔ symbol ∈ links.map (·.1) := by
  rw [get?_linked, exists_lastOf_iff]

/-- A map of pairs has their names and no others. -/
theorem mem_names_ofList {α : Type} (pairs : List (String × α)) (name : String) :
    name ∈ (NameMap.ofList pairs).entries.map (·.1) ↔ name ∈ pairs.map (·.1) := by
  rw [← exists_lookup_iff, ← exists_lastOf_iff, ← NameMap.get?_ofList]
  rfl

/-- A blank source offers every symbol under its own name. -/
theorem materialize_of_blank (h : Text.trim source = "") :
    ∃ r, (linked links).materialize source = .ok r ∧ r.Offers (links.map (·.1)) (lastOf links) := by
  rw [materialize, if_pos (Text.allBlank_iff.mpr h), linked_eq_ofList]
  exact ⟨_, rfl, Registry.offers_ofList (NameMap.ofList links).ascending (mem_names_ofList links)
    (NameMap.get?_ofList links)⟩

/-- The symbol that counts for the key is not linked. -/
def Undefined (pairs : List (String × String)) (key symbol : String) : Prop :=
  lastOf pairs key = some symbol ∧ symbol ∉ links.map (·.1)

/-- A source that is not blank has to be a manifest. -/
theorem materialize_of_invalid (hne : Text.trim source ≠ "")
    (h : ∀ pairs, ¬ Manifest source pairs) :
    (linked links).materialize source = .error (.kernelCompilation .invalid) := by
  rw [materialize, if_neg (mt Text.allBlank_iff.mp hne)]
  rcases hm : manifest? source with _ | m
  · rfl
  · obtain ⟨pairs, hpairs, -⟩ := manifest?_eq_some_iff.mp hm
    exact absurd hpairs (h pairs)

theorem lastOf_eq_some_iff {key : String} :
    lastOf pairs key = some symbol ↔ (key, symbol) ∈ (NameMap.ofList pairs).entries := by
  rw [← NameMap.get?_ofList, NameMap.get?_eq_some_iff]

/-- The first entry whose symbol is not linked has the smallest of these keys. -/
theorem undefined_of_split {before after : List (String × String)} {e : String × String}
    (hentries : (NameMap.ofList pairs).entries = before ++ e :: after)
    (hbefore : ∀ b ∈ before, ∃ kernel, (linked links).symbols.get? b.2 = some kernel)
    (he : (linked links).symbols.get? e.2 = none) :
    Undefined links pairs e.1 e.2 ∧ ∀ key symbol, Undefined links pairs key symbol →
      Files.encodeText e.1 ≤ Files.encodeText key := by
  refine ⟨⟨?_, ?_⟩, fun key symbol hundefined => ?_⟩
  · exact lastOf_eq_some_iff.mpr (hentries ▸ List.mem_append_right before List.mem_cons_self)
  · rw [← exists_get?_linked, he]
    exact nofun
  · -- the keys before have linked symbols, and those behind are greater
    have hmem := lastOf_eq_some_iff.mp hundefined.1
    have hascending := (NameMap.ofList pairs).ascending
    rw [hentries] at hmem hascending
    obtain hmem | hmem := List.mem_append.mp hmem
    · exact absurd ((exists_get?_linked links).mp (hbefore _ hmem)) hundefined.2
    · obtain rfl | hmem := List.mem_cons.mp hmem
      · exact List.le_refl _
      · have hlt := (List.pairwise_cons.mp (List.pairwise_append.mp hascending).2.1).1 _ hmem
        exact List.le_of_lt (Files.encodeText_lt_iff.mpr hlt)

/-- A manifest is linked if all its symbols are; if not, the smallest key decides. -/
theorem materialize_of_manifest (hne : Text.trim source ≠ "") (h : Manifest source pairs) :
    (∃ r, (linked links).materialize source = .ok r ∧
      (∀ key symbol, lastOf pairs key = some symbol → symbol ∈ links.map (·.1)) ∧
      r.Offers (pairs.map (·.1)) fun key => (lastOf pairs key).bind (lastOf links)) ∨
    ∃ key symbol, Undefined links pairs key symbol ∧
      (∀ key' symbol', Undefined links pairs key' symbol' →
        Files.encodeText key ≤ Files.encodeText key') ∧
      (linked links).materialize source = .error (.kernelCompilation (.undefined symbol)) := by
  have hmanifest : manifest? source = some (NameMap.ofList pairs) :=
    manifest?_eq_some_iff.mpr ⟨pairs, h, rfl⟩
  rw [materialize, if_neg (mt Text.allBlank_iff.mp hne), hmanifest]
  -- keys are bound in order, so the first symbol that is not linked belongs to the smallest key
  obtain ⟨kernels, hall, hok⟩ | ⟨before, e, after, hentries, hbefore, he, herror⟩ :=
    (linked links).resolveAll_cases .empty (NameMap.ofList pairs).entries
  · refine .inl ⟨_, hok, fun key symbol hkey => ?_, ?_⟩
    · exact (exists_get?_linked links).mp (hall.exists_kernel (lastOf_eq_some_iff.mp hkey))
    · refine Registry.offers_ofList (hall.ascending (NameMap.ofList pairs).ascending)
        (fun name => ?_) fun name => ?_
      · rw [hall.names, mem_names_ofList]
      · rw [hall.lookup, ← NameMap.get?_ofList]
        exact congrArg _ (funext (get?_linked links))
  · obtain ⟨hundefined, hleast⟩ := undefined_of_split links hentries hbefore he
    exact .inr ⟨e.1, e.2, hundefined, hleast, herror⟩

/-- Whether there is a registry is decided by the last symbols of the keys. -/
theorem exists_materialize_iff (hne : Text.trim source ≠ "") :
    (∃ r, (linked links).materialize source = .ok r) ↔ ∃ pairs, Manifest source pairs ∧
      ∀ key symbol, lastOf pairs key = some symbol → symbol ∈ links.map (·.1) := by
  constructor
  · rintro ⟨r, hr⟩
    by_cases hmanifest : ∃ pairs, Manifest source pairs
    · obtain ⟨pairs, h⟩ := hmanifest
      obtain ⟨_, -, hlinked, -⟩ | ⟨_, _, -, -, herror⟩ := materialize_of_manifest links hne h
      · exact ⟨pairs, h, hlinked⟩
      · rw [hr] at herror
        cases herror
    · rw [materialize_of_invalid links hne (not_exists.mp hmanifest)] at hr
      cases hr
  · rintro ⟨pairs, h, hlinked⟩
    obtain ⟨r, hr, -⟩ | ⟨key, symbol, hundefined, -⟩ := materialize_of_manifest links hne h
    · exact ⟨r, hr⟩
    · exact absurd (hlinked key symbol hundefined.1) hundefined.2

/-- What is materialized from a manifest offers the kernels of its keys, each the one that was
linked last under the symbol that the key was given last. -/
theorem offers_of_materialize {r : Registry} (hne : Text.trim source ≠ "")
    (h : Manifest source pairs) (hr : (linked links).materialize source = .ok r) :
    r.Offers (pairs.map (·.1)) fun key => (lastOf pairs key).bind (lastOf links) := by
  obtain ⟨r', hr', -, hoffers⟩ | ⟨_, _, -, -, herror⟩ := materialize_of_manifest links hne h
  · obtain rfl := Except.ok.inj (hr.symm.trans hr')
    exact hoffers
  · rw [hr] at herror
    cases herror

section Refused

variable {e : Failure} (he : (linked links).materialize source = .error e)

include he

/-- A source that is refused is not blank. -/
theorem trim_ne_of_error : Text.trim source ≠ "" := by
  intro hblank
  obtain ⟨r, hr, -⟩ := materialize_of_blank links hblank
  rw [he] at hr
  cases hr

theorem eq_invalid_of_error (h : ∀ pairs, ¬ Manifest source pairs) :
    e = .kernelCompilation .invalid :=
  Except.error.inj (he.symm.trans (materialize_of_invalid links (trim_ne_of_error links he) h))

/-- If a manifest is refused, one of its symbols is not linked, and the failure names that of the
smallest such key. -/
theorem exists_undefined_of_error (h : Manifest source pairs) :
    ∃ key symbol, Undefined links pairs key symbol ∧
      (∀ key' symbol', Undefined links pairs key' symbol' →
        Files.encodeText key ≤ Files.encodeText key') ∧
      e = .kernelCompilation (.undefined symbol) := by
  obtain ⟨r, hr, -⟩ | ⟨key, symbol, hkey, hleast, herror⟩ :=
    materialize_of_manifest links (trim_ne_of_error links he) h
  · rw [he] at hr
    cases hr
  · exact ⟨key, symbol, hkey, hleast, Except.error.inj (he.symm.trans herror)⟩

end Refused

/-- **What a source is turned into.** Kernels are linked one after the other, and the last of a
symbol counts.

A blank source offers every linked symbol under its own name. Any other source is turned into a
registry if and only if it is a manifest and the last symbol of every key is linked; then the keys
are offered with the kernels of their symbols. If not, the source is at fault: it is no manifest, or
it is reported with the symbol of the smallest key that has an unknown one. -/
theorem materialize_exact (source : String) :
    (Text.trim source = "" →
      ∃ r, (linked links).materialize source = .ok r ∧ r.Offers (links.map (·.1)) (lastOf links)) ∧
    (Text.trim source ≠ "" →
      ((∃ r, (linked links).materialize source = .ok r) ↔ ∃ pairs, Manifest source pairs ∧
        ∀ key symbol, lastOf pairs key = some symbol → symbol ∈ links.map (·.1)) ∧
      ∀ pairs r, Manifest source pairs → (linked links).materialize source = .ok r →
        r.Offers (pairs.map (·.1)) fun key => (lastOf pairs key).bind (lastOf links)) ∧
    ∀ e, (linked links).materialize source = .error e →
      (∃ fault, e = .kernelCompilation fault) ∧
      ((∀ pairs, ¬ Manifest source pairs) → e = .kernelCompilation .invalid) ∧
      ∀ pairs, Manifest source pairs → ∃ key symbol, Undefined links pairs key symbol ∧
        (∀ key' symbol', Undefined links pairs key' symbol' →
          Files.encodeText key ≤ Files.encodeText key') ∧
        e = .kernelCompilation (.undefined symbol) ∧
        e.message = "kernel compilation failed: undefined kernel symbol " ++ symbol := by
  refine ⟨materialize_of_blank links, fun hne => ⟨exists_materialize_iff links hne, fun pairs r =>
    offers_of_materialize links hne⟩, fun e he => ⟨?_, eq_invalid_of_error links he, ?_⟩⟩
  · -- whatever the source is, it is the source that is at fault
    by_cases hmanifest : ∃ pairs, Manifest source pairs
    · obtain ⟨pairs, h⟩ := hmanifest
      obtain ⟨_, symbol, -, -, rfl⟩ := exists_undefined_of_error links he h
      exact ⟨_, rfl⟩
    · exact ⟨_, eq_invalid_of_error links he (not_exists.mp hmanifest)⟩
  · intro pairs h
    obtain ⟨key, symbol, hkey, hleast, rfl⟩ := exists_undefined_of_error links he h
    exact ⟨key, symbol, hkey, hleast, rfl, rfl⟩

end Materialize

/-- One symbol is linked twice. -/
def relinked : List (String × Kernel) :=
  [("s", Kernels.fail), ("t", Kernels.noop), ("s", Kernels.noop)]

/-- The last symbol of `a` counts, and the first is not linked. -/
def repeated : String := "\x7b\"b\":\"t\",\"a\":\"u\",\"a\":\"s\"\x7d"

/-- Neither symbol is linked, and the key that comes first is not the smallest. -/
def unlinked : String := "\x7b\"b\":\"v\",\"a\":\"u\"\x7d"

theorem manifest_repeated : Manifest repeated [("b", "t"), ("a", "u"), ("a", "s")] := by
  have hchars : repeated.toList =
      ['\x7b', '"', 'b', '"', ':', '"', 't', '"', ',', '"', 'a', '"', ':', '"', 'u', '"', ',', '"',
        'a', '"', ':', '"', 's', '"', '\x7d'] := by decide +kernel
  refine ⟨[([.plain 'b'], .string [.plain 't']), ([.plain 'a'], .string [.plain 'u']),
    ([.plain 'a'], .string [.plain 's'])], ?_, ?_⟩
  · rw [Tree.ofText?, hchars]
    rfl
  · exact .cons ⟨rfl, rfl⟩ (.cons ⟨rfl, rfl⟩ (.cons ⟨rfl, rfl⟩ .nil))

theorem manifest_unlinked : Manifest unlinked [("b", "v"), ("a", "u")] := by
  have hchars : unlinked.toList =
      ['\x7b', '"', 'b', '"', ':', '"', 'v', '"', ',', '"', 'a', '"', ':', '"', 'u', '"',
        '\x7d'] := by decide +kernel
  refine ⟨[([.plain 'b'], .string [.plain 'v']), ([.plain 'a'], .string [.plain 'u'])], ?_, ?_⟩
  · rw [Tree.ofText?, hchars]
    rfl
  · exact .cons ⟨rfl, rfl⟩ (.cons ⟨rfl, rfl⟩ .nil)

theorem materialize_exact_repeated :
    (∃ r, (linked relinked).materialize repeated = .ok r ∧ r.Offers ["b", "a", "a"] fun key =>
      (lastOf [("b", "t"), ("a", "u"), ("a", "s")] key).bind (lastOf relinked)) ∧
    (linked relinked).materialize unlinked = .error (.kernelCompilation (.undefined "u")) := by
  constructor
  · obtain ⟨-, hread, -⟩ := materialize_exact relinked repeated
    obtain ⟨hexists, hoffers⟩ := hread (by decide +kernel)
    have hlinked (key symbol : String)
        (hkey : lastOf [("b", "t"), ("a", "u"), ("a", "s")] key = some symbol) :
        symbol ∈ relinked.map (·.1) := by
      have hlookup : [("a", "s"), ("a", "u"), ("b", "t")].lookup key = some symbol := hkey
      rw [lookup_cons_eq_ite, lookup_cons_eq_ite, lookup_cons_eq_ite] at hlookup
      split_ifs at hlookup with ha hb
      · obtain rfl := Option.some.inj hlookup
        decide
      · obtain rfl := Option.some.inj hlookup
        decide
      · cases hlookup
    obtain ⟨r, hr⟩ := hexists.mpr ⟨_, manifest_repeated, hlinked⟩
    exact ⟨r, hr, hoffers _ r manifest_repeated hr⟩
  · obtain ⟨-, hread, hrefused⟩ := materialize_exact relinked unlinked
    rcases hresult : (linked relinked).materialize unlinked with e | r
    · obtain ⟨-, -, hundefined⟩ := hrefused e hresult
      obtain ⟨key, symbol, ⟨hkey, -⟩, hleast, rfl, -⟩ := hundefined _ manifest_unlinked
      have hle := hleast "a" "u" ⟨rfl, by decide⟩
      have hlookup : [("a", "u"), ("b", "v")].lookup key = some symbol := hkey
      rw [lookup_cons_eq_ite, lookup_cons_eq_ite] at hlookup
      split_ifs at hlookup with ha hb
      · obtain rfl := Option.some.inj hlookup
        rfl
      · subst hb
        exact absurd hle (by decide +kernel)
      · cases hlookup
    · -- a registry would have a kernel for `b`
      have hoffers := (hread (by decide +kernel)).2 _ r manifest_unlinked hresult
      obtain ⟨_, kernel, -, -, hkernel, -⟩ := hoffers.entry "b" (by decide)
      cases hkernel

end LinkedKernels

end InferenceEngine
