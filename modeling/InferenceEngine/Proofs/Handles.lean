import InferenceEngine.Proofs.Manifests
import Mathlib.Data.Finset.Card

/-!
# Handles of entry points

The handle of a name is given out when the name is first inserted, and stays whatever is inserted
later. `Registry.history_exact` says what a registry is after any sequence of insertions.

* `Registry.names_insert`, `Registry.lookup_insertEntry` — what one insertion does to the names and
  to the kernels.
* `Registry.names_prefix_foldl` — names are only appended, so a handle keeps its name.
* `Registry.Columns` — the same registry in three containers that are changed side by side.
  `Columns.insert_of_represents` is the step that keeps them in agreement, and
  `Columns.insertAll_of_represents` carries it along a history.
-/

namespace InferenceEngine.Registry

variable {r r' : Registry} {name other : String} {handle : Nat}

/-! ## One insertion -/

/-- What is appended is found behind the rest. -/
theorem idxOf?_append (xs ys : List String) (name : String) :
    (xs ++ ys).idxOf? name = (xs.idxOf? name).or ((ys.idxOf? name).map fun i => i + xs.length) :=
  List.findIdx?_append

/-- A listed name keeps its place, and its kernel is replaced. -/
theorem insertEntry_of_place {entries : List (String × Kernel)}
    (h : (entries.map (·.1)).idxOf? name = some handle) (kernel : Kernel) :
    insertEntry name kernel entries = entries.set handle (name, kernel) := by
  induction entries generalizing handle with
  | nil => simp at h
  | cons e rest ih =>
    rw [List.map_cons, List.idxOf?_cons] at h
    rw [insertEntry]
    by_cases he : e.1 = name
    · rw [beq_iff_eq.mpr he, if_pos rfl] at h
      obtain rfl := Option.some.inj h
      rw [if_pos he, List.set_cons_zero]
    · rw [beq_false_of_ne he, if_neg Bool.false_ne_true] at h
      obtain ⟨place, hplace, rfl⟩ := Option.map_eq_some_iff.mp h
      rw [if_neg he, ih hplace, List.set_cons_succ]

theorem handle?_eq_none : r.handle? name = none ↔ name ∉ r.names := List.idxOf?_eq_none_iff

/-- A handle leads to the name that it was given out for. -/
theorem handle?_eq_some (h : r.handle? name = some handle) : r.names[handle]? = some name := by
  obtain ⟨hlt, hname, -⟩ := List.idxOf?_eq_some_iff.mp h
  rw [List.getElem?_eq_getElem hlt, hname]

/-- Replacing a kernel leaves the names alone. -/
theorem names_insert_of_mem (h : name ∈ r.names) (kernel : Kernel) :
    (r.insert name kernel).names = r.names := by
  obtain ⟨place, hplace⟩ := Option.isSome_iff_exists.mp (List.isSome_idxOf?.mpr h)
  have hlisted := handle?_eq_some hplace
  have hset : r.names.set place name = r.names :=
    List.ext_getElem? fun i => by
      by_cases hi : place = i
      · subst hi
        rw [hlisted, List.getElem?_set_self (List.getElem?_eq_some_iff.mp hlisted).1]
      · rw [List.getElem?_set_ne hi]
  rw [names, insert, insertEntry_of_place hplace, List.map_set]
  exact hset

/-- A new name is put behind the others. -/
theorem names_insert_of_notMem (h : name ∉ r.names) (kernel : Kernel) :
    (r.insert name kernel).names = r.names ++ [name] := by
  rw [names, insert, insertEntry_of_notMem kernel h, List.map_append]
  rfl

/-- A new name gets the next handle, and the others keep theirs. -/
theorem handle?_insert_of_notMem (h : name ∉ r.names) (kernel : Kernel) (other : String) :
    (r.insert name kernel).handle? other =
      if other = name then some r.names.length else r.handle? other := by
  rw [handle?, names_insert_of_notMem h, idxOf?_append, handle?]
  by_cases hother : other = name
  · subst hother
    rw [List.idxOf?_eq_none_iff.mpr h]
    simp
  · simp [hother, Ne.symm hother]

/-- A new name is appended, and a listed one changes nothing about the names. -/
theorem names_insert (r : Registry) (name : String) (kernel : Kernel) :
    (r.insert name kernel).names = if name ∈ r.names then r.names else r.names ++ [name] := by
  split
  · exact names_insert_of_mem ‹_› kernel
  · exact names_insert_of_notMem ‹_› kernel

/-- A name has the kernel that was inserted for it last. -/
theorem lookup_insertEntry (name : String) (kernel : Kernel) (entries : List (String × Kernel))
    (other : String) : (insertEntry name kernel entries).lookup other =
      if other = name then some kernel else entries.lookup other := by
  induction entries with
  | nil => exact lookup_cons_eq_ite name kernel [] other
  | cons e rest ih =>
    obtain ⟨key, value⟩ := e
    rw [insertEntry]
    by_cases hkey : key = name
    · subst hkey
      rw [if_pos rfl, lookup_cons_eq_ite, lookup_cons_eq_ite]
      split <;> rfl
    · rw [if_neg hkey, lookup_cons_eq_ite, lookup_cons_eq_ite, ih]
      by_cases hother : other = key
      · rw [if_pos hother, if_pos hother, if_neg (hother ▸ hkey)]
      · rw [if_neg hother, if_neg hother]

/-- So has it in the registry. -/
theorem get?_insert (r : Registry) (name : String) (kernel : Kernel) (other : String) :
    (r.insert name kernel).get? other = if other = name then some kernel else r.get? other := by
  rw [get?_eq_lookup, get?_eq_lookup]
  exact lookup_insertEntry name kernel r.entries other

/-! ## Histories -/

/-- A history ends with its last insertion, -/
theorem ofList_concat (history : List (String × Kernel)) (name : String) (kernel : Kernel) :
    ofList (history ++ [(name, kernel)]) = (ofList history).insert name kernel := by
  rw [ofList, List.foldl_append]
  rfl

/-- and goes on with further ones from where it has come to. -/
theorem ofList_append (history more : List (String × Kernel)) :
    ofList (history ++ more) = more.foldl (fun r e => r.insert e.1 e.2) (ofList history) :=
  List.foldl_append

theorem eraseDups_concat (names : List String) (name : String) :
    (names ++ [name]).eraseDups =
      if name ∈ names.eraseDups then names.eraseDups else names.eraseDups ++ [name] := by
  rw [List.eraseDups_append]
  by_cases h : name ∈ names <;> simp [List.removeAll, List.eraseDups_cons, h]

/-- The names are listed in the order of their first insertion. -/
theorem names_ofList (history : List (String × Kernel)) :
    (ofList history).names = (history.map (·.1)).eraseDups := by
  induction history using List.reverseRecOn with
  | nil => rfl
  | append_singleton history e ih =>
    rw [ofList_concat, names_insert, ih, List.map_append, List.map_singleton, eraseDups_concat]

/-- After a history, a name has the last kernel that was inserted for it. -/
theorem get?_ofList (history : List (String × Kernel)) (name : String) :
    (ofList history).get? name = lastOf history name := by
  induction history using List.reverseRecOn with
  | nil => rfl
  | append_singleton history e ih =>
    rw [ofList_concat, get?_insert, ih, lastOf, lastOf, List.reverse_append,
      List.reverse_singleton, List.singleton_append]
    exact (lookup_cons_eq_ite e.1 e.2 history.reverse name).symm

/-- No name is listed twice. -/
theorem nodup_names_ofList (history : List (String × Kernel)) : (ofList history).names.Nodup := by
  induction history using List.reverseRecOn with
  | nil => exact .nil
  | append_singleton history e ih =>
    rw [ofList_concat, names_insert]
    split
    · exact ih
    · rename_i hnew
      exact List.nodup_append_comm.mp (List.nodup_cons.mpr ⟨hnew, ih⟩)

theorem mem_names_ofList {history : List (String × Kernel)} :
    name ∈ (ofList history).names ↔ name ∈ history.map (·.1) := by
  rw [names_ofList, List.mem_eraseDups]

/-- There are as many entry points as different names. -/
theorem length_names_ofList (history : List (String × Kernel)) :
    (ofList history).names.length = (history.map (·.1)).toFinset.card := by
  rw [← List.toFinset_card_of_nodup (nodup_names_ofList history)]
  refine congrArg Finset.card (Finset.ext fun name => ?_)
  rw [List.mem_toFinset, List.mem_toFinset, mem_names_ofList]

/-! ## Handles -/

/-- Insertions append names and do nothing else to them. -/
theorem names_prefix_foldl (r : Registry) (more : List (String × Kernel)) :
    r.names <+: (more.foldl (fun r e => r.insert e.1 e.2) r).names := by
  induction more generalizing r with
  | nil => exact List.prefix_refl _
  | cons e more ih =>
    have hstep : r.names <+: (r.insert e.1 e.2).names := by
      rw [names_insert]
      split
      · exact List.prefix_refl _
      · exact List.prefix_append _ _
    exact hstep.trans (ih (r.insert e.1 e.2))

/-- A handle is kept when names are appended. -/
theorem handle?_of_prefix (h : r.names <+: r'.names) (hhandle : r.handle? name = some handle) :
    r'.handle? name = some handle := by
  obtain ⟨rest, hrest⟩ := h
  rw [handle?] at hhandle ⊢
  rw [← hrest, idxOf?_append, hhandle, Option.some_or]

/-- A handle leads to one name. -/
theorem eq_of_handle? (h : r.handle? name = some handle) (h' : r.handle? other = some handle) :
    other = name :=
  Option.some.inj ((handle?_eq_some h').symm.trans (handle?_eq_some h))

/-- The handle of a name is the number of names that were inserted before it. -/
theorem handle?_of_first {before after : List (String × Kernel)} (h : name ∉ before.map (·.1))
    (kernel : Kernel) :
    (ofList (before ++ (name, kernel) :: after)).handle? name =
      some (before.map (·.1)).toFinset.card := by
  have hnew : name ∉ (ofList before).names := mt mem_names_ofList.mp h
  have hfirst : ((ofList before).insert name kernel).handle? name =
      some (ofList before).names.length := by
    rw [handle?_insert_of_notMem hnew, if_pos rfl]
  rw [List.append_cons, ofList_append, ofList_concat, ← length_names_ofList]
  exact handle?_of_prefix (names_prefix_foldl _ after) hfirst

/-- A handle leads to the kernel of its name. -/
theorem entry_of_handle? (h : r.handle? name = some handle) :
    ∃ kernel, r.entry handle = .ok kernel ∧ r.get? name = some kernel := by
  obtain ⟨hnone, -⟩ | ⟨place, kernel, hplace, hentry, hlookup⟩ := lookup_cases r.entries name
  · cases hnone.symm.trans h
  · obtain rfl := Option.some.inj (hplace.symm.trans h)
    refine ⟨kernel, ?_, ?_⟩
    · rw [entry, entry?, hentry]
      rfl
    · rw [get?_eq_lookup, hlookup]

/-! ## Three containers -/

/-- An index of different names by their places has an entry for each of them. -/
theorem size_of_places {index : NameMap Nat} {names : List String} (hnodup : names.Nodup)
    (h : ∀ name, index.get? name = names.idxOf? name) : index.size = names.length := by
  have hmem (name : String) : name ∈ index.names ↔ name ∈ names := by
    rw [NameMap.names, ← exists_lookup_iff, ← not_iff_not, ← List.idxOf?_eq_none_iff, ← h]
    simp [NameMap.get?, Option.eq_none_iff_forall_ne_some]
  have hperm : index.names.Perm names :=
    (List.perm_ext_iff_of_nodup (nodup_of_ascending index.ascending) hnodup).mpr hmem
  rw [← hperm.length_eq, NameMap.names, List.length_map, NameMap.size]

/-- A registry in three containers: kernels and names by handle, and handles by name. -/
structure Columns where
  /-- the kernels -/
  kernels : List Kernel
  /-- the names -/
  names : List String
  /-- the handles -/
  index : NameMap Nat

namespace Columns

variable {c : Columns}

/-- No entry points. -/
def empty : Columns := ⟨[], [], .empty⟩

/-- Replaces the kernel of a name that has a handle, which has to be in range, or appends to all
three. -/
def insert (c : Columns) (name : String) (kernel : Kernel) : Outcome Columns :=
  match c.index.get? name with
  | some handle =>
    if handle < c.kernels.length then .ok { c with kernels := c.kernels.set handle kernel }
    else .panic (.outOfBounds c.kernels.length handle)
  | none => .ok {
      kernels := c.kernels ++ [kernel]
      names := c.names ++ [name]
      index := c.index.insert name c.kernels.length }

/-- Inserts entry points one after the other. -/
def insertAll (c : Columns) : List (String × Kernel) → Outcome Columns
  | [] => .ok c
  | e :: rest => do
    let c ← c.insert e.1 e.2
    c.insertAll rest

/-- The containers hold what a registry lists. -/
structure Represents (c : Columns) (r : Registry) : Prop where
  /-- the kernels -/
  kernels : c.kernels = r.entries.map (·.2)
  /-- the names -/
  names : c.names = r.names
  /-- the handles -/
  index : ∀ name, c.index.get? name = r.handle? name

theorem Represents.length (h : c.Represents r) : c.kernels.length = r.names.length := by
  rw [h.kernels, Registry.names, List.length_map, List.length_map]

/-- **What one insertion preserves.** The handle of a listed name is in range, and a new name is put
at the end of all three. -/
theorem insert_of_represents (h : c.Represents r) (name : String) (kernel : Kernel) :
    ∃ c', c.insert name kernel = .ok c' ∧ c'.Represents (r.insert name kernel) := by
  rw [insert, h.index]
  cases hhandle : r.handle? name with
  | some handle =>
    have hmem : name ∈ r.names := by
      by_contra hnew
      rw [handle?_eq_none.mpr hnew] at hhandle
      cases hhandle
    -- the kernel is replaced where the index says, which must be in range
    have hlt : handle < c.kernels.length := by
      rw [h.length]
      exact (List.idxOf?_eq_some_iff.mp hhandle).1
    refine ⟨{ c with kernels := c.kernels.set handle kernel }, if_pos hlt, ?_, ?_, fun other => ?_⟩
    · rw [Registry.insert, insertEntry_of_place hhandle, List.map_set, h.kernels]
    · rw [names_insert_of_mem hmem, h.names]
    · rw [h.index, handle?, handle?, names_insert_of_mem hmem]
  | none =>
    -- the new handle is the number of kernels so far, as the names are as many
    have hnew : name ∉ r.names := handle?_eq_none.mp hhandle
    refine ⟨_, rfl, ?_, ?_, fun other => ?_⟩
    · rw [Registry.insert, insertEntry_of_notMem kernel hnew, List.map_append, h.kernels]
      rfl
    · rw [names_insert_of_notMem hnew, h.names]
    · rw [handle?_insert_of_notMem hnew, ← h.index, ← h.length]
      exact lookup_bindName name c.kernels.length c.index.entries other

/-- **What a history preserves.** No insertion is broken off. -/
theorem insertAll_of_represents (h : c.Represents r) (history : List (String × Kernel)) :
    ∃ c', c.insertAll history = .ok c' ∧
      c'.Represents (history.foldl (fun r e => r.insert e.1 e.2) r) := by
  induction history generalizing c r with
  | nil => exact ⟨c, rfl, h⟩
  | cons e history ih =>
    obtain ⟨c', hinsert, h'⟩ := insert_of_represents h e.1 e.2
    rw [insertAll, hinsert]
    exact ih h'

theorem represents_empty : empty.Represents Registry.empty := ⟨rfl, rfl, fun _ => rfl⟩

/-- There is a handle for each name. -/
theorem Represents.size_index (h : c.Represents r) (hnodup : r.names.Nodup) :
    c.index.size = r.names.length := size_of_places hnodup h.index

end Columns

/-! ## The main statement -/

/-- **A handle is given out once and for all.** Let any entry points be inserted into an empty
registry, one after the other.

* The names are listed in the order of their first insertion, and there are as many entry points as
  different names.
* A name that was never inserted has no handle and no kernel. The handle of any other is the number
  of different names that were inserted before it was first, and leads to the kernel that was
  inserted for it last, as the name itself does.
* Names and handles lead to each other: every number below the number of entry points is the handle
  of the name that is listed there, and no other number is a handle.
* Whatever is inserted later, a name keeps its handle, and no other name gets it.
* Kept in three containers, nothing is out of range when a kernel is replaced, and the containers
  hold the same as the registry: as many kernels, names and handles, each where it belongs. -/
theorem history_exact (history : List (String × Kernel)) :
    let r := ofList history
    (r.names = (history.map (·.1)).eraseDups ∧ r.size = (history.map (·.1)).toFinset.card) ∧
    (∀ name, name ∉ history.map (·.1) →
      r.handle? name = none ∧ r.get? name = none ∧ r.contains name = false) ∧
    (∀ before name kernel after, history = before ++ (name, kernel) :: after →
      name ∉ before.map (·.1) → ∃ last, lastOf history name = some last ∧
        r.handle? name = some (before.map (·.1)).toFinset.card ∧ r.contains name = true ∧
        r.get? name = some last ∧ r.entry (before.map (·.1)).toFinset.card = .ok last) ∧
    (∀ name handle, r.handle? name = some handle ↔ r.names[handle]? = some name) ∧
    (∀ handle, r.size ≤ handle → r.entry handle = .panic (.outOfBounds r.size handle)) ∧
    (∀ more name handle, r.handle? name = some handle →
      (ofList (history ++ more)).handle? name = some handle ∧
      ∀ other, (ofList (history ++ more)).handle? other = some handle → other = name) ∧
    ∃ c, Columns.empty.insertAll history = .ok c ∧ c.Represents r ∧
      c.kernels.length = c.names.length ∧ c.index.size = c.names.length ∧
      ∀ name handle, c.index.get? name = some handle ↔ c.names[handle]? = some name := by
  intro r
  have hnodup : r.names.Nodup := nodup_names_ofList history
  have hsize : r.size = r.names.length := (List.length_map _).symm
  have hinverse (name : String) (handle : Nat) :
      r.handle? name = some handle ↔ r.names[handle]? = some name :=
    idxOf?_eq_some_iff_of_nodup hnodup
  refine ⟨⟨names_ofList history, hsize.trans (length_names_ofList history)⟩, fun name h => ?_,
    fun before name kernel after hsplit h => ?_, hinverse, fun handle h => ?_,
    fun more name handle h => ?_, ?_⟩
  · have hnone : r.handle? name = none := handle?_eq_none.mpr (mt mem_names_ofList.mp h)
    exact ⟨hnone, by rw [get?, hnone]; rfl, by rw [contains, hnone]; rfl⟩
  · -- where it was inserted first decides the handle, where last the kernel
    have hhandle : r.handle? name = some (before.map (·.1)).toFinset.card := by
      show (ofList history).handle? name = _
      rw [hsplit]
      exact handle?_of_first h kernel
    obtain ⟨last, hentry, hget⟩ := entry_of_handle? hhandle
    refine ⟨last, ?_, hhandle, by rw [contains, hhandle]; rfl, hget, hentry⟩
    rw [← get?_ofList]
    exact hget
  · rw [entry, entry?, List.getElem?_eq_none h]
    rfl
  · -- names that were listed stay where they are
    have hlater : (ofList (history ++ more)).handle? name = some handle := by
      rw [ofList_append]
      exact handle?_of_prefix (names_prefix_foldl _ more) h
    exact ⟨hlater, fun other hother => eq_of_handle? hlater hother⟩
  · obtain ⟨c, hc, hrepresents⟩ := Columns.insertAll_of_represents Columns.represents_empty history
    refine ⟨c, hc, hrepresents, ?_, ?_, fun name handle => ?_⟩
    · rw [hrepresents.length, hrepresents.names]
    · rw [hrepresents.size_index hnodup, hrepresents.names]
    · rw [hrepresents.index, hrepresents.names]
      exact hinverse name handle

end InferenceEngine.Registry
