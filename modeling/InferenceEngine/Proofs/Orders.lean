import InferenceEngine.Proofs.Decoding
import Mathlib.Data.List.Nodup
import Mathlib.Data.List.Perm.Basic

/-!
# Objects in any order

What a reader makes of an object is the same for every order of the members, as long as no name
repeats.

* `NameMap.ofList_of_perm` — a map is built from its entries in any order.
* `allSome_of_perm`, `allSome_of_sublist` — a list that is read item by item.
* `Json.Written j t` — `t` is the tree of `j` with the members of its objects in any order, at every
  depth. It denotes `j` (`Tree.value?_of_written`).
* `Tree.WrittenList`, `Tree.WrittenMap` — lists and maps whose values may take several forms.
-/

namespace InferenceEngine

/-! ## Names in any order -/

section Names

variable {α : Type}

/-- Names that strictly ascend do not repeat. -/
theorem nodup_of_ascending {entries : List (String × α)} (h : Ascending entries) :
    (entries.map (·.1)).Nodup :=
  List.pairwise_map.mpr (h.imp fun hlt => String.ne_of_lt hlt)

theorem nodup_names_of_perm {xs ys : List (String × α)} (hp : xs.Perm ys) :
    (xs.map (·.1)).Nodup ↔ (ys.map (·.1)).Nodup := (hp.map _).nodup_iff

/-- There is one way to put entries in order. -/
theorem eq_of_perm_of_ascending {xs ys : List (String × α)} (hp : xs.Perm ys) (hx : Ascending xs)
    (hy : Ascending ys) : xs = ys :=
  List.Perm.eq_of_pairwise (fun _ _ _ _ hab hba => absurd hba (String.lt_asymm hab)) hx hy hp

/-- A new name is added. -/
theorem bindName_perm {name : String} {value : α} {entries : List (String × α)}
    (h : name ∉ entries.map (·.1)) :
    (bindName name value entries).Perm ((name, value) :: entries) := by
  induction entries with
  | nil => exact .refl _
  | cons e rest ih =>
    obtain ⟨k, v⟩ := e
    rw [List.map_cons, List.mem_cons, not_or] at h
    rw [bindName, if_neg h.1]
    split
    · exact .refl _
    · exact ((ih h.2).cons _).trans (.swap _ _ _)

/-- Binds pairs one after the other. -/
def bindAll (pairs bound : List (String × α)) : List (String × α) :=
  pairs.foldl (fun bound p => bindName p.1 p.2 bound) bound

/-- Whatever is bound to an ascending list leaves it ascending. -/
theorem ascending_bindAll (pairs : List (String × α)) {bound : List (String × α)}
    (h : Ascending bound) : Ascending (bindAll pairs bound) := by
  induction pairs generalizing bound with
  | nil => exact h
  | cons p pairs ih => exact ih (ascending_bindName h)

/-- If no name repeats, nothing is replaced: all pairs are bound, and only their order is another
one. -/
theorem bindAll_perm {pairs bound : List (String × α)}
    (h : ((bound ++ pairs).map (·.1)).Nodup) : (bindAll pairs bound).Perm (bound ++ pairs) := by
  induction pairs generalizing bound with
  | nil =>
    rw [List.append_nil]
    exact .refl _
  | cons p pairs ih =>
    have hmiddle : (bound ++ p :: pairs).Perm (p :: bound ++ pairs) := List.perm_middle
    have hnodup := (nodup_names_of_perm hmiddle).mp h
    have hnew : p.1 ∉ bound.map (·.1) := by
      rw [List.cons_append, List.map_cons, List.nodup_cons, List.map_append, List.mem_append] at hnodup
      exact fun hp => hnodup.1 (.inl hp)
    have hbind : (bindName p.1 p.2 bound ++ pairs).Perm (p :: bound ++ pairs) :=
      (bindName_perm hnew).append_right pairs
    have hrest := ih ((nodup_names_of_perm hbind).mpr hnodup)
    exact (hrest.trans hbind).trans hmiddle.symm

/-- Entries in order are built from their pairs in any order. -/
theorem bindAll_of_perm {pairs entries : List (String × α)} (hp : pairs.Perm entries)
    (h : Ascending entries) : bindAll pairs [] = entries := by
  have hnodup : ((([] : List (String × α)) ++ pairs).map (·.1)).Nodup :=
    (nodup_names_of_perm hp).mpr (nodup_of_ascending h)
  have hall : (bindAll pairs []).Perm entries := (bindAll_perm hnodup).trans hp
  exact eq_of_perm_of_ascending hall (ascending_bindAll pairs .nil) h

/-- A map of pairs is what binding them one after the other makes of nothing. -/
theorem NameMap.entries_ofList (pairs : List (String × α)) :
    (NameMap.ofList pairs).entries = bindAll pairs [] := by
  have hfold (m : NameMap α) :
      (pairs.foldl (fun m p => m.insert p.1 p.2) m).entries = bindAll pairs m.entries := by
    induction pairs generalizing m with
    | nil => rfl
    | cons p pairs ih => exact ih (m.insert p.1 p.2)
  exact hfold .empty

/-- **Binding the entries of a map in any order builds the map.** -/
theorem NameMap.ofList_of_perm {m : NameMap α} {pairs : List (String × α)}
    (h : pairs.Perm m.entries) : NameMap.ofList pairs = m := by
  have hentries : (NameMap.ofList pairs).entries = m.entries := by
    rw [NameMap.entries_ofList]
    exact bindAll_of_perm h m.ascending
  generalize NameMap.ofList pairs = m' at hentries
  cases m'
  cases m
  cases hentries
  rfl

/-- A list whose names do not repeat may be searched in any order. -/
theorem lookup_of_perm {xs ys : List (String × α)} (hp : xs.Perm ys)
    (h : (xs.map (·.1)).Nodup) (name : String) : xs.lookup name = ys.lookup name := by
  have hys : (ys.map (·.1)).Nodup := (nodup_names_of_perm hp).mp h
  cases hx : xs.lookup name with
  | none =>
    rw [eq_comm, List.lookup_eq_none_iff]
    exact fun e he => List.lookup_eq_none_iff.mp hx e (hp.mem_iff.mpr he)
  | some value =>
    obtain ⟨before, after, rfl, -⟩ := List.lookup_eq_some_iff.mp hx
    have hmem : (name, value) ∈ ys := hp.mem_iff.mp (by simp)
    exact (lookup_of_mem hys hmem).symm

end Names

namespace Json

/-! ## Lists that are read item by item -/

/-- All items have a value just if there is a list of values that belong to them, item by item. -/
theorem allSome_eq_some_iff {α β : Type} {f : α → Option β} {xs : List α} {ys : List β} :
    allSome f xs = some ys ↔ List.Forall₂ (fun x y => f x = some y) xs ys := by
  induction xs generalizing ys with
  | nil => rw [List.forall₂_nil_left_iff, allSome, Option.some.injEq, eq_comm]
  | cons x xs ih =>
    rw [allSome, List.forall₂_cons_left_iff]
    cases hx : f x with
    | none => simp
    | some y => simp [ih, eq_comm]

/-- An item without a value leaves the list without one. -/
theorem allSome_eq_none_of_mem {α β : Type} {f : α → Option β} {xs : List α} {x : α}
    (hmem : x ∈ xs) (hx : f x = none) : allSome f xs = none := by
  induction xs with
  | nil => cases hmem
  | cons y ys ih =>
    rw [allSome]
    rcases List.mem_cons.mp hmem with rfl | hmem
    · rw [hx]
    · rw [ih hmem]
      cases f y <;> rfl

/-- Items in another order have the same values, in that other order. -/
theorem allSome_of_perm {α β : Type} {f : α → Option β} {xs ys : List α} {zs : List β}
    (hp : xs.Perm ys) (h : allSome f ys = some zs) : ∃ ws, allSome f xs = some ws ∧ ws.Perm zs := by
  obtain ⟨ws, hws, hp⟩ := List.perm_comp_forall₂ hp (allSome_eq_some_iff.mp h)
  exact ⟨ws, allSome_eq_some_iff.mpr hws, hp⟩

/-- Items that are all read as what they are an encoding of are read as the list of these. -/
theorem allSome_of_forall₂ {α β : Type} {form : α → β → Prop} {item : β → Option α} {xs : List α}
    {ts : List β} (h : List.Forall₂ form xs ts)
    (hitem : ∀ x ∈ xs, ∀ t, form x t → item t = some x) : allSome item ts = some xs := by
  induction h with
  | nil => rfl
  | cons hx _ ih =>
    obtain ⟨hhead, htail⟩ := List.forall_mem_cons.mp hitem
    rw [allSome, hhead _ hx, ih htail]
    rfl

theorem forall_of_forall₂ {α β : Type} {form : α → β → Prop} {good : β → Prop} {xs : List α}
    {ts : List β} (h : List.Forall₂ form xs ts) (hform : ∀ x t, form x t → good t) :
    ∀ t ∈ ts, good t := by
  induction h with
  | nil => exact List.forall_mem_nil _
  | cons hx _ ih => exact List.forall_mem_cons.mpr ⟨hform _ _ hx, ih⟩

/-- If all items have a value, so have some of them. -/
theorem allSome_of_sublist {α β : Type} {f : α → Option β} {xs zs : List α} {ys : List β}
    (hsub : zs.Sublist xs) (h : allSome f xs = some ys) :
    ∃ ws, allSome f zs = some ws ∧ ws.Sublist ys := by
  induction hsub generalizing ys with
  | slnil => exact ⟨ys, h, .refl ys⟩
  | cons x _ ih =>
    obtain ⟨y, ys, hx, hxs, rfl⟩ := List.forall₂_cons_left_iff.mp (allSome_eq_some_iff.mp h)
    obtain ⟨ws, hws, hsub⟩ := ih (allSome_eq_some_iff.mpr hxs)
    exact ⟨ws, hws, hsub.cons y⟩
  | cons_cons x _ ih =>
    obtain ⟨y, ys, hx, hxs, rfl⟩ := List.forall₂_cons_left_iff.mp (allSome_eq_some_iff.mp h)
    obtain ⟨ws, hws, hsub⟩ := ih (allSome_eq_some_iff.mpr hxs)
    refine ⟨y :: ws, ?_, hsub.cons_cons y⟩
    rw [allSome, hx, hws]
    rfl

/-- An element was read as a result. -/
theorem allSome_mem_left {α β : Type} {f : α → Option β} {xs : List α} {ys : List β} {x : α}
    (h : allSome f xs = some ys) (hx : x ∈ xs) : ∃ y ∈ ys, f x = some y := by
  obtain ⟨ws, hws, hsub⟩ := allSome_of_sublist (List.singleton_sublist.mpr hx) h
  obtain ⟨y, _, hy, hnil, rfl⟩ := List.forall₂_cons_left_iff.mp (allSome_eq_some_iff.mp hws)
  exact ⟨y, hsub.subset List.mem_cons_self, hy⟩

/-- A result was read from an element. -/
theorem allSome_mem_right {α β : Type} {f : α → Option β} {xs : List α} {ys : List β} {y : β}
    (h : allSome f xs = some ys) (hy : y ∈ ys) : ∃ x ∈ xs, f x = some y := by
  have hall := allSome_eq_some_iff.mp h
  clear h
  induction hall with
  | nil => cases hy
  | @cons x _ xs _ hx _ ih =>
    obtain rfl | hy := List.mem_cons.mp hy
    · exact ⟨x, List.mem_cons_self, hx⟩
    · obtain ⟨x', hx', hread⟩ := ih hy
      exact ⟨x', List.mem_cons_of_mem _ hx', hread⟩

/-- A list with one unreadable item is unreadable. -/
theorem allSome_eq_none {α β : Type} {f : α → Option β} {xs : List α} {x : α} (hx : x ∈ xs)
    (h : f x = none) : allSome f xs = none := by
  induction xs with
  | nil => cases hx
  | cons y xs ih =>
    rw [allSome]
    obtain rfl | hx := List.mem_cons.mp hx
    · rw [h]
    · rw [ih hx]
      cases f y <;> rfl

/-! ## Values -/

mutual

/-- The tree of a value, with the members of every object in any order. -/
inductive Written : Json → Tree → Prop
  /-- the value is written as it is -/
  | plain (j : Json) : Written j j.tree
  | array {xs : List Json} {ts : List Tree} (h : WrittenItems xs ts) :
    Written (.array xs) (.array ts)
  | object {ms : List (String × Json)} {ts us : List (Literal × Tree)} (h : WrittenMembers ms ts)
    (hp : us.Perm ts) : Written (.object ms) (.object us)

/-- The trees of a list of values. -/
inductive WrittenItems : List Json → List Tree → Prop
  | nil : WrittenItems [] []
  | cons {x : Json} {t : Tree} {xs : List Json} {ts : List Tree} (h : Written x t)
    (hrest : WrittenItems xs ts) : WrittenItems (x :: xs) (t :: ts)

/-- The trees of a list of members. -/
inductive WrittenMembers : List (String × Json) → List (Literal × Tree) → Prop
  | nil : WrittenMembers [] []
  | cons {k : String} {x : Json} {t : Tree} {ms : List (String × Json)} {ts : List (Literal × Tree)}
    (h : Written x t) (hrest : WrittenMembers ms ts) :
    WrittenMembers ((k, x) :: ms) ((Literal.ofString k, t) :: ts)

end

mutual

/-- An encoding of a value is a tree that some text spells, by induction over how it encodes it. -/
theorem proper_of_written : ∀ {j : Json} {t : Tree}, Written j t → t.Proper
  | _, _, .plain j => proper_tree j
  | _, _, .array h => .array (proper_of_writtenItems h)
  | _, _, .object h hp =>
    .object (fun m hm => (proper_of_writtenMembers h m (hp.mem_iff.mp hm)).1)
      fun m hm => (proper_of_writtenMembers h m (hp.mem_iff.mp hm)).2

theorem proper_of_writtenItems : ∀ {xs : List Json} {ts : List Tree}, WrittenItems xs ts →
    ∀ t ∈ ts, t.Proper
  | _, _, .nil => nofun
  | _, _, .cons h hrest =>
    List.forall_mem_cons.mpr ⟨proper_of_written h, proper_of_writtenItems hrest⟩

/-- Members bring their names with them, and these may be spelled in any way as well. -/
theorem proper_of_writtenMembers : ∀ {ms : List (String × Json)} {ts : List (Literal × Tree)},
    WrittenMembers ms ts → ∀ m ∈ ts, m.1.Proper ∧ m.2.Proper
  | _, _, .nil => nofun
  | (k, _) :: _, _, .cons h hrest => List.forall_mem_cons.mpr
    ⟨⟨Literal.proper_ofString k, proper_of_written h⟩, proper_of_writtenMembers hrest⟩

end

namespace Tree

/-- The name and the value of a member. -/
def member? (room : Nat) (m : Literal × Tree) : Option (String × Json) :=
  match m.1.decode?, value? room m.2 with
  | some name, some v => some (name, v)
  | _, _ => none

/-- The members of an object are read first and bound then. -/
theorem valueMembers?_eq (room : Nat) (ms : List (Literal × Tree)) (bound : List (String × Json)) :
    valueMembers? room bound ms = (allSome (member? room) ms).map fun pairs => bindAll pairs bound := by
  induction ms generalizing bound with
  | nil => rfl
  | cons m ms ih =>
    obtain ⟨k, x⟩ := m
    rw [valueMembers?, allSome, member?]
    cases hk : k.decode? with
    | none => rfl
    | some name =>
      cases hv : value? room x with
      | none => rfl
      | some v =>
        simp only [ih]
        cases allSome (member? room) ms <;> rfl

mutual

/-- **The order of members does not matter**: a value is read back from its tree, whatever the order
of the members of the objects in it, unless it nests too deeply. -/
theorem value?_of_written {room : Nat} : ∀ {j : Json} {t : Tree}, Written j t → j.Canonical →
    j.tree.depth ≤ room → ReadBack j.reals → value? room t = some j
  | _, _, .plain j, hc, hdepth, hreals => value?_tree room j hc hdepth hreals
  | _, _, .array h, hc, hdepth, hreals => by
    cases hc with
    | array hc =>
      cases room with
      | zero => exact absurd hdepth (Nat.not_succ_le_zero _)
      | succ room =>
        rw [value?, valueItems?_of_written h hc (depth_tree_array.mp hdepth) hreals]
        rfl
  | _, _, .object h hp, hc, hdepth, hreals => by
    cases hc with
    | object hascending hc =>
      cases room with
      | zero => exact absurd hdepth (Nat.not_succ_le_zero _)
      | succ room =>
        have hmembers := allSome_member?_of_written h hc (depth_tree_object.mp hdepth) hreals
        obtain ⟨pairs, hpairs, hperm⟩ := allSome_of_perm hp hmembers
        rw [value?, valueMembers?_eq, hpairs, Option.map_some, bindAll_of_perm hperm hascending]
        rfl

/-- Encodings of items are read as the items, if each of them nests no more deeply than there is
room. -/
theorem valueItems?_of_written {room : Nat} : ∀ {xs : List Json} {ts : List Tree},
    WrittenItems xs ts → (∀ x ∈ xs, x.Canonical) → (∀ x ∈ xs, x.tree.depth ≤ room) →
      ReadBack (realsItems xs) → valueItems? room ts = some xs
  | _, _, .nil, _, _, _ => rfl
  | _, _, .cons h hrest, hc, hdepth, hreals => by
    obtain ⟨hcx, hcs⟩ := List.forall_mem_cons.mp hc
    obtain ⟨hdx, hds⟩ := List.forall_mem_cons.mp hdepth
    obtain ⟨hrx, hrs⟩ := readBack_append.mp hreals
    rw [valueItems?, value?_of_written h hcx hdx hrx, valueItems?_of_written hrest hcs hds hrs]
    rfl

/-- Encodings of members are read as the members, in the order in which they stand. -/
theorem allSome_member?_of_written {room : Nat} : ∀ {ms : List (String × Json)}
    {ts : List (Literal × Tree)}, WrittenMembers ms ts → (∀ m ∈ ms, m.2.Canonical) →
      (∀ m ∈ ms, m.2.tree.depth ≤ room) → ReadBack (realsMembers ms) →
        allSome (member? room) ts = some ms
  | _, _, .nil, _, _, _ => rfl
  | _, _, .cons h hrest, hc, hdepth, hreals => by
    obtain ⟨hcx, hcs⟩ := List.forall_mem_cons.mp hc
    obtain ⟨hdx, hds⟩ := List.forall_mem_cons.mp hdepth
    obtain ⟨hrx, hrs⟩ := readBack_append.mp hreals
    rw [allSome, member?, Literal.decode?_ofString, value?_of_written h hcx hdx hrx,
      allSome_member?_of_written hrest hcs hds hrs]
    rfl

end

/-! ## Lists and maps -/

section Containers

variable {α : Type} {room : Nat}

/-- The array of a list, each item in one of its forms. -/
def WrittenList (form : α → Tree → Prop) (xs : List α) (t : Tree) : Prop :=
  ∃ ts, List.Forall₂ form xs ts ∧ t = array ts

/-- The member that is written for a named value, the value in one of its forms. -/
def Entry (form : α → Tree → Prop) (e : String × α) (u : Literal × Tree) : Prop :=
  u.1 = Literal.ofString e.1 ∧ form e.2 u.2

/-- The object of a map, its members in any order and each value in one of its forms. -/
def WrittenMap (form : α → Tree → Prop) (m : NameMap α) (t : Tree) : Prop :=
  ∃ ts us, List.Forall₂ (Entry form) m.entries ts ∧ us.Perm ts ∧ t = object us

/-- If every item is written as one of its encodings, so is the list of them. -/
theorem writtenList_array {form : α → Tree → Prop} {write : α → Tree} (xs : List α)
    (h : ∀ x, form x (write x)) : WrittenList form xs (array (xs.map write)) := by
  refine ⟨xs.map write, ?_, rfl⟩
  rw [List.forall₂_map_right_iff, List.forall₂_same]
  exact fun x _ => h x

/-- So is a map of them. -/
theorem writtenMap_ofMembers {form : α → Tree → Prop} {write : α → Tree} (m : NameMap α)
    (h : ∀ x, form x (write x)) :
    WrittenMap form m (ofMembers (m.entries.map fun e => (e.1, write e.2))) := by
  refine ⟨_, _, ?_, .refl _, rfl⟩
  rw [List.map_map, List.forall₂_map_right_iff, List.forall₂_same]
  exact fun e _ => ⟨rfl, h e.2⟩

theorem proper_of_writtenList {form : α → Tree → Prop} {xs : List α} {t : Tree}
    (h : WrittenList form xs t) (hform : ∀ x t, form x t → t.Proper) : t.Proper := by
  obtain ⟨ts, hts, rfl⟩ := h
  exact .array (forall_of_forall₂ hts hform)

/-- A map of trees that texts spell is such a tree, and so is a list of them. -/
theorem proper_of_writtenMap {form : α → Tree → Prop} {m : NameMap α} {t : Tree}
    (h : WrittenMap form m t) (hform : ∀ x t, form x t → t.Proper) : t.Proper := by
  obtain ⟨ts, us, hts, hp, rfl⟩ := h
  have hall : ∀ u ∈ ts, u.1.Proper ∧ u.2.Proper := by
    refine forall_of_forall₂ hts ?_
    rintro e ⟨k, t⟩ ⟨rfl, ht⟩
    exact ⟨Literal.proper_ofString e.1, hform e.2 t ht⟩
  exact .object (fun u hu => (hall u (hp.mem_iff.mp hu)).1) fun u hu => (hall u (hp.mem_iff.mp hu)).2

/-- A list is read item by item. -/
theorem list?_of_writtenList {form : α → Tree → Prop} {item : Nat → Tree → Option α} {xs : List α}
    {t : Tree} (h : WrittenList form xs t)
    (hitem : ∀ x ∈ xs, ∀ t, form x t → item room t = some x) :
    list? item (room + 1) t = some xs := by
  obtain ⟨ts, hts, rfl⟩ := h
  exact allSome_of_forall₂ hts hitem

/-- The members that encode the entries of a map have the names of these, and values that encode
their values. -/
theorem named?_of_entries {form : α → Tree → Prop} {entries : List (String × α)}
    {ts : List (Literal × Tree)} (h : List.Forall₂ (Entry form) entries ts) :
    ∃ named, named? ts = some named ∧
      List.Forall₂ (fun e n => n.1 = e.1 ∧ form e.2 n.2) entries named := by
  induction h with
  | nil => exact ⟨[], rfl, .nil⟩
  | @cons e u _ _ he _ ih =>
    obtain ⟨named, hnamed, hforms⟩ := ih
    rw [named?] at hnamed
    refine ⟨(e.1, u.2) :: named, ?_, .cons ⟨rfl, he.2⟩ hforms⟩
    rw [named?, allSome, he.1, Literal.decode?_ofString, hnamed]
    rfl

/-- A map is read value by value. -/
theorem map?_of_writtenMap {form : α → Tree → Prop} {item : Nat → Tree → Option α} {m : NameMap α}
    {t : Tree} (h : WrittenMap form m t)
    (hitem : ∀ e ∈ m.entries, ∀ t, form e.2 t → item room t = some e.2) :
    map? item (room + 1) t = some m := by
  obtain ⟨ts, us, hts, hp, rfl⟩ := h
  obtain ⟨named, hnamed, hforms⟩ := named?_of_entries hts
  have hitems : allSome (fun n => (item room n.2).map fun x => (n.1, x)) named = some m.entries := by
    refine allSome_of_forall₂ hforms ?_
    rintro e he ⟨k, t⟩ ⟨rfl, ht⟩
    rw [hitem e he t ht]
    rfl
  -- names and values are read in two passes over the same members
  obtain ⟨named', hnamed', hperm⟩ := allSome_of_perm hp hnamed
  obtain ⟨pairs, hpairs, hentries⟩ := allSome_of_perm hperm hitems
  rw [map?, named?, hnamed', Option.bind_eq_bind, Option.bind_some, hpairs]
  exact congrArg some (NameMap.ofList_of_perm hentries)

end Containers

end Tree

end Json

end InferenceEngine
