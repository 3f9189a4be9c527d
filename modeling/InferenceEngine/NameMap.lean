/-!
# Maps from names, in ascending order

A `NameMap` is a list of named values with strictly ascending names. Names ascend by code points,
which is the order of their UTF-8 bytes. Two maps with the same bindings are equal, whatever the
order in which they were built.
-/

namespace InferenceEngine

/-- The names of `entries` strictly ascend. -/
abbrev Ascending {α : Type} (entries : List (String × α)) : Prop :=
  entries.Pairwise fun a b => a.1 < b.1

/-- A finite map from names, listed in ascending order. -/
structure NameMap (α : Type) where
  /-- the bindings -/
  entries : List (String × α)
  /-- names strictly ascend -/
  ascending : Ascending entries
deriving DecidableEq

/-- Binds `name` in an ascending list, replacing an earlier binding. -/
def bindName {α : Type} (name : String) (value : α) : List (String × α) → List (String × α)
  | [] => [(name, value)]
  | (k, v) :: rest =>
    if name = k then (name, value) :: rest
    else if name < k then (name, value) :: (k, v) :: rest
    else (k, v) :: bindName name value rest

/-- Nothing is listed but the new binding and earlier ones. -/
theorem mem_bindName {α : Type} {name : String} {value : α} {entries : List (String × α)}
    {e : String × α} (h : e ∈ bindName name value entries) : e = (name, value) ∨ e ∈ entries := by
  induction entries with
  | nil => simpa [bindName] using h
  | cons b rest ih =>
    obtain ⟨k, v⟩ := b
    simp only [bindName] at h
    split at h
    · simp only [List.mem_cons] at h ⊢
      rcases h with h | h <;> simp [h]
    · split at h
      · simpa using h
      · simp only [List.mem_cons] at h ⊢
        rcases h with h | h
        · simp [h]
        · rcases ih h with h | h <;> simp [h]

/-- The new binding is put where its name belongs, so names go on ascending. -/
theorem ascending_bindName {α : Type} {name : String} {value : α} {entries : List (String × α)}
    (h : Ascending entries) : Ascending (bindName name value entries) := by
  induction entries with
  | nil => simp [bindName, Ascending]
  | cons b rest ih =>
    obtain ⟨k, v⟩ := b
    simp only [Ascending, List.pairwise_cons] at h
    simp only [bindName]
    split
    · rename_i e
      subst e
      exact List.pairwise_cons.2 h
    · split
      · rename_i lt
        refine List.pairwise_cons.2 ⟨?_, List.pairwise_cons.2 h⟩
        intro e he
        rcases List.mem_cons.1 he with rfl | he
        · exact lt
        · exact String.lt_trans lt (h.1 e he)
      · rename_i ne nlt
        -- the name belongs behind `k`: it is neither `k` nor before it
        refine List.pairwise_cons.2 ⟨?_, ih h.2⟩
        intro e he
        rcases mem_bindName he with rfl | he
        · exact Decidable.byContradiction fun h' =>
            ne (String.le_antisymm (String.not_lt.1 h') (String.not_lt.1 nlt))
        · exact h.1 e he

namespace NameMap

variable {α : Type}

/-- The map without bindings. -/
def empty : NameMap α := ⟨[], List.Pairwise.nil⟩

/-- Binds a name, replacing an earlier binding. -/
def insert (m : NameMap α) (name : String) (value : α) : NameMap α :=
  ⟨bindName name value m.entries, ascending_bindName m.ascending⟩

/-- Binds the pairs of a list one after the other, so the last of a repeated name stays. -/
def ofList (pairs : List (String × α)) : NameMap α :=
  pairs.foldl (fun m p => m.insert p.1 p.2) empty

/-- The value bound to a name. -/
def get? (m : NameMap α) (name : String) : Option α := m.entries.lookup name

theorem lookup_eq_some_iff {entries : List (String × α)} (h : Ascending entries) {name : String}
    {value : α} : entries.lookup name = some value ↔ (name, value) ∈ entries := by
  induction entries with
  | nil => simp
  | cons e rest ih =>
    obtain ⟨k, v⟩ := e
    simp only [Ascending, List.pairwise_cons] at h
    rw [List.lookup_cons, List.mem_cons]
    by_cases hk : name = k
    · subst hk
      have hrest : (name, value) ∉ rest := fun hm => String.lt_irrefl name (h.1 _ hm)
      simp [hrest, eq_comm]
    · rw [beq_false_of_ne hk]
      simpa [hk] using ih h.2

/-- A name stands for the value it is listed with. -/
theorem get?_eq_some_iff {m : NameMap α} {name : String} {value : α} :
    m.get? name = some value ↔ (name, value) ∈ m.entries :=
  lookup_eq_some_iff m.ascending

/-- The number of bindings. -/
def size (m : NameMap α) : Nat := m.entries.length

/-- There are no bindings. -/
def isEmpty (m : NameMap α) : Bool := m.entries.isEmpty

/-- The names, ascending. -/
def names (m : NameMap α) : List String := m.entries.map (·.1)

/-- The values, in the order of their names. -/
def values (m : NameMap α) : List α := m.entries.map (·.2)

end NameMap

end InferenceEngine
