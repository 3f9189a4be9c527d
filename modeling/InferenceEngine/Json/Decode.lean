import InferenceEngine.Json.Reader
import InferenceEngine.Json.Value

/-!
# Reading values out of a tree

Readers of the shapes a document is made of. A reader that opens an array or an object is given
the number of levels it may still open, so a document is refused when what is *read* nests too
deeply, while members that nobody reads may nest as they like.

A record may be written as an object, whose unknown members are left out of account and whose known
members must not repeat, or as the array of its fields in order, whose trailing fields may be
missing. `Tree.fields?` covers both and gives one slot a field.
-/

namespace InferenceEngine.Json

/-- The number of arrays and objects that may be open at a time. -/
def nestingLimit : Nat := 127

/-- All the results, if there is a result for every element. -/
def allSome {α β : Type} (f : α → Option β) : List α → Option (List β)
  | [] => some []
  | x :: xs =>
    match f x with
    | none => none
    | some y => (allSome f xs).map (y :: ·)

namespace Tree

/-- The string a tree denotes. -/
def text? : Tree → Option String
  | string l => l.decode?
  | _ => none

/-- The truth value a tree denotes. -/
def flag? : Tree → Option Bool
  | bool b => some b
  | _ => none

/-- The 64-bit natural number a tree denotes. -/
def count? : Tree → Option UInt64
  | number n => n.count?
  | _ => none

/-- The list an array denotes, with a reader for its items. -/
def list? {α : Type} (item : Nat → Tree → Option α) : Nat → Tree → Option (List α)
  | room + 1, array xs => allSome (item room) xs
  | _, _ => none

/-- The strings an array denotes. -/
def texts? : Nat → Tree → Option (List String) := list? fun _ => text?

/-- The members of an object with their names read. -/
def named? : List (Literal × Tree) → Option (List (String × Tree)) :=
  allSome fun m => m.1.decode?.map fun k => (k, m.2)

/-- The map an object denotes, with a reader for its values. The last of a repeated name counts,
but every value has to be readable. -/
def map? {α : Type} (item : Nat → Tree → Option α) : Nat → Tree → Option (NameMap α)
  | room + 1, object ms => do
    let named ← named? ms
    let pairs ← allSome (fun m => (item room m.2).map fun x => (m.1, x)) named
    return NameMap.ofList pairs
  | _, _ => none

/-- The slots of a record with the given field names: for each the tree that is written for it. -/
def fields? (names : List String) : Tree → Option (List (Option Tree))
  | array xs =>
    if xs.length ≤ names.length then
      some (xs.map some ++ List.replicate (names.length - xs.length) none)
    else none
  | object ms => do
    let named ← named? ms
    let known := named.filter fun m => names.contains m.1
    if (known.map (·.1)).Nodup then
      return names.map fun name => known.lookup name
    else none
  | _ => none

/-- The value of a slot that has to be filled. -/
def required? {α : Type} (item : Tree → Option α) : Option Tree → Option α
  | none => none
  | some t => item t

/-- The value of a slot that may be left empty. -/
def optional? {α : Type} (default : α) (item : Tree → Option α) : Option Tree → Option α
  | none => some default
  | some t => item t

/-! ## Values of any shape -/

mutual

/-- The value a tree denotes. -/
def value? (room : Nat) : Tree → Option Json
  | null => some .null
  | bool b => some (.bool b)
  | number n => n.number?.map .number
  | string l => l.decode?.map .string
  | array xs =>
    match room with
    | 0 => none
    | room + 1 => (valueItems? room xs).map .array
  | object ms =>
    match room with
    | 0 => none
    | room + 1 => (valueMembers? room [] ms).map .object

/-- The values of the items of an array. -/
def valueItems? (room : Nat) : List Tree → Option (List Json)
  | [] => some []
  | x :: xs =>
    match value? room x with
    | none => none
    | some v => (valueItems? room xs).map (v :: ·)

/-- The members of an object, bound one after the other on top of `bound`. -/
def valueMembers? (room : Nat) (bound : List (String × Json)) :
    List (Literal × Tree) → Option (List (String × Json))
  | [] => some bound
  | (k, x) :: ms =>
    match k.decode?, value? room x with
    | some name, some v => valueMembers? room (bindName name v bound) ms
    | _, _ => none

end

mutual

/-- What a tree denotes is canonical. -/
theorem canonical_value? (room : Nat) : ∀ (t : Tree) (j : Json), value? room t = some j →
    j.Canonical
  | null, j, h => by simp [value?] at h; subst h; exact .null
  | bool b, j, h => by simp [value?] at h; subst h; exact .bool b
  | number n, j, h => by
    simp only [value?, Option.map_eq_some_iff] at h
    obtain ⟨x, -, rfl⟩ := h
    exact .number x
  | string l, j, h => by
    simp only [value?, Option.map_eq_some_iff] at h
    obtain ⟨x, -, rfl⟩ := h
    exact .string x
  | array xs, j, h => by
    cases room with
    | zero => simp [value?] at h
    | succ room =>
      simp only [value?, Option.map_eq_some_iff] at h
      obtain ⟨ys, hy, rfl⟩ := h
      exact .array (canonical_valueItems? room xs ys hy)
  | object ms, j, h => by
    cases room with
    | zero => simp [value?] at h
    | succ room =>
      simp only [value?, Option.map_eq_some_iff] at h
      obtain ⟨ys, hy, rfl⟩ := h
      -- no member is bound yet, and of no member everything holds
      have := canonical_valueMembers? room ms [] ys hy List.Pairwise.nil (by simp)
      exact .object this.1 this.2

/-- What the items of an array denote is canonical. -/
theorem canonical_valueItems? (room : Nat) : ∀ (xs : List Tree) (ys : List Json),
    valueItems? room xs = some ys → ∀ y ∈ ys, y.Canonical
  | [], ys, h => by simp [valueItems?] at h; subst h; simp
  | x :: xs, ys, h => by
    simp only [valueItems?] at h
    split at h
    · cases h
    · rename_i v hv
      simp only [Option.map_eq_some_iff] at h
      obtain ⟨zs, hz, rfl⟩ := h
      intro y hy
      rcases List.mem_cons.1 hy with rfl | hy
      · exact canonical_value? room x _ hv
      · exact canonical_valueItems? room xs zs hz y hy

/-- Binding members keeps an object canonical. -/
theorem canonical_valueMembers? (room : Nat) : ∀ (ms : List (Literal × Tree))
    (bound ys : List (String × Json)), valueMembers? room bound ms = some ys → Ascending bound →
    (∀ m ∈ bound, m.2.Canonical) → Ascending ys ∧ ∀ m ∈ ys, m.2.Canonical
  | [], bound, ys, h, ha, hc => by simp [valueMembers?] at h; subst h; exact ⟨ha, hc⟩
  | (k, x) :: ms, bound, ys, h, ha, hc => by
    simp only [valueMembers?] at h
    split at h
    · rename_i name v hk hv
      refine canonical_valueMembers? room ms _ ys h (ascending_bindName ha) ?_
      intro m hm
      rcases mem_bindName hm with rfl | hm
      · exact canonical_value? room x _ hv
      · exact hc m hm
    · cases h

end

end Tree

/-- The value of a text, as a document of its own. -/
def ofText? (text : String) : Option Json := (Tree.ofText? text).bind (Tree.value? nestingLimit)

end InferenceEngine.Json
