import InferenceEngine.Json.Decode
import InferenceEngine.Proofs.Printing

/-!
# What is written is meant

A value is written as a tree, and `Tree.value?` gives back what a tree denotes. The two directions
agree for canonical values (`Tree.value?_tree`), with one proviso each way:

* a tree may nest more deeply than its reader allows; `Tree.depth` counts the arrays and objects
  that are open at a time, and what has been read never nests too deeply (`Tree.depth_of_value?`),
* the literal of a double need not be read as that double; `Json.reals` lists the doubles of a value
  for which it has to.

Lists, maps and records are read back from what they are written as, too (`Tree.list?_array`,
`Tree.map?_ofMembers`, `Tree.fields?_ofMembers`).
-/

namespace InferenceEngine

namespace Json

/-! ## Strings -/

namespace Literal

/-- A unit outside the surrogates denotes the character of its number. -/
theorem decodeChars?_unit {code : Nat} (hhigh : isHigh code = false) (hlow : isLow code = false)
    (l : Literal) :
    decodeChars? (.unit code :: l) = (decodeChars? l).map (Char.ofNat code :: ·) := by
  rw [decodeChars?.eq_def (.unit code :: l)]
  simp only [hhigh, hlow]
  rfl

/-- A character that is written as a glyph is read back, in whichever of the ways it is written. -/
theorem decodeChars?_ofChar (c : Char) (l : Literal) :
    decodeChars? (Glyph.ofChar c :: l) = (decodeChars? l).map (c :: ·) := by
  rcases Glyph.ofChar_cases c with ⟨letter, h, hm⟩ | ⟨hlt, h⟩ | ⟨-, -, -, h⟩
  · rw [h, decodeChars?, hm]
    cases decodeChars? l <;> rfl
  · have hhigh : isHigh c.toNat = false := by
      simp [isHigh]
      omega
    have hlow : isLow c.toNat = false := by
      simp [isLow]
      omega
    rw [h, decodeChars?_unit hhigh hlow, Char.ofNat_toNat]
  · rw [h, decodeChars?]

/-- The literal of a string denotes it. -/
theorem decode?_ofString (s : String) : (ofString s).decode? = some s := by
  have hchars (cs : List Char) : decodeChars? (cs.map Glyph.ofChar) = some cs := by
    induction cs with
    | nil => rfl
    | cons c cs ih =>
      rw [List.map_cons, decodeChars?_ofChar, ih]
      rfl
  rw [decode?, ofString, hchars, Option.map_some, String.ofList_toList]

end Literal

end Json

/-! ## Names -/

/-- A name above all others is bound behind them. -/
theorem bindName_of_lt {α : Type} {name : String} {value : α} {entries : List (String × α)}
    (h : ∀ e ∈ entries, e.1 < name) : bindName name value entries = entries ++ [(name, value)] := by
  induction entries with
  | nil => rfl
  | cons e rest ih =>
    obtain ⟨k, v⟩ := e
    have hk : k < name := h _ List.mem_cons_self
    rw [bindName, if_neg (String.ne_of_lt hk).symm, if_neg (String.lt_asymm hk),
      ih fun e he => h e (List.mem_cons_of_mem _ he), List.cons_append]

namespace NameMap

variable {α : Type}

/-- Names that ascend behind those of a map are bound one behind the other. -/
theorem entries_foldl_insert (rest : List (String × α)) (bound : NameMap α)
    (h : Ascending (bound.entries ++ rest)) :
    (rest.foldl (fun m e => m.insert e.1 e.2) bound).entries = bound.entries ++ rest := by
  induction rest generalizing bound with
  | nil => exact (List.append_nil _).symm
  | cons e rest ih =>
    have hlast : ∀ b ∈ bound.entries, b.1 < e.1 := fun b hb =>
      (List.pairwise_append.mp h).2.2 b hb e List.mem_cons_self
    have hinsert : (bound.insert e.1 e.2).entries ++ rest = bound.entries ++ e :: rest := by
      change bindName e.1 e.2 bound.entries ++ rest = _
      rw [bindName_of_lt hlast, List.append_assoc, List.singleton_append]
    rw [List.foldl_cons, ih _ (hinsert ▸ h), hinsert]

/-- Binding the entries of a map one behind the other builds the map. -/
theorem ofList_entries (m : NameMap α) : ofList m.entries = m := by
  have hentries : (ofList m.entries).entries = m.entries :=
    entries_foldl_insert m.entries empty m.ascending
  generalize ofList m.entries = m' at hentries
  cases m'
  cases m
  cases hentries
  rfl

end NameMap

/-- If names do not repeat, every entry is found under its name. -/
theorem lookup_of_mem {α : Type} {entries : List (String × α)} (h : (entries.map (·.1)).Nodup)
    {e : String × α} (he : e ∈ entries) : entries.lookup e.1 = some e.2 := by
  induction entries with
  | nil => cases he
  | cons b rest ih =>
    obtain ⟨hb, hrest⟩ := List.nodup_cons.mp h
    obtain rfl | he := List.mem_cons.mp he
    · exact List.lookup_cons_self
    · have hne : e.1 ≠ b.1 := fun heq =>
        hb (List.mem_map.mpr ⟨e, he, heq⟩)
      rw [List.lookup_cons, beq_false_of_ne hne]
      exact ih hrest he

/-! ## Numbers -/

namespace Numeral

open Json

/-- The number that the literal of an integer spells, with its sign. -/
theorem signed_value_ofInt (n : Int) :
    (if (ofInt n).negative then -(Digits.value (ofInt n).whole : Int)
      else Digits.value (ofInt n).whole) = n := by
  rw [ofInt, Digits.value_ofNat]
  by_cases h : n < 0
  · rw [decide_eq_true h, if_pos rfl]
    omega
  · rw [decide_eq_false h, if_neg Bool.false_ne_true]
    omega

/-- The literal of an integer denotes it. -/
theorem number?_ofInt {n : Int} (fits : FitsWord n) :
    (ofInt n).number? = some (.integer n fits) := by
  have hzero : ¬ ((ofInt n).negative = true ∧ n = 0) := by
    rintro ⟨hneg, rfl⟩
    cases hneg
  have hwhole : (ofInt n).isWhole = true := rfl
  simp only [number?, signed_value_ofInt]
  exact dif_pos ⟨hwhole, hzero, fits⟩

/-- The literal of a 64-bit word denotes it. -/
theorem count?_ofInt (x : UInt64) : (ofInt x.toNat).count? = some x := by
  have hvalue : Digits.value (ofInt x.toNat).whole = x.toNat := Digits.value_ofNat _
  have hneg : ¬ (ofInt x.toNat).negative = true := by
    simp [ofInt]
  rw [count?, hvalue, if_pos ⟨rfl, hneg, x.toNat_lt⟩, UInt64.ofNat_toNat]

end Numeral

namespace Json

/-- The literal of a number denotes it, if that of a double is read as that double. -/
theorem Number.number?_numeral (n : Number)
    (h : ∀ x finite, n = .real x finite → (numeralOfDouble x).double? = some x) :
    n.numeral.number? = some n := by
  cases n with
  | integer n fits => exact Numeral.number?_ofInt fits
  | real x finite =>
    have hwhole : (numeralOfDouble x).isWhole = false := (Binary.Style.numeral_spec _ _ _).2
    have hreal := h x finite rfl
    rw [numeral, Numeral.number?, hreal,
      dif_neg fun hint => Bool.false_ne_true (hwhole.symm.trans hint.1)]
    exact dif_pos finite

/-! ## Nesting -/

namespace Tree

mutual

/-- The greatest number of arrays and objects that are open at a time. -/
def depth : Tree → Nat
  | null | bool _ | number _ | string _ => 0
  | array xs => depthItems xs + 1
  | object ms => depthMembers ms + 1

/-- The greatest depth of a list of items. -/
def depthItems : List Tree → Nat
  | [] => 0
  | x :: xs => max (depth x) (depthItems xs)

/-- The greatest depth of a list of members. -/
def depthMembers : List (Literal × Tree) → Nat
  | [] => 0
  | (_, x) :: ms => max (depth x) (depthMembers ms)

end

/-- A list of trees is as deep as the deepest of them, -/
theorem depthItems_le_iff {xs : List Tree} {n : Nat} :
    depthItems xs ≤ n ↔ ∀ x ∈ xs, x.depth ≤ n := by
  induction xs with
  | nil => exact ⟨fun _ => nofun, fun _ => Nat.zero_le n⟩
  | cons x xs ih => rw [depthItems, Nat.max_le, ih, List.forall_mem_cons]

/-- and so is a list of members. -/
theorem depthMembers_le_iff {ms : List (Literal × Tree)} {n : Nat} :
    depthMembers ms ≤ n ↔ ∀ m ∈ ms, m.2.depth ≤ n := by
  induction ms with
  | nil => exact ⟨fun _ => nofun, fun _ => Nat.zero_le n⟩
  | cons m ms ih =>
    obtain ⟨k, x⟩ := m
    rw [depthMembers, Nat.max_le, ih, List.forall_mem_cons]

/-- An array adds one level to its items, -/
theorem depth_array_le_iff {xs : List Tree} {n : Nat} :
    (array xs).depth ≤ n + 1 ↔ ∀ x ∈ xs, x.depth ≤ n := by
  rw [depth, Nat.add_le_add_iff_right, depthItems_le_iff]

/-- and an object adds one to the values of its members. -/
theorem depth_ofMembers_le_iff {ms : List (String × Tree)} {n : Nat} :
    (ofMembers ms).depth ≤ n + 1 ↔ ∀ m ∈ ms, m.2.depth ≤ n := by
  rw [ofMembers, depth, Nat.add_le_add_iff_right, depthMembers_le_iff, List.forall_mem_map]

/-- An array needs a level for itself. -/
theorem exists_room_of_array {xs : List Tree} {room : Nat} (h : (array xs).depth ≤ room) :
    ∃ inner, room = inner + 1 ∧ ∀ x ∈ xs, x.depth ≤ inner := by
  cases room with
  | zero => exact absurd h (Nat.not_succ_le_zero _)
  | succ inner => exact ⟨inner, rfl, depth_array_le_iff.mp h⟩

/-- An object needs a level for itself. -/
theorem exists_room_of_ofMembers {ms : List (String × Tree)} {room : Nat}
    (h : (ofMembers ms).depth ≤ room) :
    ∃ inner, room = inner + 1 ∧ ∀ m ∈ ms, m.2.depth ≤ inner := by
  cases room with
  | zero => exact absurd h (Nat.not_succ_le_zero _)
  | succ inner => exact ⟨inner, rfl, depth_ofMembers_le_iff.mp h⟩

@[simp] theorem depth_ofString (s : String) : (ofString s).depth = 0 := rfl

@[simp] theorem depth_ofNat (n : Nat) : (ofNat n).depth = 0 := rfl

@[simp] theorem depth_ofStrings_le (xs : List String) (n : Nat) : (ofStrings xs).depth ≤ n + 1 := by
  rw [ofStrings, depth_array_le_iff, List.forall_mem_map]
  exact fun s _ => Nat.zero_le n

end Tree

/-! ## Values -/

/-- Items are written one by one. -/
theorem treeItems_eq_map (xs : List Json) : treeItems xs = xs.map tree := by
  induction xs with
  | nil => rfl
  | cons x xs ih => rw [treeItems, ih, List.map_cons]

theorem treeMembers_eq_map (ms : List (String × Json)) :
    treeMembers ms = ms.map fun m => (Literal.ofString m.1, m.2.tree) := by
  induction ms with
  | nil => rfl
  | cons m ms ih =>
    obtain ⟨k, x⟩ := m
    rw [treeMembers, ih, List.map_cons]

/-- So the depth of a list that is written is one more than that of its deepest item. -/
theorem depth_tree_array {xs : List Json} {n : Nat} :
    (tree (.array xs)).depth ≤ n + 1 ↔ ∀ x ∈ xs, x.tree.depth ≤ n := by
  rw [tree, treeItems_eq_map, Tree.depth_array_le_iff, List.forall_mem_map]

theorem depth_tree_object {ms : List (String × Json)} {n : Nat} :
    (tree (.object ms)).depth ≤ n + 1 ↔ ∀ m ∈ ms, m.2.tree.depth ≤ n := by
  rw [tree, treeMembers_eq_map, Tree.depth, Nat.add_le_add_iff_right, Tree.depthMembers_le_iff,
    List.forall_mem_map]

mutual

/-- The doubles that occur in a value. -/
def reals : Json → List Double
  | .number (.real x _) => [x]
  | .null | .bool _ | .number (.integer _ _) | .string _ => []
  | .array xs => realsItems xs
  | .object ms => realsMembers ms

/-- The doubles that occur in a list of values. -/
def realsItems : List Json → List Double
  | [] => []
  | x :: xs => reals x ++ realsItems xs

/-- The doubles that occur in a list of members. -/
def realsMembers : List (String × Json) → List Double
  | [] => []
  | (_, x) :: ms => reals x ++ realsMembers ms

end

/-- The literals of doubles are read as these doubles. -/
def ReadBack (xs : List Double) : Prop := ∀ x ∈ xs, (Number.numeralOfDouble x).double? = some x

/-- Doubles are read back together just if each part of them is. -/
theorem readBack_append {xs ys : List Double} :
    ReadBack (xs ++ ys) ↔ ReadBack xs ∧ ReadBack ys := List.forall_mem_append

mutual

/-- Whatever value is written, its tree is one that a text spells. -/
theorem proper_tree : ∀ j : Json, j.tree.Proper
  | .null => .null
  | .bool b => .bool b
  | .number n => .number n.proper_numeral
  | .string s => Tree.proper_ofString s
  | .array xs => .array (proper_treeItems xs)
  | .object ms => .object (fun m hm => (proper_treeMembers ms m hm).1)
    fun m hm => (proper_treeMembers ms m hm).2

theorem proper_treeItems : ∀ xs : List Json, ∀ x ∈ treeItems xs, x.Proper
  | [] => nofun
  | x :: xs => List.forall_mem_cons.mpr ⟨proper_tree x, proper_treeItems xs⟩

/-- Names are texts, so nothing is asked of them. -/
theorem proper_treeMembers : ∀ ms : List (String × Json), ∀ m ∈ treeMembers ms,
    m.1.Proper ∧ m.2.Proper
  | [] => nofun
  | (k, x) :: ms => List.forall_mem_cons.mpr
    ⟨⟨Literal.proper_ofString k, proper_tree x⟩, proper_treeMembers ms⟩

end

namespace Tree

mutual

/-- **The tree of a value denotes it**, unless it nests too deeply. -/
theorem value?_tree (room : Nat) : ∀ j : Json, j.Canonical → j.tree.depth ≤ room →
    ReadBack j.reals → value? room j.tree = some j
  | .null, _, _, _ => rfl
  | .bool b, _, _, _ => rfl
  | .number n, _, _, hreals => by
    have hnumber := n.number?_numeral fun x finite hn => by
      subst hn
      exact hreals x List.mem_cons_self
    rw [tree, value?, hnumber]
    rfl
  | .string s, _, _, _ => by
    rw [tree, ofString, value?, Literal.decode?_ofString]
    rfl
  | .array xs, hc, hdepth, hreals => by
    cases hc with
    | array hc =>
      cases room with
      | zero => exact absurd hdepth (Nat.not_succ_le_zero _)
      | succ room =>
        rw [tree, value?, valueItems?_tree room xs hc (depth_tree_array.mp hdepth) hreals]
        rfl
  | .object ms, hc, hdepth, hreals => by
    cases hc with
    | object hascending hc =>
      cases room with
      | zero => exact absurd hdepth (Nat.not_succ_le_zero _)
      | succ room =>
        -- one level less of nesting is left for what is inside
        have hinner := depth_tree_object.mp hdepth
        rw [tree, value?, valueMembers?_tree room ms [] hascending hc hinner hreals]
        rfl

/-- Items that are written are read back, with the same room for each of them. -/
theorem valueItems?_tree (room : Nat) : ∀ xs : List Json, (∀ x ∈ xs, x.Canonical) →
    (∀ x ∈ xs, x.tree.depth ≤ room) → ReadBack (realsItems xs) →
      valueItems? room (treeItems xs) = some xs
  | [], _, _, _ => rfl
  | x :: xs, hc, hdepth, hreals => by
    obtain ⟨hcx, hcs⟩ := List.forall_mem_cons.mp hc
    obtain ⟨hdx, hds⟩ := List.forall_mem_cons.mp hdepth
    obtain ⟨hrx, hrs⟩ := readBack_append.mp hreals
    rw [treeItems, valueItems?, value?_tree room x hcx hdx hrx, valueItems?_tree room xs hcs hds hrs]
    rfl

/-- Members whose names ascend are bound one behind the other. -/
theorem valueMembers?_tree (room : Nat) : ∀ (ms bound : List (String × Json)),
    Ascending (bound ++ ms) → (∀ m ∈ ms, m.2.Canonical) → (∀ m ∈ ms, m.2.tree.depth ≤ room) →
      ReadBack (realsMembers ms) → valueMembers? room bound (treeMembers ms) = some (bound ++ ms)
  | [], bound, _, _, _, _ => by
    rw [treeMembers, valueMembers?, List.append_nil]
  | (k, x) :: ms, bound, hascending, hc, hdepth, hreals => by
    obtain ⟨hcx, hcs⟩ := List.forall_mem_cons.mp hc
    obtain ⟨hdx, hds⟩ := List.forall_mem_cons.mp hdepth
    obtain ⟨hrx, hrs⟩ := readBack_append.mp hreals
    -- every name that is bound is before the next one, which is put at the end
    have hlast : ∀ e ∈ bound, e.1 < k := fun e he =>
      (List.pairwise_append.mp hascending).2.2 e he (k, x) List.mem_cons_self
    have hrest : bound ++ (k, x) :: ms = bound ++ [(k, x)] ++ ms := by simp
    rw [hrest] at hascending ⊢
    rw [treeMembers, valueMembers?, Literal.decode?_ofString, value?_tree room x hcx hdx hrx]
    dsimp only
    rw [bindName_of_lt hlast, valueMembers?_tree room ms _ hascending hcs hds hrs]

end

mutual

/-- **What has been read never nests too deeply** to be read again. -/
theorem depth_of_value? (room : Nat) : ∀ (t : Tree) (j : Json), value? room t = some j →
    j.tree.depth ≤ room
  | null, j, h => by
    obtain rfl : Json.null = j := Option.some.inj h
    exact Nat.zero_le room
  | bool b, j, h => by
    obtain rfl : Json.bool b = j := Option.some.inj h
    exact Nat.zero_le room
  | number n, j, h => by
    obtain ⟨x, -, rfl⟩ := Option.map_eq_some_iff.mp h
    exact Nat.zero_le room
  | string l, j, h => by
    obtain ⟨s, -, rfl⟩ := Option.map_eq_some_iff.mp h
    exact Nat.zero_le room
  | array xs, j, h => by
    cases room with
    | zero => simp [value?] at h
    | succ room =>
      rw [value?] at h
      obtain ⟨ys, hys, rfl⟩ := Option.map_eq_some_iff.mp h
      exact depth_tree_array.mpr (depth_of_valueItems? room xs ys hys)
  | object ms, j, h => by
    cases room with
    | zero => simp [value?] at h
    | succ room =>
      rw [value?] at h
      obtain ⟨ys, hys, rfl⟩ := Option.map_eq_some_iff.mp h
      exact depth_tree_object.mpr (depth_of_valueMembers? room ms [] ys hys nofun)

/-- Items that were read nest no more deeply than there was room for. -/
theorem depth_of_valueItems? (room : Nat) : ∀ (xs : List Tree) (ys : List Json),
    valueItems? room xs = some ys → ∀ y ∈ ys, y.tree.depth ≤ room
  | [], ys, h => by
    obtain rfl : [] = ys := Option.some.inj h
    exact nofun
  | x :: xs, ys, h => by
    rw [valueItems?] at h
    cases hx : value? room x with
    | none => simp [hx] at h
    | some y =>
      rw [hx] at h
      obtain ⟨zs, hzs, rfl⟩ := Option.map_eq_some_iff.mp h
      exact List.forall_mem_cons.mpr
        ⟨depth_of_value? room x y hx, depth_of_valueItems? room xs zs hzs⟩

/-- Binding a member adds nothing but its own value. -/
theorem depth_of_valueMembers? (room : Nat) : ∀ (ms : List (Literal × Tree))
    (bound ys : List (String × Json)), valueMembers? room bound ms = some ys →
      (∀ m ∈ bound, m.2.tree.depth ≤ room) → ∀ m ∈ ys, m.2.tree.depth ≤ room
  | [], bound, ys, h, hbound => by
    obtain rfl : bound = ys := Option.some.inj h
    exact hbound
  | (k, x) :: ms, bound, ys, h, hbound => by
    rw [valueMembers?] at h
    split at h
    · rename_i name y hk hx
      refine depth_of_valueMembers? room ms _ ys h fun m hm => ?_
      obtain rfl | hm := mem_bindName hm
      · exact depth_of_value? room x y hx
      · exact hbound m hm
    · cases h

end

end Tree

/-! ## Lists, maps and records -/

/-- A list of items that are each read back is read back. -/
theorem allSome_map {α β : Type} {write : α → β} {item : β → Option α} {xs : List α}
    (h : ∀ x ∈ xs, item (write x) = some x) : allSome item (xs.map write) = some xs := by
  induction xs with
  | nil => rfl
  | cons x xs ih =>
    obtain ⟨hx, hxs⟩ := List.forall_mem_cons.mp h
    rw [List.map_cons, allSome, hx, ih hxs]
    rfl

namespace Tree

variable {α : Type} {room : Nat}

theorem text?_ofString (s : String) : (ofString s).text? = some s := Literal.decode?_ofString s

/-- A word is read back from its digits. -/
theorem count?_ofNat (x : UInt64) : (ofNat x.toNat).count? = some x := Numeral.count?_ofInt x

/-- So are the names of members, in their order. -/
theorem named?_ofMembers (ms : List (String × Tree)) :
    named? (ms.map fun m => (Literal.ofString m.1, m.2)) = some ms := by
  refine allSome_map fun m _ => ?_
  rw [Literal.decode?_ofString]
  rfl

/-- A written list is read item by item. -/
theorem list?_array {write : α → Tree} {item : Nat → Tree → Option α} {xs : List α}
    (hdepth : (array (xs.map write)).depth ≤ room)
    (h : ∀ room, ∀ x ∈ xs, (write x).depth ≤ room → item room (write x) = some x) :
    list? item room (array (xs.map write)) = some xs := by
  obtain ⟨inner, rfl, hitems⟩ := exists_room_of_array hdepth
  exact allSome_map fun x hx => h inner x hx (hitems _ (List.mem_map_of_mem hx))

/-- A list of texts is read back, if there is room for one more level. -/
theorem texts?_ofStrings {xs : List String} (hdepth : (ofStrings xs).depth ≤ room) :
    texts? room (ofStrings xs) = some xs :=
  list?_array hdepth fun _ s _ _ => text?_ofString s

/-- A written map is read value by value. -/
theorem map?_ofMembers {write : α → Tree} {item : Nat → Tree → Option α} {m : NameMap α}
    (hdepth : (ofMembers (m.entries.map fun e => (e.1, write e.2))).depth ≤ room)
    (h : ∀ room x, (write x).depth ≤ room → item room (write x) = some x) :
    map? item room (ofMembers (m.entries.map fun e => (e.1, write e.2))) = some m := by
  obtain ⟨inner, rfl, hvalues⟩ := exists_room_of_ofMembers hdepth
  rw [List.forall_mem_map] at hvalues
  have hitems : allSome (fun e => (item inner e.2).map fun x => (e.1, x))
      (m.entries.map fun e => (e.1, write e.2)) = some m.entries :=
    allSome_map fun e he => by rw [h inner e.2 (hvalues e he), Option.map_some]
  rw [ofMembers, map?, named?_ofMembers, Option.bind_eq_bind, Option.bind_some, hitems]
  exact congrArg some m.ofList_entries

/-- A record that is written as an object fills all its slots. -/
theorem fields?_ofMembers {names : List String} {ms : List (String × Tree)}
    (hnames : ms.map (·.1) = names) (h : names.Nodup) :
    (ofMembers ms).fields? names = some (ms.map fun m => some m.2) := by
  subst hnames
  have hknown : (ms.filter fun m => (ms.map (·.1)).contains m.1) = ms := by
    refine List.filter_eq_self.mpr fun m hm => ?_
    simpa using ⟨m.2, hm⟩
  have hlookup : (ms.map (·.1)).map (fun name => ms.lookup name) = ms.map fun m => some m.2 := by
    rw [List.map_map]
    exact List.map_congr_left fun m hm => lookup_of_mem h hm
  simp only [ofMembers, fields?, named?_ofMembers, Option.bind_eq_bind, Option.bind_some, hknown,
    if_pos h, hlookup]
  rfl

/-! ## What has been read -/

/-- Whatever was read was read from something. -/
theorem mem_allSome {β : Type} {item : β → Option α} {ts : List β} {xs : List α}
    (h : allSome item ts = some xs) : ∀ x ∈ xs, ∃ t, item t = some x := by
  induction ts generalizing xs with
  | nil =>
    obtain rfl : [] = xs := Option.some.inj h
    exact nofun
  | cons t ts ih =>
    rw [allSome] at h
    cases ht : item t with
    | none => simp [ht] at h
    | some y =>
      rw [ht] at h
      obtain ⟨ys, hys, rfl⟩ := Option.map_eq_some_iff.mp h
      exact List.forall_mem_cons.mpr ⟨⟨t, ht⟩, ih hys⟩

/-- An element of a list was read with a level less of room. -/
theorem mem_list? {item : Nat → Tree → Option α} {t : Tree} {xs : List α}
    (h : list? item room t = some xs) :
    ∀ x ∈ xs, ∃ inner t, room = inner + 1 ∧ item inner t = some x := by
  rw [list?.eq_def] at h
  split at h
  · intro x hx
    obtain ⟨t, ht⟩ := mem_allSome h x hx
    exact ⟨_, t, rfl, ht⟩
  · cases h

/-- A slot holds what was read for it, or the default. -/
theorem optional?_cases {default x : α} {item : Tree → Option α} {slot : Option Tree}
    (h : optional? default item slot = some x) : x = default ∨ ∃ t, item t = some x := by
  cases slot with
  | none => exact .inl (Option.some.inj h).symm
  | some t => exact .inr ⟨t, h⟩

end Tree

end Json

end InferenceEngine
