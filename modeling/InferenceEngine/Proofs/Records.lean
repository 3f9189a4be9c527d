import InferenceEngine.Proofs.Orders

/-!
# Records in any form

A record is the object of its fields, in any order and among foreign members, or the array of its
fields. Fields that are left at their defaults may be missing from either.

* `Tree.Record fs t` — `t` is a record of the fields `fs` in one of its forms, each field in one of
  the forms that it may take. Its slots are filled accordingly (`Tree.fields?_of_record`).
* `Tree.Defective required known t` — what is wrong with an object that is none of these forms: a
  field is missing (`Tree.slot_of_lacks`) or is given twice (`Tree.fields?_of_repeats`).
-/

namespace InferenceEngine

namespace Json

namespace Tree

/-! ## Records -/

/-- A field of a record: its name, the trees its value may be written as, and whether it may be left
out. -/
structure Field where
  /-- the name -/
  name : String
  /-- its value may be written as this tree -/
  form : Tree → Prop
  /-- its value is the one that a missing field stands for -/
  omissible : Prop

/-- The named trees of some fields, in order, fields that may be left out being left out or not. -/
inductive Members : List Field → List (String × Tree) → Prop
  | nil : Members [] []
  | given {f : Field} {t : Tree} {fs : List Field} {ms : List (String × Tree)} (ht : f.form t)
    (h : Members fs ms) : Members (f :: fs) ((f.name, t) :: ms)
  | omitted {f : Field} {fs : List Field} {ms : List (String × Tree)} (ho : f.omissible)
    (h : Members fs ms) : Members (f :: fs) ms

/-- The trees of some fields, in order, cut off where the rest may be left out. -/
inductive Items : List Field → List Tree → Prop
  | cut {fs : List Field} (h : ∀ f ∈ fs, f.omissible) : Items fs []
  | given {f : Field} {t : Tree} {fs : List Field} {ts : List Tree} (ht : f.form t)
    (h : Items fs ts) : Items (f :: fs) (t :: ts)

/-- A well-formed member under a name that is none of the given ones. -/
def Foreign (names : List String) (m : Literal × Tree) : Prop :=
  (∃ name, m.1.decode? = some name ∧ name ∉ names) ∧ m.1.Proper ∧ m.2.Proper

/-- A record of some fields: the object of its members and of foreign ones, in any order, or the
array of its items. -/
inductive Record (fs : List Field) : Tree → Prop
  | object {given : List (String × Tree)} {foreign ms : List (Literal × Tree)}
    (hg : Members fs given) (hf : ∀ m ∈ foreign, Foreign (fs.map Field.name) m)
    (hp : ms.Perm (given.map (fun m => (Literal.ofString m.1, m.2)) ++ foreign)) :
    Record fs (.object ms)
  | array {ts : List Tree} (h : Items fs ts) : Record fs (.array ts)

/-- The members of a record make an object, without foreign ones and in the order of the fields. -/
theorem record_ofMembers {fs : List Field} {ms : List (String × Tree)} (h : Members fs ms) :
    Record fs (ofMembers ms) := by
  refine .object h (List.forall_mem_nil _) ?_
  rw [List.append_nil]

/-- What a slot has to hold to be the one of a field. -/
def Field.Fits (f : Field) : Option Tree → Prop
  | none => f.omissible
  | some t => f.form t

theorem names_sublist_of_members {fs : List Field} {ms : List (String × Tree)} (h : Members fs ms) :
    (ms.map (·.1)).Sublist (fs.map Field.name) := by
  induction h with
  | nil => exact .slnil
  | given _ _ ih => exact ih.cons_cons _
  | omitted _ _ ih => exact ih.cons _

theorem fits_of_members {fs : List Field} {ms : List (String × Tree)} (h : Members fs ms)
    (hnodup : (fs.map Field.name).Nodup) :
    List.Forall₂ Field.Fits fs (fs.map fun f => ms.lookup f.name) := by
  -- the members of the later fields have other names than the first one
  have hrest {f : Field} {fs : List Field} (hf : f.name ∉ fs.map Field.name) {ms : List (String × Tree)}
      {t : Tree} : fs.map (fun g => ((f.name, t) :: ms).lookup g.name) =
        fs.map fun g => ms.lookup g.name := by
    refine List.map_congr_left fun g hg => ?_
    have hne : g.name ≠ f.name := fun heq => hf (heq ▸ List.mem_map_of_mem hg)
    rw [List.lookup_cons, beq_false_of_ne hne]
  induction h with
  | nil => exact .nil
  | @given f t fs ms ht _ ih =>
    obtain ⟨hf, hfs⟩ := List.nodup_cons.mp hnodup
    rw [List.map_cons, List.lookup_cons_self, hrest hf]
    exact .cons ht (ih hfs)
  | @omitted f fs ms ho h ih =>
    obtain ⟨hf, hfs⟩ := List.nodup_cons.mp hnodup
    have hnone : ms.lookup f.name = none := by
      refine List.lookup_eq_none_iff.mpr fun m hm => ?_
      have hname := (names_sublist_of_members h).subset (List.mem_map_of_mem hm)
      exact bne_iff_ne.mpr fun heq => hf (heq ▸ hname)
    rw [List.map_cons, hnone]
    exact .cons ho (ih hfs)

theorem fits_of_items {fs : List Field} {ts : List Tree} (h : Items fs ts) :
    ts.length ≤ fs.length ∧
      List.Forall₂ Field.Fits fs (ts.map some ++ List.replicate (fs.length - ts.length) none) := by
  induction h with
  | @cut fs h =>
    refine ⟨Nat.zero_le _, ?_⟩
    induction fs with
    | nil => exact .nil
    | cons f fs ih =>
      obtain ⟨hf, hfs⟩ := List.forall_mem_cons.mp h
      exact .cons hf (ih hfs)
  | given ht _ ih =>
    refine ⟨Nat.succ_le_succ ih.1, ?_⟩
    rw [List.length_cons, List.length_cons, Nat.add_sub_add_right]
    exact .cons ht ih.2

/-- The names of foreign members are read, and none of them is one of the known names. -/
theorem named?_of_foreign {names : List String} {foreign : List (Literal × Tree)}
    (hf : ∀ m ∈ foreign, Foreign names m) :
    ∃ other, named? foreign = some other ∧ ∀ m ∈ other, m.1 ∉ names := by
  induction foreign with
  | nil => exact ⟨[], rfl, List.forall_mem_nil _⟩
  | cons m foreign ih =>
    obtain ⟨⟨⟨name, hname, hnew⟩, -⟩, hf⟩ := List.forall_mem_cons.mp hf
    obtain ⟨other, hother, hothers⟩ := ih hf
    refine ⟨(name, m.2) :: other, ?_, List.forall_mem_cons.mpr ⟨hnew, hothers⟩⟩
    rw [named?] at hother ⊢
    rw [allSome, hname, hother]
    rfl

/-- Names are read as they were written. -/
theorem named?_append (given : List (String × Tree)) {foreign : List (Literal × Tree)}
    {other : List (String × Tree)} (h : named? foreign = some other) :
    named? (given.map (fun m => (Literal.ofString m.1, m.2)) ++ foreign) =
      some (given ++ other) := by
  induction given with
  | nil => exact h
  | cons m given ih =>
    rw [named?] at ih ⊢
    rw [List.map_cons, List.cons_append, allSome, Literal.decode?_ofString, ih]
    rfl

/-- The members of an object with their names read, when all but known ones are foreign. -/
theorem named?_of_perm {names : List String} {given : List (String × Tree)}
    {foreign ms : List (Literal × Tree)} (hg : ∀ m ∈ given, m.1 ∈ names)
    (hf : ∀ m ∈ foreign, Foreign names m)
    (hp : ms.Perm (given.map (fun m => (Literal.ofString m.1, m.2)) ++ foreign)) :
    ∃ named, named? ms = some named ∧ (named.filter fun m => names.contains m.1).Perm given := by
  obtain ⟨other, hother, hothers⟩ := named?_of_foreign hf
  obtain ⟨named, hnamed, hperm⟩ := allSome_of_perm hp (named?_append given hother)
  refine ⟨named, hnamed, (hperm.filter _).trans ?_⟩
  have hkeep : (given.filter fun m => names.contains m.1) = given :=
    List.filter_eq_self.mpr fun m hm => List.contains_iff_mem.mpr (hg m hm)
  have hdrop : (other.filter fun m => names.contains m.1) = [] :=
    List.filter_eq_nil_iff.mpr fun m hm hc => hothers m hm (List.contains_iff_mem.mp hc)
  rw [List.filter_append, hkeep, hdrop, List.append_nil]

/-- **A record fills its slots in whatever form it is written**: each with a form of its field, or
not at all where the field may be left out. -/
theorem fields?_of_record {fs : List Field} {names : List String} {t : Tree} (h : Record fs t)
    (hnames : fs.map Field.name = names) (hnodup : names.Nodup) :
    ∃ slots, t.fields? names = some slots ∧ List.Forall₂ Field.Fits fs slots := by
  subst hnames
  cases h with
  | @object given foreign ms hg hf hp =>
    have hsub := names_sublist_of_members hg
    obtain ⟨named, hnamed, hknown⟩ :=
      named?_of_perm (fun m hm => hsub.subset (List.mem_map_of_mem hm)) hf hp
    have hdistinct := (nodup_names_of_perm hknown).mpr (hnodup.sublist hsub)
    refine ⟨_, ?_, fits_of_members hg hnodup⟩
    rw [fields?, hnamed, Option.bind_eq_bind, Option.bind_some, if_pos hdistinct, List.map_map]
    refine congrArg some (List.map_congr_left fun f _ => ?_)
    exact lookup_of_perm hknown hdistinct f.name
  | @array ts h =>
    obtain ⟨hlength, hfits⟩ := fits_of_items h
    refine ⟨_, ?_, hfits⟩
    rw [fields?, List.length_map, if_pos hlength]

theorem proper_of_record {fs : List Field} {t : Tree} (h : Record fs t)
    (hform : ∀ f ∈ fs, ∀ t, f.form t → t.Proper) : t.Proper := by
  cases h with
  | @object given foreign ms hg hf hp =>
    have hgiven : ∀ m ∈ given, m.2.Proper := by
      -- what is foreign plays no part here and would stand in the way of the induction
      clear hf hp
      induction hg with
      | nil => exact List.forall_mem_nil _
      | given ht _ ih =>
        obtain ⟨hhead, htail⟩ := List.forall_mem_cons.mp hform
        exact List.forall_mem_cons.mpr ⟨hhead _ ht, ih htail⟩
      | omitted _ _ ih => exact ih (List.forall_mem_cons.mp hform).2
    have hall : ∀ m ∈ ms, m.1.Proper ∧ m.2.Proper := by
      intro m hm
      obtain hm | hm := List.mem_append.mp (hp.mem_iff.mp hm)
      · obtain ⟨e, he, rfl⟩ := List.mem_map.mp hm
        exact ⟨Literal.proper_ofString e.1, hgiven e he⟩
      · exact (hf m hm).2
    exact .object (fun m hm => (hall m hm).1) fun m hm => (hall m hm).2
  | @array ts h =>
    refine .array ?_
    induction h with
    | cut _ => exact List.forall_mem_nil _
    | given ht _ ih =>
      obtain ⟨hhead, htail⟩ := List.forall_mem_cons.mp hform
      exact List.forall_mem_cons.mpr ⟨hhead _ ht, ih htail⟩

section Slots

variable {α : Type} {name : String} {form : Tree → Prop} {item : Tree → Option α} {x : α}
  {slot : Option Tree}

/-- A field that may not be left out is read from its slot. -/
theorem required?_of_fits (h : Field.Fits ⟨name, form, False⟩ slot)
    (hitem : ∀ t, form t → item t = some x) : required? item slot = some x := by
  cases slot with
  | none => exact h.elim
  | some t => exact hitem t h

/-- A field that may be left out at its default is read from its slot. -/
theorem optional?_of_fits {default : α} (h : Field.Fits ⟨name, form, x = default⟩ slot)
    (hitem : ∀ t, form t → item t = some x) : optional? default item slot = some x := by
  cases slot with
  | none => exact congrArg some (Eq.symm h)
  | some t => exact hitem t h

end Slots

/-! ## Objects that are no record -/

/-- The tree is an object without a member under the name. -/
def Lacks (name : String) : Tree → Prop
  | object ms => ∀ m ∈ ms, m.1.decode? ≠ some name
  | _ => False

/-- The tree is an object with two members under the name. -/
def Repeats (name : String) : Tree → Prop
  | object ms => ∃ a b, [a, b].Sublist ms ∧ a.1.decode? = some name ∧ b.1.decode? = some name
  | _ => False

/-- The tree is an object that lacks a required field or gives a known one twice. -/
def Defective (required known : List String) (t : Tree) : Prop :=
  (∃ name ∈ required, t.Lacks name) ∨ ∃ name ∈ known, t.Repeats name

/-- The second tree stands for a field of the first one: as a member under the name of the field or
as the item in its place. -/
def Holds (names : List String) (name : String) : Tree → Tree → Prop
  | object ms, x => ∃ m ∈ ms, m.1.decode? = some name ∧ m.2 = x
  | array xs, x => (name, x) ∈ names.zip xs
  | _, _ => False

section Defects

variable {names : List String} {name : String} {t x : Tree} {slots : List (Option Tree)}

theorem mem_zip_map (find : String → Option Tree) (hname : name ∈ names) :
    (name, find name) ∈ names.zip (names.map find) := by
  induction names with
  | nil => cases hname
  | cons other names ih =>
    rw [List.map_cons, List.zip_cons_cons]
    obtain rfl | hname := List.mem_cons.mp hname
    · exact List.mem_cons_self
    · exact List.mem_cons_of_mem _ (ih hname)

/-- A filled slot is in the place of its item. -/
theorem mem_zip_pad {xs : List Tree} {pad : List (Option Tree)} (h : (name, x) ∈ names.zip xs) :
    (name, some x) ∈ names.zip (xs.map some ++ pad) := by
  induction xs generalizing names with
  | nil => simp at h
  | cons y xs ih =>
    cases names with
    | nil => cases h
    | cons other names =>
      rw [List.zip_cons_cons] at h
      rw [List.map_cons, List.cons_append, List.zip_cons_cons]
      obtain heq | h := List.mem_cons.mp h
      · cases heq
        exact List.mem_cons_self
      · exact List.mem_cons_of_mem _ (ih h)

/-- The slots of an object are looked up among its known members, which do not repeat. -/
theorem fields?_object {ms : List (Literal × Tree)} (h : (object ms).fields? names = some slots) :
    ∃ named known, named? ms = some named ∧ known = named.filter (fun m => names.contains m.1) ∧
      (known.map (·.1)).Nodup ∧ slots = names.map fun name => known.lookup name := by
  rw [fields?] at h
  obtain ⟨named, hnamed, h⟩ := Option.bind_eq_some_iff.mp h
  dsimp only at h
  split at h
  · exact ⟨named, _, hnamed, rfl, ‹_›, (Option.some.inj h).symm⟩
  · cases h

/-- A missing field leaves its slot empty. -/
theorem slot_of_lacks (h : t.fields? names = some slots) (hname : name ∈ names)
    (hlacks : t.Lacks name) : (name, none) ∈ names.zip slots := by
  cases t with
  | object ms =>
    obtain ⟨named, known, hnamed, rfl, -, rfl⟩ := fields?_object h
    have hnone : (named.filter fun m => names.contains m.1).lookup name = none := by
      refine List.lookup_eq_none_iff.mpr fun e he => bne_iff_ne.mpr ?_
      rintro rfl
      obtain ⟨m, hm, hread⟩ := allSome_mem_right hnamed (List.mem_of_mem_filter he)
      obtain ⟨name, hdecode, rfl⟩ := Option.map_eq_some_iff.mp hread
      exact hlacks m hm hdecode
    exact hnone ▸ mem_zip_map _ hname
  | _ => exact hlacks.elim

/-- What stands for a field is in its slot. -/
theorem slot_of_holds (h : t.fields? names = some slots) (hname : name ∈ names)
    (hx : t.Holds names name x) : (name, some x) ∈ names.zip slots := by
  cases t with
  | object ms =>
    obtain ⟨named, known, hnamed, rfl, hnodup, rfl⟩ := fields?_object h
    obtain ⟨m, hm, hdecode, rfl⟩ := hx
    obtain ⟨e, he, hread⟩ := allSome_mem_left hnamed hm
    rw [hdecode] at hread
    obtain rfl := Option.some.inj hread
    have hknown : (name, m.2) ∈ named.filter fun m => names.contains m.1 :=
      List.mem_filter.mpr ⟨he, List.contains_iff_mem.mpr hname⟩
    have hsome := lookup_of_mem hnodup hknown
    exact hsome ▸ mem_zip_map _ hname
  | array xs =>
    rw [fields?] at h
    split at h
    · obtain rfl := Option.some.inj h
      exact mem_zip_pad hx
    · cases h
  | _ => exact hx.elim

/-- An object that repeats a field is no record. -/
theorem fields?_of_repeats (hname : name ∈ names) (hrepeats : t.Repeats name) :
    t.fields? names = none := by
  cases t with
  | object ms =>
    refine Option.eq_none_iff_forall_ne_some.mpr fun slots h => ?_
    obtain ⟨named, known, hnamed, rfl, hnodup, -⟩ := fields?_object h
    obtain ⟨a, b, hsub, ha, hb⟩ := hrepeats
    obtain ⟨both, hboth, hnamed⟩ := allSome_of_sublist hsub hnamed
    have hread : named? [a, b] = some [(name, a.2), (name, b.2)] := by
      rw [named?, allSome, ha, allSome, hb]
      rfl
    obtain rfl := Option.some.inj (hboth.symm.trans hread)
    have hknown := (hnamed.filter fun m => names.contains m.1).map (·.1)
    have hkeep : ([(name, a.2), (name, b.2)].filter fun m => names.contains m.1) =
        [(name, a.2), (name, b.2)] := List.filter_eq_self.mpr (by simp [hname])
    rw [hkeep] at hknown
    exact List.nodup_iff_sublist.mp hnodup name hknown
  | _ => exact hrepeats.elim

theorem required?_eq_some {α : Type} {item : Tree → Option α} {slot : Option Tree} {a : α}
    (h : required? item slot = some a) : ∃ t, slot = some t ∧ item t = some a := by
  cases slot with
  | none => cases h
  | some t => exact ⟨t, rfl, h⟩

/-- A list with an unreadable item is unreadable. -/
theorem list?_eq_none {α : Type} {item : Nat → Tree → Option α} {ts : List Tree} (hx : x ∈ ts)
    (h : ∀ room, item room x = none) (room : Nat) : list? item room (array ts) = none := by
  cases room with
  | zero => rfl
  | succ room => exact allSome_eq_none hx (h room)

/-- A map with an unreadable value is unreadable, also where the name of the value repeats. -/
theorem map?_eq_none {α : Type} {item : Nat → Tree → Option α} {ms : List (Literal × Tree)}
    {m : Literal × Tree} (hm : m ∈ ms) (h : ∀ room, item room m.2 = none) (room : Nat) :
    map? item room (object ms) = none := by
  cases room with
  | zero => rfl
  | succ room =>
    rw [map?]
    cases hnamed : named? ms with
    | none => rfl
    | some named =>
      obtain ⟨e, he, hread⟩ := allSome_mem_left hnamed hm
      obtain ⟨name, -, rfl⟩ := Option.map_eq_some_iff.mp hread
      have hitem : (item room m.2).map (fun x => (name, x)) = none := by rw [h room, Option.map_none]
      rw [Option.bind_eq_bind, Option.bind_some, allSome_eq_none he hitem]
      rfl

end Defects

end Tree

end Json

end InferenceEngine
