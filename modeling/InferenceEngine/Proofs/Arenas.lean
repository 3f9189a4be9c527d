import InferenceEngine.Proofs.Manifests
import InferenceEngine.Proofs.Views

/-!
# Layouts and arenas in any order of insertion

A layout keeps its regions in the order of their names, so what it is does not depend on the order
in which they were inserted, and neither does anything that is made of it. `Layout.insertion_order`
is the main statement.

* `NameMap.insertAll_of_perm` — bindings of different names may be made in any order.
* `Layout.eq_placed` — the spans of a layout have one order of position, so the check for overlaps
  comes to the same whatever sort is used, stable or not.
* `Layout.Numbers` — the handles of an arena are the ranks of the names. `Weights.arranged` and
  `Variables.arranged` say so of both arenas, whatever they hold.
-/

namespace InferenceEngine

/-! ## Maps -/

namespace NameMap

variable {α : Type} {m m' : NameMap α} {xs ys : List (String × α)}

theorem eq_of_entries (h : m.entries = m'.entries) : m = m' := by
  cases m
  cases m'
  cases h
  rfl

/-- A map is what its names stand for. -/
theorem eq_of_get? (h : ∀ name, m.get? name = m'.get? name) : m = m' := by
  have hnodup (m : NameMap α) : m.entries.Nodup := .of_map _ (nodup_of_ascending m.ascending)
  have hperm : m.entries.Perm m'.entries := by
    refine (List.perm_ext_iff_of_nodup (hnodup m) (hnodup m')).mpr fun e => ?_
    rw [← get?_eq_some_iff, ← get?_eq_some_iff, h]
  exact eq_of_entries (eq_of_perm_of_ascending hperm m.ascending m'.ascending)

/-- Binds the pairs of a list one after the other. -/
def insertAll (m : NameMap α) (pairs : List (String × α)) : NameMap α :=
  pairs.foldl (fun m p => m.insert p.1 p.2) m

theorem get?_insert (m : NameMap α) (key : String) (value : α) (name : String) :
    (m.insert key value).get? name = if name = key then some value else m.get? name :=
  lookup_bindName key value m.entries name

/-- The last pair of a name counts, and without one the earlier binding. -/
theorem get?_insertAll (m : NameMap α) (pairs : List (String × α)) (name : String) :
    (m.insertAll pairs).get? name = (lastOf pairs name).or (m.get? name) := by
  induction pairs generalizing m with
  | nil => rfl
  | cons p pairs ih =>
    rw [lastOf_cons, Option.or_assoc]
    refine (ih (m.insert p.1 p.2)).trans (congrArg _ ?_)
    rw [get?_insert]
    split <;> simp

theorem lastOf_eq_lookup (h : (xs.map (·.1)).Nodup) (name : String) :
    lastOf xs name = xs.lookup name :=
  lookup_of_perm xs.reverse_perm (by simpa [List.nodup_reverse] using h) name

/-- **Different names may be bound in any order.** -/
theorem insertAll_of_perm (m : NameMap α) (h : (xs.map (·.1)).Nodup) (hperm : xs.Perm ys) :
    m.insertAll xs = m.insertAll ys := by
  have hys : (ys.map (·.1)).Nodup := (nodup_names_of_perm hperm).mp h
  refine eq_of_get? fun name => ?_
  rw [get?_insertAll, get?_insertAll, lastOf_eq_lookup h, lastOf_eq_lookup hys,
    lookup_of_perm hperm h]

end NameMap

/-! ## Layouts -/

namespace Layout

/-- Adds the regions of a list one after the other. -/
def insertAll (l : Layout) (entries : List (String × Region)) : Layout :=
  entries.foldl (fun l e => l.insert e.1 e.2) l

theorem insertAll_eq (l : Layout) (entries : List (String × Region)) :
    l.insertAll entries = { l with regions := l.regions.insertAll entries } := by
  induction entries generalizing l with
  | nil => rfl
  | cons e entries ih => exact ih (l.insert e.1 e.2)

theorem Span.eq_of_le {a b : Span} (hab : a.le b = true) (hba : b.le a = true) : a = b := by
  rw [Span.le_iff] at hab hba
  obtain ⟨start, stop, name⟩ := a
  obtain ⟨start', stop', name'⟩ := b
  rcases hab with hab | ⟨hab, hab | ⟨hab', hn⟩⟩ <;> rcases hba with hba | ⟨hba, hba | ⟨hba', hm⟩⟩
  case inr.inr.inr.inr =>
    simp only at hab hab' hn hm
    rw [hab, hab', String.le_antisymm hn hm]
  all_goals
    simp only at *
    omega

/-- The spans of the regions that are not empty, in the order of their names. -/
def filledSpans (l : Layout) : List Span :=
  (l.regions.entries.map spanOf).filter fun s => s.start < s.stop

/-- **Spans have one order of position**, so any way to sort them finds it. -/
theorem eq_placed {l : Layout} {ss : List Span} (hperm : ss.Perm l.filledSpans)
    (hsorted : ss.Pairwise fun a b => a.le b = true) : ss = l.placed :=
  List.Perm.eq_of_pairwise (fun _ _ _ _ => Span.eq_of_le) hsorted (sorted_placed l)
    (hperm.trans (List.mergeSort_perm _ _).symm)

/-- What the check for overlaps says of spans in order of position. -/
def overlapOf (ss : List Span) : Except Fault Unit :=
  match collision? ss with
  | some (a, b) => .error (.overlap a.name b.name)
  | none => .ok ()

/-- If all regions lie inside the buffer, any sort of their spans shows how they overlap. -/
theorem validate_of_sorted {l : Layout} {table : String} (h : l.validateBounds table = .ok ())
    {ss : List Span} (hperm : ss.Perm l.filledSpans)
    (hsorted : ss.Pairwise fun a b => a.le b = true) :
    l.validate table = report table (overlapOf ss) := by
  obtain ⟨-, hspans⟩ | ⟨name, r, -, hspans⟩ := spans_cases l
  · rw [validate, check_of_spans hspans, eq_placed hperm hsorted]
    rfl
  · rw [validateBounds, checkBounds, hspans] at h
    cases h

end Layout

/-! ## Arenas -/

/-- The handles of an arena with `size` entries: every name of the layout has its rank in the order
of bytes as its handle, and the names and the numbers below `size` lead to each other. -/
structure Layout.Numbers (l : Layout) (size : Nat) (handle? : String → Option Nat)
    (name : Nat → Outcome String) : Prop where
  /-- there is an entry for each region -/
  count : size = l.regions.size
  /-- the handle of a name is the number of names before it -/
  rank : ∀ n r, l.get? n = some r → handle? n =
    some (l.regions.names.countP fun other => Files.encodeText other < Files.encodeText n)
  /-- no other name has a handle -/
  unknown : ∀ n, l.get? n = none → handle? n = none
  /-- handles and names lead to each other -/
  inverse : ∀ n k, handle? n = some k ↔ name k = .ok n
  /-- every number below the number of entries is the handle of a name -/
  below : ∀ k, k < size → ∃ n r, name k = .ok n ∧ l.get? n = some r
  /-- no other number is -/
  behind : ∀ k, size ≤ k → name k = .panic (.outOfBounds size k)

namespace Layout

variable {l : Layout}

theorem mem_names {n : String} : n ∈ l.regions.names ↔ ∃ r, l.get? n = some r :=
  exists_lookup_iff.symm

theorem names_ascend (l : Layout) :
    l.regions.names.Pairwise fun a b => Files.encodeText a < Files.encodeText b :=
  List.pairwise_map.mpr (l.regions.ascending.imp fun hlt => Files.encodeText_lt_iff.mpr hlt)

/-- Names in their order number themselves. -/
theorem numbers_names (l : Layout) :
    l.Numbers l.regions.names.length (fun n => l.regions.names.idxOf? n) fun k =>
      match l.regions.names[k]? with
      | some n => .ok n
      | none => .panic (.outOfBounds l.regions.names.length k) where
  count := List.length_map _
  rank n r h := Registry.idxOf?_of_ascending l.names_ascend (mem_names.mpr ⟨r, h⟩)
  unknown n h := by
    rw [List.idxOf?_eq_none_iff, mem_names]
    simp [h]
  inverse n k := by
    have hnodup : l.regions.names.Nodup := nodup_of_ascending l.regions.ascending
    rw [idxOf?_eq_some_iff_of_nodup hnodup]
    cases l.regions.names[k]? <;> simp
  below k hk := by
    obtain ⟨r, hr⟩ := mem_names.mp (List.getElem_mem hk)
    refine ⟨_, r, ?_, hr⟩
    rw [List.getElem?_eq_getElem hk]
  behind k hk := by rw [List.getElem?_eq_none hk]

end Layout

/-- The arena of the weights has a view for each name, which has the declared length and is what is
got by handle and by name. -/
structure Weights.Arranged (w : Weights) (l : Layout) : Prop where
  /-- handles number the names -/
  numbers : l.Numbers w.size w.handle? w.name
  /-- every handle has a view -/
  views : w.views.length = w.size
  /-- the view of a name is its weight -/
  shown : ∀ n r, l.get? n = some r → ∃ k xs, w.handle? n = some k ∧ w.views[k]? = some xs ∧
    w.view k = .ok xs ∧ w.get? n = some xs ∧ xs.size = r.size.toNat

/-- The arena of the variables, likewise. -/
structure Variables.Arranged (v : Variables) (l : Layout) : Prop where
  /-- handles number the names -/
  numbers : l.Numbers v.size v.handle? v.name
  /-- every handle has a buffer -/
  buffers : v.bank.length = v.size
  /-- and a view -/
  views : v.views.length = v.size
  /-- the view of a name is its variable -/
  shown : ∀ n r, l.get? n = some r → ∃ k view, v.handle? n = some k ∧ v.views[k]? = some view ∧
    v.view k = .ok view ∧ view.name = n ∧ view.size = r.size.toNat ∧
    v.buffer k = .ok (view.elements v.bank) ∧ v.get? n = some (view.elements v.bank) ∧
    (view.elements v.bank).length = r.size.toNat

/-- A region is listed at the handle of its name. -/
theorem Layout.exists_place {l : Layout} {n : String} {r : Region} (h : l.get? n = some r) :
    ∃ k, l.regions.names.idxOf? n = some k ∧ l.regions.entries[k]? = some (n, r) := by
  obtain ⟨-, hnone⟩ | ⟨k, r', hk, hentry, hsome⟩ := lookup_cases l.regions.entries n
  · exact absurd (hnone.symm.trans h) (by simp)
  · obtain rfl : r' = r := Option.some.inj (hsome.symm.trans h)
    exact ⟨k, hk, hentry⟩

namespace Weights

variable {l : Layout} {w : Weights}

/-- **The arena of the weights is in the order of the names**, whatever it holds. -/
theorem arranged (h : allocate l = .ok w) {data : Array Single} (hdata : data.size = w.data.size) :
    ({ w with data } : Weights).Arranged l := by
  obtain ⟨hfits, hnames, hwindows, htotal⟩ := allocate_spec h
  obtain ⟨names, windows, old⟩ := w
  obtain rfl : names = l.regions.names := hnames
  obtain rfl : windows = l.regions.values.map fun r => (r.start, r.stop) := hwindows
  refine ⟨l.numbers_names, ?_, fun n r hr => ?_⟩
  · simp [views, size, NameMap.values, NameMap.names]
  · obtain ⟨k, hk, hentry⟩ := Layout.exists_place hr
    have hwindow : (l.regions.values.map fun r => (r.start, r.stop))[k]? =
        some (r.start, r.stop) := by
      simp [NameMap.values, hentry]
    -- other data of the same size: the windows still lie inside
    have hstop : r.stop ≤ data.size := by
      rw [hdata]
      exact (hfits n r hr).trans_eq htotal.symm
    refine ⟨k, data.extract r.start r.stop, hk, ?_, ?_, ?_, ?_⟩
    · rw [views, List.getElem?_map, hwindow]
      rfl
    · rw [view, hwindow]
      exact if_pos hstop
    · rw [get?, handle?, hk, Option.bind_some, hwindow]
      rfl
    · rw [Array.size_extract, Nat.min_eq_left hstop]
      exact Nat.add_sub_cancel_left _ _

end Weights

namespace Variables

variable {l : Layout} {v : Variables}

/-- **The arena of the variables is in the order of the names**, whatever it holds. -/
theorem arranged (h : allocate l = .ok v) {bank : Bank} (hshape : bank.shape = v.bank.shape) :
    ({ v with bank } : Variables).Arranged l := by
  obtain ⟨hnames, hlengths⟩ := allocate_spec h
  obtain ⟨names, old⟩ := v
  obtain rfl : names = l.regions.names := hnames
  -- a bank of the same shape has a buffer for every name
  have hbuffers : bank.length = l.regions.names.length := by
    have hcount := congrArg List.length (hshape.trans hlengths)
    simpa [Bank.shape, NameMap.values, NameMap.names] using hcount
  refine ⟨l.numbers_names, hbuffers, ?_, fun n r hr => ?_⟩
  · simp [views, size]
  · obtain ⟨k, hk, hentry⟩ := Layout.exists_place hr
    have hname : l.regions.names[k]? = some n := by simp [NameMap.names, hentry]
    have hlength : bank.shape[k]? = some r.size.toNat := by
      rw [hshape, hlengths]
      simp [NameMap.values, hentry]
    have hsize : bank.size k = r.size.toNat := by rw [Bank.size_eq, hlength, Option.getD_some]
    rw [Bank.shape, List.getElem?_map] at hlength
    obtain ⟨buffer, hbuffer, -⟩ := Option.map_eq_some_iff.mp hlength
    refine ⟨k, ⟨n, k, bank.size k⟩, hk, ?_, view_of_handle? hk, rfl, hsize, ?_, ?_, ?_⟩
    · simp [views, hname]
    · rw [Variables.buffer, View.elements, Bank.elements, hbuffer]
      rfl
    · rw [get?, handle?, hk]
      rfl
    · rw [View.elements, Bank.length_elements, hsize]

end Variables

/-! ## The main statement -/

/-- **What is made of a layout does not depend on the order of insertion.** Let regions with
different names be added to a layout, and let them be added in another order.

* The two layouts are equal, and so are their texts; a name has the region that was added for it, or
  the one it had before.
* They pass the same checks, and what is wrong with them is reported in the same words. The check
  for overlaps comes to the same however the spans are brought into order.
* They have the same arenas, if they have any. In these, whatever they hold, the handle of a name is
  its rank in the order of bytes, the names and the numbers below the number of regions lead to each
  other as names and handles, and the view at the handle of a name is what is got by that name and
  has the declared length. -/
theorem Layout.insertion_order (l : Layout) {entries entries' : List (String × Region)}
    (hnames : (entries.map (·.1)).Nodup) (hperm : entries.Perm entries') :
    let m := l.insertAll entries
    let m' := l.insertAll entries'
    (m = m' ∧ m.text = m'.text ∧ ∀ name, m.get? name = (entries.lookup name).or (l.get? name)) ∧
    (∀ table, m.validateBounds table = m'.validateBounds table ∧
      m.validate table = m'.validate table ∧
      (m.validateBounds table = .ok () → ∀ ss, ss.Perm m'.filledSpans →
        (ss.Pairwise fun a b => a.le b = true) → m.validate table = report table (overlapOf ss))) ∧
    (Weights.allocate m = Weights.allocate m' ∧ Variables.allocate m = Variables.allocate m') ∧
    (∀ w, Weights.allocate m = .ok w →
      ∀ data : Array Single, data.size = w.data.size → { w with data }.Arranged m') ∧
    ∀ v, Variables.allocate m = .ok v →
      ∀ bank : Bank, bank.shape = v.bank.shape → { v with bank }.Arranged m' := by
  intro m m'
  -- with the layouts equal all that is made of them is
  have heq : m = m' := by
    show l.insertAll entries = l.insertAll entries'
    rw [insertAll_eq, insertAll_eq, NameMap.insertAll_of_perm _ hnames hperm]
  have hget (name : String) : m.get? name = (entries.lookup name).or (l.get? name) := by
    show (l.insertAll entries).get? name = _
    rw [insertAll_eq, ← NameMap.lastOf_eq_lookup hnames]
    exact NameMap.get?_insertAll _ _ _
  rw [← heq]
  exact ⟨⟨rfl, rfl, hget⟩, fun table => ⟨rfl, rfl, fun h ss => validate_of_sorted h⟩, ⟨rfl, rfl⟩,
    fun w hw data => Weights.arranged hw, fun v hv bank => Variables.arranged hv⟩

/-- Three regions, in neither order of their names. -/
def scattered : List (String × Region) := [("b", ⟨0, 2⟩), ("é", ⟨2, 1⟩), ("Z", ⟨4, 2⟩)]

/-- The handles of three weights are their ranks, whichever is inserted first. -/
theorem Layout.insertion_order_scattered :
    let m := (Layout.empty 6).insertAll scattered
    m = (Layout.empty 6).insertAll scattered.reverse ∧
      ∃ w, Weights.allocate m = .ok w ∧ w.Arranged m ∧ w.views.length = 3 ∧
        w.handle? "Z" = some 0 ∧ w.handle? "b" = some 1 ∧ w.handle? "é" = some 2 := by
  intro m
  have hnames : (scattered.map (·.1)).Nodup := by decide
  obtain ⟨⟨heq, -⟩, hchecks, -, hweights, -⟩ :=
    insertion_order (.empty 6) hnames scattered.reverse_perm.symm
  obtain ⟨-, -, hsorted⟩ := hchecks "weight"
  have hbounds : m.validateBounds "weight" = .ok () := by decide
  have hvalid : m.validate "weight" = .ok () :=
    hsorted hbounds [⟨0, 2, "b"⟩, ⟨2, 3, "é"⟩, ⟨4, 6, "Z"⟩] (by decide) (by decide)
  have hw : Weights.allocate m =
      .ok ⟨["Z", "b", "é"], [(4, 6), (0, 2), (2, 3)], Array.replicate 6 .zero⟩ := by
    rw [Weights.allocate, hvalid]
    rfl
  have harranged := hweights _ hw _ rfl
  rw [← heq] at harranged
  exact ⟨heq, _, hw, harranged, harranged.views, by decide, by decide, by decide⟩

end InferenceEngine
