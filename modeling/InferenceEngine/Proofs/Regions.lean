import Mathlib.Data.List.Pairwise
import InferenceEngine.Failure

/-!
# Layouts are checked exactly

The checks of a layout look at one region after the other, and for overlaps only at neighbours in
order of position. `Layout.validate_exact` says that nothing is missed and nothing is refused
without cause, with positions taken as natural numbers:

* the bounds check accepts a layout iff every region ends inside the buffer, and what it refuses
  with is about the offender whose name comes first;
* the full check accepts a layout iff the bounds check does and no two non-empty regions share an
  element, and an overlap that it reports is one.

The part that is not a walk along a list is that no collision between neighbours means no collision
at all: non-empty spans that do not collide with their neighbours come in order, so each ends before
any later one starts (`Layout.separated_of_collision?_none`).
-/

namespace InferenceEngine

namespace Region

/-- The element at position `x` of the buffer belongs to the region. -/
def Covers (r : Region) (x : Nat) : Prop := r.offset.toNat ≤ x ∧ x < r.offset.toNat + r.size.toNat

/-- Two regions share an element. -/
def Meets (r s : Region) : Prop := ∃ x, r.Covers x ∧ s.Covers x

end Region

namespace Layout

/-! ## What is said about a layout -/

/-- Every region ends inside the buffer. -/
def Fits (l : Layout) : Prop :=
  ∀ name r, l.get? name = some r → r.offset.toNat + r.size.toNat ≤ l.totalSize.toNat

/-- The region called `name` is `r` and ends behind the buffer. -/
def Offends (l : Layout) (name : String) (r : Region) : Prop :=
  l.get? name = some r ∧ l.totalSize.toNat < r.offset.toNat + r.size.toNat

/-- The region called `name` offends, and its name comes before that of any other offender. -/
def FirstOffender (l : Layout) (name : String) (r : Region) : Prop :=
  l.Offends name r ∧ ∀ other s, l.Offends other s → name ≤ other

/-- What is wrong with an offender: either its end is no 64-bit word, or it is behind the buffer. -/
def offence (l : Layout) (name : String) (r : Region) : Fault :=
  if UInt64.size ≤ r.offset.toNat + r.size.toNat then .overflow name
  else .exceeds name r.offset.toNat (r.offset.toNat + r.size.toNat) l.totalSize.toNat

/-- Regions of different names, neither of them empty, that share an element. -/
def Overlap (l : Layout) (p q : String) : Prop :=
  p ≠ q ∧ ∃ r s, l.get? p = some r ∧ l.get? q = some s ∧ 0 < r.size.toNat ∧ 0 < s.size.toNat ∧
    r.Meets s

/-! ## Bounds -/

variable {total : UInt64} {name : String} {r : Region} {entries : List (String × Region)}

/-- The span of a region, wherever it ends. -/
def spanOf (e : String × Region) : Span := ⟨e.2.start, e.2.stop, e.1⟩

/-- A region that ends inside the buffer has a span: its end is a word, as the length of the buffer
is. -/
theorem span?_of_le (h : r.stop ≤ total.toNat) : span? total name r = .ok (spanOf (name, r)) := by
  have htotal : total.toNat < UInt64.size := total.toNat_lt
  rw [span?, if_neg (by omega), if_neg (by omega)]
  rfl

/-- One that ends behind it is an offence. -/
theorem span?_of_lt (l : Layout) (h : l.totalSize.toNat < r.stop) :
    span? l.totalSize name r = .error (l.offence name r) := by
  by_cases hbig : UInt64.size ≤ r.stop
  · have hword : UInt64.size ≤ r.offset.toNat + r.size.toNat := hbig
    rw [span?, if_pos hbig, offence, if_pos hword]
  · have hword : ¬ UInt64.size ≤ r.offset.toNat + r.size.toNat := hbig
    rw [span?, if_neg hbig, if_pos h, offence, if_neg hword]
    rfl

/-- If all regions end inside the buffer they all have their spans, in the order of their names. -/
theorem spansOf_of_le (h : ∀ e ∈ entries, e.2.stop ≤ total.toNat) :
    spansOf total entries = .ok (entries.map spanOf) := by
  induction entries with
  | nil => rfl
  | cons e rest ih =>
    obtain ⟨name, r⟩ := e
    have hr : r.stop ≤ total.toNat := h (name, r) (List.mem_cons_self ..)
    rw [spansOf, span?_of_le hr]
    simp only
    rw [ih fun e he => h e (List.mem_cons_of_mem _ he)]
    rfl

/-- The walk along the regions stops at the first that ends behind the buffer. -/
theorem spansOf_of_split (l : Layout) {before after : List (String × Region)}
    (hbefore : ∀ e ∈ before, e.2.stop ≤ l.totalSize.toNat) (h : l.totalSize.toNat < r.stop) :
    spansOf l.totalSize (before ++ (name, r) :: after) = .error (l.offence name r) := by
  induction before with
  | nil => rw [List.nil_append, spansOf, span?_of_lt l h]
  | cons e rest ih =>
    obtain ⟨other, s⟩ := e
    have hs : s.stop ≤ l.totalSize.toNat := hbefore (other, s) (List.mem_cons_self ..)
    rw [List.cons_append, spansOf, span?_of_le hs]
    simp only
    rw [ih fun e he => hbefore e (List.mem_cons_of_mem _ he)]
    rfl

/-- Either all regions end inside the buffer, or there is a first that does not. -/
theorem fits_or_split (total : Nat) (entries : List (String × Region)) :
    (∀ e ∈ entries, e.2.stop ≤ total) ∨
      ∃ before name r after, entries = before ++ (name, r) :: after ∧
        (∀ e ∈ before, e.2.stop ≤ total) ∧ total < r.stop := by
  induction entries with
  | nil => exact .inl fun e he => absurd he List.not_mem_nil
  | cons e rest ih =>
    obtain ⟨name, r⟩ := e
    by_cases hr : r.stop ≤ total
    · rcases ih with hfits | ⟨before, other, s, after, rfl, hbefore, hs⟩
      · refine .inl fun e he => ?_
        rcases List.mem_cons.mp he with rfl | he
        · exact hr
        · exact hfits e he
      · refine .inr ⟨(name, r) :: before, other, s, after, rfl, fun e he => ?_, hs⟩
        rcases List.mem_cons.mp he with rfl | he
        · exact hr
        · exact hbefore e he
    · exact .inr ⟨[], name, r, rest, rfl, fun e he => absurd he List.not_mem_nil, by omega⟩

/-- The first offender along the list is the one whose name comes first. -/
theorem firstOffender_of_split {l : Layout} {before after : List (String × Region)}
    (hsplit : l.regions.entries = before ++ (name, r) :: after)
    (hbefore : ∀ e ∈ before, e.2.stop ≤ l.totalSize.toNat) (h : l.totalSize.toNat < r.stop) :
    l.FirstOffender name r := by
  have hmem : (name, r) ∈ l.regions.entries := by
    rw [hsplit]
    exact List.mem_append_right _ (List.mem_cons_self ..)
  refine ⟨⟨NameMap.get?_eq_some_iff.mpr hmem, h⟩, fun other s hother => ?_⟩
  obtain ⟨hget, hs⟩ := hother
  have hin : (other, s) ∈ before ++ (name, r) :: after := by
    rw [← hsplit]
    exact NameMap.get?_eq_some_iff.mp hget
  have hasc : Ascending (before ++ (name, r) :: after) := by
    rw [← hsplit]
    exact l.regions.ascending
  rcases List.mem_append.mp hin with hin | hin
  · -- before the first offender there is none
    have hfits : s.stop ≤ l.totalSize.toNat := hbefore _ hin
    exact absurd hs (Nat.not_lt.mpr hfits)
  · rcases List.mem_cons.mp hin with heq | hin
    · obtain ⟨rfl, -⟩ := Prod.mk.inj heq
      exact String.le_refl other
    · have hlt : name < other :=
        (List.pairwise_cons.mp (List.pairwise_append.mp hasc).2.1).1 _ hin
      exact String.not_lt.mp (String.lt_asymm hlt)

/-- The spans of all regions, or what is wrong with the first offender. -/
theorem spans_cases (l : Layout) :
    (l.Fits ∧ l.spans = .ok (l.regions.entries.map spanOf)) ∨
      ∃ name r, l.FirstOffender name r ∧ l.spans = .error (l.offence name r) := by
  rcases fits_or_split l.totalSize.toNat l.regions.entries with
    hfits | ⟨before, name, r, after, hsplit, hbefore, hr⟩
  · refine .inl ⟨fun name r h => hfits (name, r) (NameMap.get?_eq_some_iff.mp h), ?_⟩
    exact spansOf_of_le hfits
  · refine .inr ⟨name, r, firstOffender_of_split hsplit hbefore hr, ?_⟩
    rw [spans, hsplit]
    exact spansOf_of_split l hbefore hr

/-- A layout with an offender does not fit. -/
theorem FirstOffender.not_fits {l : Layout} (h : l.FirstOffender name r) : ¬ l.Fits := by
  intro hfits
  have := hfits name r h.1.1
  exact absurd h.1.2 (Nat.not_lt.mpr this)

/-! ## Overlaps -/

/-- Spans are ordered by start, then by end, and then by name. -/
theorem Span.le_iff {a b : Span} : a.le b = true ↔ a.start < b.start ∨
    (a.start = b.start ∧ (a.stop < b.stop ∨ (a.stop = b.stop ∧ a.name ≤ b.name))) := by
  simp [Span.le]

theorem Span.le_trans (a b c : Span) (hab : a.le b = true) (hbc : b.le c = true) :
    a.le c = true := by
  rw [Span.le_iff] at *
  rcases hab with hab | ⟨hab, hab | ⟨hab', hn⟩⟩ <;> rcases hbc with hbc | ⟨hbc, hbc | ⟨hbc', hm⟩⟩
  case inr.inr.inr.inr => exact .inr ⟨by omega, .inr ⟨by omega, String.le_trans hn hm⟩⟩
  all_goals omega

/-- No two spans are left without an order, as names have one. -/
theorem Span.le_total (a b : Span) : (a.le b || b.le a) = true := by
  rw [Bool.or_eq_true, Span.le_iff, Span.le_iff]
  rcases String.le_total a.name b.name with hn | hn
  all_goals
    simp only [hn, and_true]
    omega

/-- **No neighbours collide, so none collide**: of non-empty spans that do not collide with their
neighbours, each ends before any later one starts. -/
theorem separated_of_collision?_none {ss : List Span} (hne : ∀ s ∈ ss, s.start < s.stop)
    (h : collision? ss = none) : ss.Pairwise fun a b => a.stop ≤ b.start := by
  induction ss with
  | nil => exact List.Pairwise.nil
  | cons a rest ih =>
    cases rest with
    | nil => exact List.pairwise_singleton _ _
    | cons b rest =>
      rw [collision?] at h
      split at h
      · cases h
      · rename_i hab
        have hrest := ih (fun s hs => hne s (List.mem_cons_of_mem _ hs)) h
        refine List.pairwise_cons.mpr ⟨fun c hc => ?_, hrest⟩
        rcases List.mem_cons.mp hc with rfl | hc
        · omega
        · -- `a` ends before its neighbour starts, which ends before `c` starts
          have hbc := (List.pairwise_cons.mp hrest).1 c hc
          have hb := hne b (List.mem_cons_of_mem _ (List.mem_cons_self ..))
          omega

/-- A collision is one of two spans of which the first stands before the second. -/
theorem sublist_of_collision?_some {ss : List Span} {a b : Span}
    (h : collision? ss = some (a, b)) : [a, b].Sublist ss ∧ b.start < a.stop := by
  induction ss with
  | nil => cases h
  | cons s rest ih =>
    cases rest with
    | nil => cases h
    | cons s' rest =>
      rw [collision?] at h
      split at h
      · rename_i hlt
        obtain ⟨rfl, rfl⟩ := Prod.mk.inj (Option.some.inj h)
        exact ⟨List.Sublist.cons_cons _ (List.Sublist.cons_cons _ (List.nil_sublist _)), hlt⟩
      · obtain ⟨hsub, hlt⟩ := ih h
        exact ⟨hsub.cons _, hlt⟩

/-- The spans that the full check compares: those of non-empty regions in order of position. -/
def placed (l : Layout) : List Span :=
  ((l.regions.entries.map spanOf).filter fun s => s.start < s.stop).mergeSort Span.le

/-- What is put in order of position is the span of every region that is not empty. -/
theorem mem_placed {l : Layout} {s : Span} :
    s ∈ l.placed ↔ ∃ r, l.get? s.name = some r ∧ s = spanOf (s.name, r) ∧ 0 < r.size.toNat := by
  rw [placed, List.mem_mergeSort, List.mem_filter, List.mem_map, decide_eq_true_eq]
  constructor
  · rintro ⟨⟨⟨name, r⟩, hmem, rfl⟩, hlt⟩
    refine ⟨r, NameMap.get?_eq_some_iff.mpr hmem, rfl, ?_⟩
    have hlt : r.offset.toNat < r.offset.toNat + r.size.toNat := hlt
    omega
  · rintro ⟨r, hget, hs, hr⟩
    refine ⟨⟨_, NameMap.get?_eq_some_iff.mp hget, hs.symm⟩, ?_⟩
    rw [hs]
    change r.offset.toNat < r.offset.toNat + r.size.toNat
    omega

theorem nonempty_of_mem_placed {l : Layout} {s : Span} (h : s ∈ l.placed) : s.start < s.stop := by
  rw [placed, List.mem_mergeSort, List.mem_filter] at h
  exact of_decide_eq_true h.2

/-- Sorting has put them in order. -/
theorem sorted_placed (l : Layout) : l.placed.Pairwise fun a b => a.le b = true :=
  List.pairwise_mergeSort Span.le_trans Span.le_total _

/-- Different places in the list are places of different names. -/
theorem names_placed (l : Layout) : l.placed.Pairwise fun a b => a.name ≠ b.name := by
  -- ascending names differ, and neither leaving spans out nor sorting them changes that
  have hspans : (l.regions.entries.map spanOf).Pairwise fun a b => a.name ≠ b.name := by
    refine List.pairwise_map.mpr (l.regions.ascending.imp ?_)
    intro a b hlt heq
    have heq : a.1 = b.1 := heq
    rw [heq] at hlt
    exact String.lt_irrefl _ hlt
  exact (List.mergeSort_perm _ _).symm.pairwise (hspans.filter _) fun h => h.symm

/-- A collision is an overlap: the second span starts inside the first. -/
theorem overlap_of_collision {l : Layout} {a b : Span} (h : collision? l.placed = some (a, b)) :
    l.Overlap a.name b.name := by
  -- the two stand in order in the list, so the second starts no earlier than the first
  obtain ⟨hsub, hlt⟩ := sublist_of_collision?_some h
  have ha : a ∈ l.placed := hsub.subset (List.mem_cons_self ..)
  have hb : b ∈ l.placed := hsub.subset (List.mem_cons_of_mem _ (List.mem_cons_self ..))
  have hle : a.le b = true :=
    (List.pairwise_cons.mp ((sorted_placed l).sublist hsub)).1 b (List.mem_cons_self ..)
  have hname : a.name ≠ b.name :=
    (List.pairwise_cons.mp ((names_placed l).sublist hsub)).1 b (List.mem_cons_self ..)
  have hstart : a.start ≤ b.start := by
    rw [Span.le_iff] at hle
    omega
  have hne := nonempty_of_mem_placed hb
  obtain ⟨r, hr, har, hrpos⟩ := mem_placed.mp ha
  obtain ⟨s, hs, hbs, hspos⟩ := mem_placed.mp hb
  refine ⟨hname, r, s, hr, hs, hrpos, hspos, b.start, ?_, ?_⟩
  · rw [har] at hstart hlt
    exact ⟨hstart, hlt⟩
  · rw [hbs] at hne ⊢
    exact ⟨Nat.le_refl _, hne⟩

/-- Without a collision there is no overlap. -/
theorem not_overlap_of_collision?_none {l : Layout} (h : collision? l.placed = none)
    (p q : String) : ¬ l.Overlap p q := by
  rintro ⟨hpq, r, s, hr, hs, hrpos, hspos, x, hrx, hsx⟩
  -- apart in either order, so that it does not matter which of the two stands first
  have hapart : l.placed.Pairwise fun a b => a.stop ≤ b.start ∨ b.stop ≤ a.start :=
    (separated_of_collision?_none (fun _ => nonempty_of_mem_placed) h).imp Or.inl
  have hp : spanOf (p, r) ∈ l.placed := mem_placed.mpr ⟨r, hr, rfl, hrpos⟩
  have hq : spanOf (q, s) ∈ l.placed := mem_placed.mpr ⟨s, hs, rfl, hspos⟩
  have hne : spanOf (p, r) ≠ spanOf (q, s) := fun heq => hpq (congrArg Span.name heq)
  have hsymm : Std.Symm fun a b : Span => a.stop ≤ b.start ∨ b.stop ≤ a.start :=
    ⟨fun _ _ h => h.symm⟩
  have hsep : r.stop ≤ s.start ∨ s.stop ≤ r.start := hapart.forall hp hq hne
  simp only [Region.Covers, Region.stop, Region.start] at hrx hsx hsep
  omega

/-! ## The checks -/

/-- Once all regions have their spans, the check comes down to the first two neighbours that
meet. -/
theorem check_of_spans {l : Layout} (h : l.spans = .ok (l.regions.entries.map spanOf)) :
    l.check = match collision? l.placed with
      | some (a, b) => .error (.overlap a.name b.name)
      | none => .ok () := by
  rw [check, h]
  rfl

/-- The three ways in which a layout is checked. -/
theorem check_cases (l : Layout) :
    (∃ name r, l.FirstOffender name r ∧ l.checkBounds = .error (l.offence name r) ∧
        l.check = .error (l.offence name r)) ∨
      (l.Fits ∧ l.checkBounds = .ok () ∧ (∀ p q, ¬ l.Overlap p q) ∧ l.check = .ok ()) ∨
      (l.Fits ∧ l.checkBounds = .ok () ∧
        ∃ p q, l.Overlap p q ∧ l.check = .error (.overlap p q)) := by
  rcases spans_cases l with ⟨hfits, hspans⟩ | ⟨name, r, hfirst, hspans⟩
  · have hbounds : l.checkBounds = .ok () := by
      rw [checkBounds, hspans]
      rfl
    rcases hc : collision? l.placed with _ | ⟨a, b⟩
    · -- no collision
      refine .inr (.inl ⟨hfits, hbounds, not_overlap_of_collision?_none hc, ?_⟩)
      rw [check_of_spans hspans, hc]
    · -- a collision
      refine .inr (.inr ⟨hfits, hbounds, a.name, b.name, overlap_of_collision hc, ?_⟩)
      rw [check_of_spans hspans, hc]
  · refine .inl ⟨name, r, hfirst, ?_, ?_⟩
    · rw [checkBounds, hspans]
      rfl
    · rw [check, hspans]

/-- **Layouts are checked exactly.** The bounds check succeeds iff every region ends inside the
buffer, and otherwise names the table and what is wrong with the first offender in ascending order
of names. The full check succeeds iff the bounds check does and no two non-empty regions share an
element; a bounds failure goes before an overlap, and an overlap that it reports is one. -/
theorem validate_exact (l : Layout) (table : String) :
    (l.validateBounds table = .ok () ↔ l.Fits) ∧
    (∀ e, l.validateBounds table = .error e →
      ∃ name r, l.FirstOffender name r ∧ e = .layout table (l.offence name r)) ∧
    (l.validate table = .ok () ↔
      l.validateBounds table = .ok () ∧ ∀ p q, ¬ l.Overlap p q) ∧
    (∀ e, l.validateBounds table = .error e → l.validate table = .error e) ∧
    (∀ e, l.validateBounds table = .ok () → l.validate table = .error e →
      ∃ p q, l.Overlap p q ∧ e = .layout table (.overlap p q)) := by
  rcases check_cases l with ⟨name, r, hfirst, hbounds, hcheck⟩ |
    ⟨hfits, hbounds, hno, hcheck⟩ | ⟨hfits, hbounds, p, q, hover, hcheck⟩
  · -- a region ends behind the buffer
    have hb : l.validateBounds table = .error (.layout table (l.offence name r)) := by
      rw [validateBounds, hbounds]
      rfl
    have hc : l.validate table = .error (.layout table (l.offence name r)) := by
      rw [validate, hcheck]
      rfl
    rw [hb, hc]
    refine ⟨⟨nofun, fun h => absurd h hfirst.not_fits⟩, fun e he => ?_,
      ⟨nofun, fun h => nomatch h.1⟩, fun _ h => h, nofun⟩
    exact ⟨name, r, hfirst, (Except.error.inj he).symm⟩
  · -- all is well
    have hb : l.validateBounds table = .ok () := by
      rw [validateBounds, hbounds]
      rfl
    have hc : l.validate table = .ok () := by
      rw [validate, hcheck]
      rfl
    rw [hb, hc]
    exact ⟨⟨fun _ => hfits, fun _ => rfl⟩, nofun, ⟨fun _ => ⟨rfl, hno⟩, fun _ => rfl⟩, nofun,
      nofun⟩
  · -- two regions overlap
    have hb : l.validateBounds table = .ok () := by
      rw [validateBounds, hbounds]
      rfl
    have hc : l.validate table = .error (.layout table (.overlap p q)) := by
      rw [validate, hcheck]
      rfl
    rw [hb, hc]
    refine ⟨⟨fun _ => hfits, fun _ => rfl⟩, nofun, ⟨nofun, fun h => absurd hover (h.2 p q)⟩,
      nofun, fun e _ he => ?_⟩
    exact ⟨p, q, hover, (Except.error.inj he).symm⟩

end Layout

end InferenceEngine
