import InferenceEngine.Proofs.Accesses
import InferenceEngine.Proofs.Linking

/-!
# Views of variables

A view is taken of a variable by its handle, its name or its place among the declared names, and all
views of one variable are alike. What a view shows is what was written last to the variable with its
name (`Faithful.elements`), and two views cover the same elements just if they are of one variable or
there are none (`View.aliases_iff`). The buffers themselves know nothing of names; that they lie
apart in memory is what a `Placement` says, and `View.aliases_iff_address` reads the same off from the
addresses.
-/

namespace InferenceEngine

/-! ## What a view shows -/

theorem Bank.getElem?_elements (b : Bank) (cell index : Nat) :
    (b.elements cell)[index]? = b.get? cell index := by
  rw [elements, get?]
  cases b[cell]? with
  | none => rfl
  | some buffer => exact Array.getElem?_toList

theorem Bank.length_elements (b : Bank) (cell : Nat) : (b.elements cell).length = b.size cell := by
  rw [elements, size]
  cases b[cell]? <;> rfl

/-- A view shows what was written last to the variable with its name. -/
theorem Faithful.elements {vars : Variables} {log : List Access} {v : View}
    (h : Faithful vars.names vars.bank log) (hv : v ∈ vars.views) :
    v.elements vars.bank = contents log v.name v.size := by
  obtain ⟨hname, hsize⟩ := Variables.mem_views.mp hv
  apply List.ext_getElem?
  intro j
  rw [View.elements, Bank.getElem?_elements, contents, List.getElem?_map]
  by_cases hj : j < v.size
  · rw [List.getElem?_range hj, h.holds _ _ hname j (hsize ▸ hj), Option.map_some]
  · have hnone : (vars.bank.elements v.cell)[j]? = none := by
      rw [List.getElem?_eq_none_iff, Bank.length_elements, ← hsize]
      exact Nat.not_lt.mp hj
    rw [← Bank.getElem?_elements, hnone, List.getElem?_eq_none (by simpa using hj)]
    rfl

theorem Variables.mem_of_viewAll {vars : Variables} {handles : List Nat} {vs : List View}
    (h : vars.viewAll handles = .ok vs) : ∀ v ∈ vs, v ∈ vars.views := by
  induction handles generalizing vs with
  | nil =>
    obtain rfl := Outcome.ok.inj h
    exact nofun
  | cons handle rest ih =>
    obtain ⟨x, hx, h⟩ := Outcome.bind_eq_ok.mp h
    obtain ⟨xs, hxs, h⟩ := Outcome.bind_eq_ok.mp h
    obtain rfl := Outcome.ok.inj h
    intro v hv
    rcases List.mem_cons.mp hv with rfl | hv
    · exact (view_eq_ok.mp hx).2
    · exact ih hxs v hv

/-- The views depend on the lengths of the variables, and not on their elements. -/
theorem Variables.views_of_shape {vars : Variables} {b : Bank} (h : b.shape = vars.bank.shape) :
    ({ vars with bank := b } : Variables).views = vars.views := by
  simp only [views, Bank.size_eq, h]

/-- A name leads to the view of its variable. -/
theorem Variables.view_of_handle? {vars : Variables} {name : String} {handle : Nat}
    (h : vars.handle? name = some handle) :
    vars.view handle = .ok ⟨name, handle, vars.bank.size handle⟩ := by
  obtain ⟨hlt, hname, -⟩ := List.idxOf?_eq_some_iff.mp h
  rw [view, List.getElem?_eq_getElem hlt, hname]

/-- Declared names have views, in the declared order. They are the same after the elements of the
variables have changed. -/
theorem Variables.viewAll_of_resolveDeclared {role : Role} {vars : Variables} {names : List String}
    {handles : List Nat} (h : resolveDeclared role vars names = .ok handles) (b : Bank) :
    ∃ vs, ({ vars with bank := b } : Variables).viewAll handles = .ok vs ∧
      vs.map View.name = names := by
  induction names generalizing handles with
  | nil =>
    obtain rfl := Except.ok.inj h
    exact ⟨[], rfl, rfl⟩
  | cons name rest ih =>
    rw [resolveDeclared] at h
    cases hname : vars.handle? name with
    | none =>
      rw [hname] at h
      cases h
    | some handle =>
      cases hrest : resolveDeclared role vars rest with
      | error f =>
        rw [hname, hrest] at h
        cases h
      | ok handles' =>
        rw [hname, hrest] at h
        obtain rfl := Except.ok.inj h
        obtain ⟨vs, hvs, hnames⟩ := ih hrest
        -- a handle is found by the names, which another bank does not change
        have hview : ({ vars with bank := b } : Variables).view handle =
            .ok ⟨name, handle, b.size handle⟩ := view_of_handle? hname
        refine ⟨⟨name, handle, b.size handle⟩ :: vs, ?_, congrArg (name :: ·) hnames⟩
        rw [viewAll, hview, hvs]
        rfl

/-- What an instruction calls is given the views that it names. -/
theorem names_of_lookupAll {tb : Tables} {role : Role} {index : Nat} {names : List String}
    {vs : List View} (h : lookupAll role index tb.buffer? names = .ok vs) :
    vs.map View.name = names := by
  have hnamed : List.Forall₂ (fun name v => name = View.name v) names vs := by
    refine (forall₂_of_lookupAll h).imp fun name v hv => ?_
    obtain ⟨region, -, hcell⟩ := Option.bind_eq_some_iff.mp hv
    obtain ⟨cell, -, rfl⟩ := Option.map_eq_some_iff.mp hcell
    rfl
  rw [← List.forall₂_map_right_iff, List.forall₂_eq_eq_eq] at hnamed
  exact hnamed.symm

/-- Variables with different names have different places. -/
theorem Tables.cell_ne_of_buffer? {tb : Tables} {name other : String} {v w : View}
    (hv : tb.buffer? name = some v) (hw : tb.buffer? other = some w) (hne : other ≠ name) :
    v.cell ≠ w.cell := by
  obtain ⟨region, -, hv⟩ := Option.bind_eq_some_iff.mp hv
  obtain ⟨cell, hcell, rfl⟩ := Option.map_eq_some_iff.mp hv
  obtain ⟨region', -, hw⟩ := Option.bind_eq_some_iff.mp hw
  obtain ⟨cell', hcell', rfl⟩ := Option.map_eq_some_iff.mp hw
  intro hcells
  have hcells : cell = cell' := hcells
  obtain ⟨hlt, hname, -⟩ := List.idxOf?_eq_some_iff.mp hcell
  obtain ⟨hlt', hname', -⟩ := List.idxOf?_eq_some_iff.mp (hcells ▸ hcell')
  exact hne (hname'.symm.trans hname)

/-- The view of a variable is what its name stands for. -/
theorem Variables.buffer?_of_mem_views {c : Compiled} {tb : Tables} (h : c.Serves tb)
    (hnames : c.buffers.names.Nodup) {v : View} (hv : v ∈ c.buffers.views) :
    tb.buffer? v.name = some v := by
  obtain ⟨hname, hsize⟩ := mem_views.mp hv
  rcases h.buffer v.name with ⟨hh, -⟩ | ⟨place, x, hh, hx, hfound⟩
  · exact absurd (List.mem_of_getElem? hname) (List.idxOf?_eq_none_iff.mp hh)
  · rw [view_of_handle? hh] at hx
    obtain rfl := Outcome.ok.inj hx
    obtain ⟨hlt, hplace, -⟩ := List.idxOf?_eq_some_iff.mp hh
    have hcell : place = v.cell := by
      refine (List.getElem?_inj hlt hnames).mp ?_
      rw [List.getElem?_eq_getElem hlt, hplace]
      exact hname.symm
    rw [hfound, hcell, ← hsize]

/-! ## Where buffers lie -/

/-- The places of buffers in memory: those with elements do not overlap, and those without lie in
one place that is set apart for them. -/
structure Placement (b : Bank) where
  /-- the address of the first element of a buffer -/
  address : Nat → Nat
  /-- the addresses of two buffers with elements differ -/
  distinct : ∀ cell cell', b.size cell ≠ 0 → b.size cell' ≠ 0 → address cell = address cell' →
    cell = cell'
  /-- all buffers without elements have one address -/
  dangling : ∀ cell cell', b.size cell = 0 → b.size cell' = 0 → address cell = address cell'

instance (b : Bank) : Inhabited (Placement b) :=
  ⟨⟨fun cell => if b.size cell = 0 then 0 else cell + 1,
    fun cell cell' h h' heq => by rwa [if_neg h, if_neg h', Nat.succ_inj] at heq,
    fun cell cell' h h' => by rw [if_pos h, if_pos h']⟩⟩

namespace View

variable {vars : Variables} {v w : View}

theorem aliases_eq_true : v.aliases w = true ↔ v.cell = w.cell ∨ v.size = 0 ∧ w.size = 0 := by
  simp [aliases]

/-- Two views cover the same elements just if they are of one variable, or there are none. -/
theorem aliases_iff (hnames : vars.names.Nodup) (hv : v ∈ vars.views) (hw : w ∈ vars.views) :
    v.aliases w = true ↔ v.name = w.name ∨ v.size = 0 ∧ w.size = 0 := by
  obtain ⟨hv, -⟩ := Variables.mem_views.mp hv
  obtain ⟨hw, -⟩ := Variables.mem_views.mp hw
  have hcell : v.cell = w.cell ↔ v.name = w.name := by
    constructor
    · intro h
      rw [Names, h] at hv
      exact Option.some.inj (hv.symm.trans hw)
    · intro h
      rw [Names, h, ← hw] at hv
      exact (List.getElem?_inj (List.getElem?_eq_some_iff.mp (hv.trans hw)).1 hnames).mp hv
  rw [aliases_eq_true, hcell]

/-- That is, if they begin at the same address and have the same length. -/
theorem aliases_iff_address (hv : v ∈ vars.views) (hw : w ∈ vars.views) (p : Placement vars.bank) :
    v.aliases w = true ↔ p.address v.cell = p.address w.cell ∧ v.size = w.size := by
  obtain ⟨-, hv⟩ := Variables.mem_views.mp hv
  obtain ⟨-, hw⟩ := Variables.mem_views.mp hw
  rw [aliases_eq_true]
  constructor
  · rintro (hcell | ⟨hv', hw'⟩)
    · rw [hv, hw, hcell]
      exact ⟨rfl, rfl⟩
    · exact ⟨p.dangling _ _ (hv ▸ hv') (hw ▸ hw'), hv'.trans hw'.symm⟩
  · rintro ⟨haddress, hsize⟩
    by_cases hzero : v.size = 0
    · exact .inr ⟨hzero, hsize ▸ hzero⟩
    · exact .inl (p.distinct _ _ (hv ▸ hzero) (hw ▸ hsize ▸ hzero) haddress)

end View

end InferenceEngine
