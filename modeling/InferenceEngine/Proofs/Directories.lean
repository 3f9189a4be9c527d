import InferenceEngine.Proofs.Arenas
import InferenceEngine.Proofs.Paths

/-!
# Directories and their contents

A directory of regular files is described by its contents, a map from names to bytes. `Files.Lists`
says that a file system has such a directory at a path.

* `Files.Lists.node?_join` — what stands under the path of an entry is what the contents have under
  its name, whether the name is in the contents or not.
* `Files.Lists.add` — putting a file into the directory is binding its name in the contents, so
  `Files.Lists.addAll` is for several files, and by `Files.lists_ofContents` all contents are those
  of some directory.
-/

namespace InferenceEngine.Files

variable {f g files : Files} {dir name : String} {here place : List String}
  {contents : NameMap Bytes}

/-! ## Following a path -/

/-- A way in two parts is followed one part after the other. -/
theorem follow_append (f : Files) (here xs ys : List String) :
    f.follow here (xs ++ ys) = (f.follow here xs).bind fun place => f.follow place ys := by
  induction xs generalizing here with
  | nil => rfl
  | cons x xs ih =>
    simp only [List.cons_append, follow]
    split
    · exact ih _
    · rfl

/-- Where a path can be followed it leads to the names along it. -/
theorem eq_foldl_of_follow {xs : List String} (h : f.follow here xs = some place) :
    place = xs.foldl enter here := by
  induction xs generalizing here with
  | nil => exact (Option.some.inj h).symm
  | cons x xs ih =>
    rw [follow] at h
    split at h
    · exact ih h
    · cases h

/-- A path can still be followed when there are more directories. -/
theorem follow_mono (hmono : ∀ place, f.isDirectory place = true → g.isDirectory place = true)
    {xs : List String} (h : f.follow here xs = some place) : g.follow here xs = some place := by
  induction xs generalizing here with
  | nil => exact h
  | cons x xs ih =>
    rw [follow] at h ⊢
    split at h
    · rename_i hdir
      rw [if_pos (hmono here hdir)]
      exact ih h
    · cases h

/-- Two slashes in a row lead nowhere. -/
theorem foldl_enter_of_blank {gap : List String} (h : ∀ piece ∈ gap, piece = "") :
    gap.foldl enter here = here := by
  induction gap with
  | nil => rfl
  | cons piece gap ih =>
    obtain ⟨rfl, hgap⟩ := List.forall_mem_cons.mp h
    exact ih hgap

/-- A name that is neither empty nor made of dots leads one level down. -/
theorem enter_of_not_special (h : name ∉ ["", ".", ".."]) : enter here name = here ++ [name] := by
  simp only [List.mem_cons, List.not_mem_nil, or_false, not_or] at h
  obtain ⟨hempty, hdot, hdots⟩ := h
  simp [enter, hempty, hdot, hdots]

/-! ## The path of an entry -/

/-- The name begins neither at the root nor with a dot. -/
def Plain (name : String) : Prop := name.toList.head? ∉ [none, some '/', some '.']

instance (name : String) : Decidable (Plain name) := inferInstanceAs (Decidable (¬ _))

/-- A path is cut at its slashes as the list of its characters is. -/
theorem splitOn_slash (path : String) :
    path.splitOn "/" = (path.toList.splitOn '/').map String.ofList :=
  splitOn_singleton path '/'

theorem startsWith_of_head (h : name.toList.head? ≠ some '/') : name.startsWith "/" = false := by
  rw [Bool.eq_false_iff]
  intro hstart
  obtain ⟨cs, hcs⟩ := String.startsWith_string_iff.mp hstart
  apply h
  rw [← hcs]
  rfl

/-- Cut at slashes, the path of an entry is that of its directory with the pieces of the name behind
it. A directory's path that is empty or ends with a slash has an empty last piece, which goes. -/
theorem splitOn_join (dir : String) (h : name.startsWith "/" = false) :
    ∃ above gap, dir.splitOn "/" = above ++ gap ∧ (∀ piece ∈ gap, piece = "") ∧
      (join dir name).splitOn "/" = above ++ name.splitOn "/" := by
  -- three ways in which a name is put behind a directory: nothing above it, a slash that is there
  -- already, and a slash of its own
  by_cases hempty : dir = ""
  · refine ⟨[], [""], ?_, by simp, ?_⟩
    · rw [splitOn_slash, hempty]
      rfl
    · rw [join, if_pos (.inl hempty), List.nil_append]
  have hjoin : join dir name = if dir.endsWith "/" then dir ++ name else dir ++ "/" ++ name := by
    simp [join, hempty, h]
  rw [hjoin]
  by_cases hend : dir.endsWith "/" = true
  · have hsuffix := String.Slice.endsWith_string_iff.mp hend
    rw [String.copy_toSlice] at hsuffix
    obtain ⟨cs, hcs⟩ := hsuffix
    have hdir : dir.toList = cs ++ '/' :: [] := hcs.symm
    refine ⟨(cs.splitOn '/').map String.ofList, [""], ?_, by simp, ?_⟩
    · rw [splitOn_slash, hdir, List.splitOn_append_cons_self, List.map_append]
      rfl
    · have hpath : (dir ++ name).toList = cs ++ '/' :: name.toList := by simp [hdir]
      rw [if_pos hend, splitOn_slash, hpath, List.splitOn_append_cons_self, List.map_append,
        ← splitOn_slash]
  · refine ⟨dir.splitOn "/", [], by simp, by simp, ?_⟩
    have hpath : (dir ++ "/" ++ name).toList = dir.toList ++ '/' :: name.toList := by simp
    rw [if_neg hend, splitOn_slash, hpath, List.splitOn_append_cons_self, List.map_append,
      ← splitOn_slash, ← splitOn_slash]

/-- Following the path of an entry is going to its directory and on from there. -/
theorem follow_join (h : name.startsWith "/" = false)
    (hplace : f.follow [] (dir.splitOn "/") = some place) :
    f.follow [] ((join dir name).splitOn "/") = f.follow place (name.splitOn "/") := by
  obtain ⟨above, gap, hdir, hgap, hjoin⟩ := splitOn_join dir h
  rw [hdir, follow_append] at hplace
  obtain ⟨mid, habove, hmid⟩ := Option.bind_eq_some_iff.mp hplace
  have hstay : place = mid := (eq_foldl_of_follow hmid).trans (foldl_enter_of_blank hgap)
  rw [hjoin, follow_append, habove, hstay]
  rfl

/-- A path that does not begin at the root goes on from the directory that it is joined to. -/
theorem parts_join (h : name.startsWith "/" = false) :
    parts (join dir name) = (name.splitOn "/").foldl enter (parts dir) := by
  obtain ⟨above, gap, hdir, hgap, hjoin⟩ := splitOn_join dir h
  rw [parts, parts, hdir, hjoin, List.foldl_append, List.foldl_append, foldl_enter_of_blank hgap]

theorem startsWith_of_isName (h : IsName name) : name.startsWith "/" = false := by
  apply startsWith_of_head
  intro hhead
  exact h.1 (List.mem_of_mem_head? hhead)

/-- So joining a name leads to the entry of that name. -/
theorem parts_join_of_isName (h : IsName name) : parts (join dir name) = parts dir ++ [name] := by
  rw [parts_join (startsWith_of_isName h), splitOn_of_isName h]
  exact enter_of_not_special h.2

/-- A plain name without a slash is that of an entry: it is not empty and begins with no dot. -/
theorem isName_of_plain (h : Plain name) (hslash : '/' ∉ name.toList) : IsName name := by
  refine ⟨hslash, ?_⟩
  intro hmem
  simp only [List.mem_cons, List.not_mem_nil, or_false] at hmem
  rcases hmem with rfl | rfl | rfl
  all_goals exact absurd h (by decide)

/-- A plain name with a slash leads through an entry. -/
theorem exists_pieces_of_slash (h : Plain name) (hslash : '/' ∈ name.toList) :
    ∃ piece next rest, name.splitOn "/" = piece :: next :: rest ∧ IsName piece := by
  obtain ⟨first, behind, hname, hfirst⟩ := List.eq_append_cons_of_mem hslash
  obtain ⟨next, rest, hrest⟩ := List.exists_cons_of_ne_nil (List.splitOn_ne_nil '/' behind)
  have hcut := splitOn_slash name
  rw [hname, List.splitOn_append_cons_self_of_not_mem hfirst, hrest] at hcut
  refine ⟨_, _, _, hcut, isName_of_plain ?_ (by simpa using hfirst)⟩
  -- the first piece begins as the name does
  rw [Plain, hname] at h
  cases first with
  | nil => simp at h
  | cons c first => simpa [Plain] using h

theorem startsWith_of_plain (h : Plain name) : name.startsWith "/" = false := by
  apply startsWith_of_head
  intro hhead
  simp [Plain, hhead] at h

/-! ## Contents -/

/-- At the path there is a directory of regular files with these contents, and nothing else is in
it. -/
structure Lists (files : Files) (dir : String) (contents : NameMap Bytes) : Prop where
  /-- the path can be followed -/
  reached : files.follow [] (dir.splitOn "/") = some (parts dir)
  /-- it leads to a directory -/
  directory : files.isDirectory (parts dir) = true
  /-- every entry has a name -/
  named : ∀ name content, contents.get? name = some content → IsName name
  /-- a name is that of a regular file, or of nothing -/
  entry : ∀ name, IsName name → files.nodes.lookup (parts dir ++ [name]) =
    (contents.get? name).map .file
  /-- nothing stands deeper -/
  flat : ∀ n ∈ files.nodes, parts dir <+: n.1 → n.1.length ≤ (parts dir).length + 1

namespace Lists

/-- The entries of a directory that lists files are no directories themselves. -/
theorem isDirectory_entry (h : files.Lists dir contents) (hname : IsName name) :
    files.isDirectory (parts dir ++ [name]) = false := by
  rw [isDirectory, h.entry name hname]
  cases hget : contents.get? name with
  | some content => rfl
  | none =>
    -- what stood below it would be too deep
    suffices hnot : ∀ n ∈ files.nodes, ¬ parts dir ++ [name] <+: n.1 by simpa using hnot
    intro n hn hprefix
    have hdeep := h.flat n hn ((List.prefix_append _ _).trans hprefix)
    have hentry : parts dir ++ [name] = n.1 := by
      apply hprefix.eq_of_length_le
      simpa using hdeep
    have hnone := h.entry name hname
    rw [hget, hentry, Option.map_none, List.lookup_eq_none_iff] at hnone
    simpa using hnone n hn

/-- **Under the path of an entry stands what the contents have under its name.** -/
theorem node?_join (h : files.Lists dir contents) (hname : Plain name) :
    files.node? (join dir name) = (contents.get? name).map .file := by
  rw [node?, follow_join (startsWith_of_plain hname) h.reached]
  by_cases hslash : '/' ∈ name.toList
  · -- the path leads on from an entry, which is no directory
    obtain ⟨piece, next, rest, hsplit, hpiece⟩ := exists_pieces_of_slash hname hslash
    have hnone : contents.get? name = none := by
      apply Option.eq_none_iff_forall_ne_some.mpr
      intro content hget
      exact (h.named name content hget).1 hslash
    rw [hsplit, follow, if_pos h.directory, follow, enter_of_not_special hpiece.2,
      h.isDirectory_entry hpiece, hnone]
    rfl
  · have hentry : IsName name := isName_of_plain hname hslash
    rw [splitOn_of_isName hentry, follow, if_pos h.directory, follow,
      enter_of_not_special hentry.2]
    dsimp only
    rw [h.isDirectory_entry hentry, if_neg Bool.false_ne_true]
    exact h.entry name hentry

/-- **Putting a file into a directory binds its name.** -/
theorem add (h : files.Lists dir contents) (hname : IsName name) (content : Bytes) :
    (files.add (join dir name) (.file content)).Lists dir (contents.insert name content) := by
  have hnodes : (files.add (join dir name) (.file content)).nodes =
      (parts dir ++ [name], .file content) :: files.nodes := by
    rw [Files.add, parts_join_of_isName hname]
  -- the entry itself was no directory before
  have hmono (place : List String) (hplace : files.isDirectory place = true) :
      (files.add (join dir name) (.file content)).isDirectory place = true := by
    have hne : place ≠ parts dir ++ [name] := by
      rintro rfl
      cases hplace.symm.trans (h.isDirectory_entry hname)
    rw [isDirectory] at hplace ⊢
    rw [hnodes, List.lookup_cons, beq_false_of_ne hne]
    cases hlookup : files.nodes.lookup place with
    | some node =>
      rw [hlookup] at hplace
      exact hplace
    | none =>
      rw [hlookup] at hplace
      simp only [Bool.or_eq_true, List.any_cons] at hplace ⊢
      exact hplace.imp_right .inr
  refine ⟨follow_mono hmono h.reached, hmono _ h.directory, ?_, ?_, ?_⟩
  · intro name' content' hget
    rw [NameMap.get?_insert] at hget
    split at hget
    · rename_i heq
      rwa [heq]
    · exact h.named name' content' hget
  · intro name' hname'
    rw [hnodes, List.lookup_cons, NameMap.get?_insert]
    by_cases heq : name' = name
    · simp [heq]
    · rw [beq_false_of_ne (by simpa using heq), if_neg heq]
      exact h.entry name' hname'
  · intro n hn hprefix
    rw [hnodes] at hn
    rcases List.mem_cons.mp hn with rfl | hn
    · simp
    · exact h.flat n hn hprefix

/-- So putting several files into it binds their names one after the other. -/
theorem addAll (h : files.Lists dir contents) (entries : List (String × Bytes))
    (hnames : ∀ e ∈ entries, IsName e.1) :
    (entries.foldl (fun f e => f.add (join dir e.1) (.file e.2)) files).Lists dir
      (contents.insertAll entries) := by
  induction entries generalizing files contents with
  | nil => exact h
  | cons e entries ih =>
    obtain ⟨hname, hnames⟩ := List.forall_mem_cons.mp hnames
    exact ih (h.add hname e.2) hnames

end Lists

/-- A directory in the root has nothing in it when it is made. -/
theorem lists_empty (h : IsName dir) : (empty.add dir .directory).Lists dir .empty := by
  have hnodes : (empty.add dir .directory).nodes = [([dir], .directory)] := by
    rw [add, parts_of_isName h]
    rfl
  have hroot : (empty.add dir .directory).isDirectory [] = true := by
    rw [isDirectory, hnodes]
    rfl
  refine ⟨?_, ?_, ?_, ?_, ?_⟩
  · rw [splitOn_of_isName h, parts_of_isName h, follow, if_pos hroot, follow, enter_of_isName h]
  · simp [isDirectory, hnodes, parts_of_isName h]
  · intro name content hget
    cases hget
  · intro name hname
    rw [hnodes, parts_of_isName h, List.lookup_cons, beq_false_of_ne (by simp)]
    rfl
  · intro n hn hprefix
    rw [hnodes, List.mem_singleton] at hn
    simp [hn, parts_of_isName h]

/-- The directory with some contents. -/
def ofContents (dir : String) (contents : NameMap Bytes) : Files :=
  contents.entries.foldl (fun f e => f.add (join dir e.1) (.file e.2)) (empty.add dir .directory)

/-- **All contents are those of a directory**, wherever it is put in the root. -/
theorem lists_ofContents (h : IsName dir) (hnames : ∀ name ∈ contents.names, IsName name) :
    (ofContents dir contents).Lists dir contents := by
  have hall := (lists_empty h).addAll contents.entries fun e he =>
    hnames e.1 (List.mem_map_of_mem he)
  have hcontents : NameMap.empty.insertAll contents.entries = contents :=
    NameMap.ofList_entries contents
  rwa [hcontents] at hall

end InferenceEngine.Files
