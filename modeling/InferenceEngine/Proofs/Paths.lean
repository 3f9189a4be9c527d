import InferenceEngine.Files
import Mathlib.Data.String.Basic
import Mathlib.Data.List.Basic

/-!
# Paths and the texts of files

* `String.splitOn_singleton` — a text is cut at a character as the list of its characters is.
* `Files.decodeText?_encodeText` — the bytes of a text are read as that text.
* `Files.readText?_add` — a file in the root that was just put there is read.
-/

namespace InferenceEngine

/-! ## Cutting at a character -/

section Pieces

open String

/-- The loop of `splitOn`, at the end of a piece `m` that starts behind `l`. -/
theorem splitOnAux_singleton (c : Char) (r l m : List Char) (acc : List String) :
    splitOnAux (ofList (l ++ m ++ r)) (String.singleton c) ⟨utf8Len l⟩ ⟨utf8Len (l ++ m)⟩ 0 acc =
      acc.reverse ++ (List.splitOnPPrepend (· == c) r m.reverse).map ofList := by
  induction r generalizing l m acc with
  | nil =>
    have hend := (atEnd_of_valid (l ++ m) []).mpr rfl
    have hextract := extract_of_valid l m []
    rw [← utf8Len_append] at hextract
    rw [splitOnAux, if_pos hend]
    dsimp only
    rw [hextract]
    simp
  | cons d r ih =>
    have hend := mt (atEnd_of_valid (l ++ m) (d :: r)).mp (List.cons_ne_nil d r)
    have hget : Pos.Raw.get (ofList (l ++ m ++ d :: r)) ⟨utf8Len (l ++ m)⟩ = d :=
      get_of_valid (l ++ m) (d :: r)
    have hnext : Pos.Raw.next (ofList (l ++ m ++ d :: r)) ⟨utf8Len (l ++ m)⟩ =
        ⟨utf8Len (l ++ m ++ [d])⟩ := by
      rw [next_of_valid, utf8Len_append (l ++ m), utf8Len_cons, utf8Len_nil, Nat.zero_add]
    have hsep : Pos.Raw.get (String.singleton c) 0 = c := get_of_valid [] [c]
    rw [splitOnAux, if_neg hend, hget, hsep, hnext, List.splitOnPPrepend_cons_eq_if]
    split
    · -- the piece ends here, and the next one starts behind the separator
      rename_i heq
      obtain rfl := eq_of_beq heq
      have hsepNext : Pos.Raw.next (String.singleton d) 0 = ⟨utf8Len [d]⟩ := next_of_valid [] d []
      have hsepEnd : Pos.Raw.atEnd (String.singleton d) ⟨utf8Len [d]⟩ = true :=
        (atEnd_of_valid [d] []).mpr rfl
      have hback : (⟨utf8Len (l ++ m ++ [d])⟩ : Pos.Raw).unoffsetBy ⟨utf8Len [d]⟩ =
          ⟨utf8Len l + utf8Len m⟩ := by
        rw [Pos.Raw.unoffsetBy, utf8Len_append (l ++ m), utf8Len_append l, Nat.add_sub_cancel]
      have htail := ih (l ++ m ++ [d]) [] (ofList m :: acc)
      have hextract := extract_of_valid l m (d :: r)
      dsimp only
      rw [hsepNext, if_pos hsepEnd, hback, hextract]
      simpa using htail
    · have hstay : (⟨utf8Len (l ++ m)⟩ : Pos.Raw).unoffsetBy 0 = ⟨utf8Len (l ++ m)⟩ := rfl
      have htail := ih l (m ++ [d]) acc
      rw [hstay, hnext]
      simpa using htail

/-- A text is cut at a character as the list of its characters is. -/
theorem splitOn_singleton (s : String) (c : Char) :
    s.splitOn (String.singleton c) = (s.toList.splitOn c).map ofList := by
  have hne : ¬ (String.singleton c == "") = true := by simp
  have haux := splitOnAux_singleton c s.toList [] [] []
  rw [splitOn, if_neg hne, List.splitOn]
  simpa using haux

end Pieces

namespace Files

/-! ## Texts and bytes -/

/-- The loop that lists bytes. -/
theorem toList_loop (bytes : ByteArray) (i : Nat) (r : List UInt8) :
    ByteArray.toList.loop bytes i r = r.reverse ++ bytes.data.toList.drop i := by
  fun_induction ByteArray.toList.loop bytes i r with
  | case1 i r h ih =>
    have hlt : i < bytes.data.toList.length := h
    have hget : bytes.get! i = bytes.data.toList[i] := by
      show bytes.data[i]! = _
      rw [getElem!_pos bytes.data i h, Array.getElem_toList]
    rw [ih, List.drop_eq_getElem_cons hlt, ← hget, List.reverse_cons, List.append_assoc]
    rfl
  | case2 i r h =>
    have hle : bytes.data.toList.length ≤ i := Nat.le_of_not_lt h
    rw [List.drop_of_length_le hle, List.append_nil]

/-- **The bytes of a text are read as that text.** -/
theorem decodeText?_encodeText (text : String) : decodeText? (encodeText text) = some text := by
  have hbytes : (⟨(encodeText text).toArray⟩ : ByteArray) = text.toUTF8 := by
    rw [encodeText, ByteArray.toList, toList_loop]
    rfl
  have hvalid : text.toUTF8.IsValidUTF8 := text.isValidUTF8
  rw [decodeText?, hbytes, String.fromUTF8?, dif_pos hvalid]
  rfl

/-! ## Files in the root -/

/-- The path is the name of an entry of the root. -/
def IsName (path : String) : Prop := '/' ∉ path.toList ∧ path ∉ ["", ".", ".."]

instance (path : String) : Decidable (IsName path) := inferInstanceAs (Decidable (_ ∧ _))

variable {path : String}

theorem splitOn_of_isName (h : IsName path) : path.splitOn "/" = [path] := by
  have hsplit := splitOn_singleton path '/'
  rw [List.splitOn_eq_singleton h.1, List.map_singleton, String.ofList_toList] at hsplit
  exact hsplit

theorem enter_of_isName (h : IsName path) : enter [] path = [path] := by
  simp only [IsName, List.mem_cons, List.not_mem_nil, or_false, not_or] at h
  obtain ⟨-, hempty, hdot, hdots⟩ := h
  rw [enter, if_neg (not_or.mpr ⟨hempty, hdot⟩), if_neg hdots, List.nil_append]

theorem parts_of_isName (h : IsName path) : parts path = [path] := by
  rw [parts, splitOn_of_isName h]
  exact enter_of_isName h

/-- **What is put into a file in the root is read there.** -/
theorem readText?_add (h : IsName path) {files : Files} (hroot : files.isDirectory [] = true)
    (text : String) : (files.add path (.file (encodeText text))).readText? path = some text := by
  have hnodes : (files.add path (.file (encodeText text))).nodes =
      ([path], .file (encodeText text)) :: files.nodes := by
    rw [add, parts_of_isName h]
  have hstart : (files.add path (.file (encodeText text))).isDirectory [] = true := by
    rw [isDirectory] at hroot ⊢
    rw [hnodes, List.lookup_cons, beq_false_of_ne (List.cons_ne_nil path []).symm]
    cases hlookup : files.nodes.lookup [] with
    | none => rfl
    | some node =>
      rw [hlookup] at hroot
      exact hroot
  -- the last part of a path is entered if it is a directory, which the file is not
  have hfile : (files.add path (.file (encodeText text))).isDirectory [path] = false := by
    rw [isDirectory, hnodes, List.lookup_cons_self]
    rfl
  have hnode : (files.add path (.file (encodeText text))).node? path =
      some (.file (encodeText text)) := by
    rw [node?, splitOn_of_isName h, follow, if_pos hstart, follow, enter_of_isName h]
    dsimp only
    rw [hfile, hnodes, List.lookup_cons_self]
    rfl
  rw [readText?, read?, hnode]
  exact decodeText?_encodeText text

/-- The extension of a name is what stands behind its only dot. -/
theorem extension_of_isName (h : IsName path) {stem rest : List Char}
    (hpath : path.toList = stem ++ '.' :: rest) (hne : stem ≠ []) (hstem : '.' ∉ stem)
    (hrest : '.' ∉ rest) : extension path = String.ofList rest := by
  have hsplit : path.splitOn "." = [String.ofList stem, String.ofList rest] := by
    have hsplit := splitOn_singleton path '.'
    rw [hpath, List.splitOn_append_cons_self_of_not_mem hstem,
      List.splitOn_eq_singleton hrest] at hsplit
    exact hsplit
  have hnonempty : String.ofList stem ≠ "" := by
    intro hempty
    exact hne (String.ofList_inj.mp (hempty.trans String.ofList_nil.symm))
  have hname : ((parts path).getLast?).getD "" = path := by
    rw [parts_of_isName h]
    rfl
  -- of the ways in which a name is cut at dots only a stem and an extension is left
  rw [extension, hname, hsplit]
  split
  · rename_i heq
    cases heq
  · rename_i heq
    cases heq
  · rename_i heq
    exact absurd (List.cons.inj heq).1 hnonempty
  · rfl

end Files

end InferenceEngine
