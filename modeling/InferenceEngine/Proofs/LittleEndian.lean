import InferenceEngine.Decoder
import Mathlib.Algebra.Order.Ring.Nat
import Mathlib.Data.List.Forall2

/-!
# Little-endian words

The raw encoding of weights has no header and no padding: each value is the word of its bit pattern,
the least byte first, and the words lie back to back. `decodeRaw_exact` is the main statement: bytes
are accepted just if there are four for every element of the layout, and decoding them is then the
inverse of writing patterns one behind the other.

A word is compared with the number that its bytes spell, `littleEndian`. Since no two words spell
the same number (`littleEndian_inj`), one direction of the inverse gives the other
(`Single.toBytes_ofBytes`).
-/

namespace InferenceEngine

/-- The number that bytes spell, the least one first. -/
def littleEndian : Bytes → Nat
  | [] => 0
  | b :: rest => b.toNat + 256 * littleEndian rest

theorem littleEndian_inj {xs ys : Bytes} (hlength : xs.length = ys.length)
    (h : littleEndian xs = littleEndian ys) : xs = ys := by
  induction xs generalizing ys with
  | nil => exact (List.length_eq_zero_iff.mp hlength.symm).symm
  | cons x xs ih =>
    obtain _ | ⟨y, ys⟩ := ys
    · cases hlength
    · simp only [littleEndian] at h
      have hx := x.toNat_lt
      have hy := y.toNat_lt
      have hhead : x = y := UInt8.toNat_inj.mp (by omega)
      rw [hhead, ih (Nat.succ.inj hlength) (by omega)]

/-! ## One word -/

namespace Single

/-- A byte that is put above the bits of a word adds what it counts there. -/
theorem toNat_or_byte {low place : UInt32} (hplace : place.toNat + 8 ≤ 32)
    (hlow : low.toNat < 2 ^ place.toNat) (b : UInt8) :
    (low ||| b.toUInt32 <<< place).toNat = low.toNat + 2 ^ place.toNat * b.toNat := by
  have hfits : b.toNat * 2 ^ place.toNat < 2 ^ 32 := by
    calc b.toNat * 2 ^ place.toNat < 2 ^ 8 * 2 ^ place.toNat :=
          Nat.mul_lt_mul_of_pos_right b.toNat_lt (Nat.two_pow_pos _)
      _ = 2 ^ (place.toNat + 8) := by rw [← Nat.pow_add, Nat.add_comm]
      _ ≤ 2 ^ 32 := Nat.pow_le_pow_right (by decide) hplace
  rw [UInt32.toNat_or, UInt32.toNat_shiftLeft, UInt8.toNat_toUInt32,
    Nat.mod_eq_of_lt (by omega : place.toNat < 32), Nat.shiftLeft_eq, Nat.mod_eq_of_lt hfits,
    ← Nat.shiftLeft_eq, Nat.or_comm, ← Nat.shiftLeft_add_eq_or_of_lt hlow, Nat.shiftLeft_eq,
    Nat.add_comm, Nat.mul_comm]

/-- A value has the pattern that its word spells. -/
theorem bits_ofBytes (a b c d : UInt8) :
    (ofBytes a b c d).bits.toNat = littleEndian [a, b, c, d] := by
  have ha := a.toNat_lt
  have hb := b.toNat_lt
  have hc := c.toNat_lt
  have hlow : a.toUInt32.toNat < 2 ^ UInt32.toNat 8 := ha
  -- byte by byte: what is there already lies below the place of the next one
  have hab : (a.toUInt32 ||| b.toUInt32 <<< 8).toNat = a.toNat + 2 ^ 8 * b.toNat :=
    toNat_or_byte (by decide) hlow b
  have habc : (a.toUInt32 ||| b.toUInt32 <<< 8 ||| c.toUInt32 <<< 16).toNat =
      a.toNat + 2 ^ 8 * b.toNat + 2 ^ 16 * c.toNat := by
    rw [← hab]
    refine toNat_or_byte (by decide) ?_ c
    show _ < 2 ^ 16
    omega
  have habcd : (ofBytes a b c d).bits.toNat =
      a.toNat + 2 ^ 8 * b.toNat + 2 ^ 16 * c.toNat + 2 ^ 24 * d.toNat := by
    rw [← habc]
    refine toNat_or_byte (by decide) ?_ d
    show _ < 2 ^ 24
    omega
  rw [habcd]
  simp only [littleEndian]
  omega

/-- A word spells the pattern of its value. -/
theorem littleEndian_toBytes (x : Single) : littleEndian x.toBytes = x.bits.toNat := by
  have hx := x.bits.toNat_lt
  have hbyte {place : UInt32} (hplace : place.toNat < 32) :
      (x.bits >>> place).toUInt8.toNat = x.bits.toNat / 2 ^ place.toNat % 256 := by
    rw [UInt32.toNat_toUInt8, UInt32.toNat_shiftRight, Nat.mod_eq_of_lt hplace,
      Nat.shiftRight_eq_div_pow]
  have hsecond : (x.bits >>> 8).toUInt8.toNat = x.bits.toNat / 2 ^ 8 % 256 := hbyte (by decide)
  have hthird : (x.bits >>> 16).toUInt8.toNat = x.bits.toNat / 2 ^ 16 % 256 := hbyte (by decide)
  have hfourth : (x.bits >>> 24).toUInt8.toNat = x.bits.toNat / 2 ^ 24 % 256 := hbyte (by decide)
  simp only [toBytes, littleEndian, UInt32.toNat_toUInt8, hsecond, hthird, hfourth]
  omega

theorem toBytes_ofBytes (a b c d : UInt8) : (ofBytes a b c d).toBytes = [a, b, c, d] :=
  littleEndian_inj rfl ((littleEndian_toBytes _).trans (bits_ofBytes a b c d))

theorem ofBytes_of_toBytes {x : Single} {a b c d : UInt8} (h : x.toBytes = [a, b, c, d]) :
    ofBytes a b c d = x := by
  have hbits : (ofBytes a b c d).bits = x.bits := by
    rw [← UInt32.toNat_inj, bits_ofBytes, ← h, littleEndian_toBytes]
  exact congrArg Single.mk hbits

end Single

/-! ## Sequences of words -/

theorem Single.length_toBytes (x : Single) : x.toBytes.length = 4 := rfl

/-- Less than a word is less than four bytes. -/
theorem length_lt_of_short {bytes : Bytes}
    (h : ∀ a b c d rest, bytes = a :: b :: c :: d :: rest → False) : bytes.length < 4 := by
  match bytes with
  | [] | [_] | [_, _] | [_, _, _] => simp
  | a :: b :: c :: d :: rest => exact (h a b c d rest rfl).elim

/-- The bytes are whole words. -/
inductive Whole : Bytes → Prop
  /-- there are none -/
  | nil : Whole []
  /-- a word, and whole words behind it -/
  | word (a b c d : UInt8) {rest : Bytes} (h : Whole rest) : Whole (a :: b :: c :: d :: rest)

theorem whole_of_length {bytes : Bytes} (h : bytes.length % 4 = 0) : Whole bytes := by
  fun_induction words bytes with
  | case1 a b c d rest ih =>
    refine .word a b c d (ih ?_)
    simp only [List.length_cons] at h
    omega
  | case2 bytes hshort =>
    have hlt := length_lt_of_short hshort
    have hnil : bytes = [] := List.length_eq_zero_iff.mp (by omega)
    exact hnil ▸ .nil

/-- Bytes that are left over at the end do not count. -/
theorem length_words (bytes : Bytes) : (words bytes).length = bytes.length / 4 := by
  fun_induction words bytes with
  | case1 a b c d rest ih =>
    simp only [List.length_cons, ih]
    omega
  | case2 bytes hshort =>
    have hlt := length_lt_of_short hshort
    rw [List.length_nil]
    omega

/-- A value is the word at its place. -/
theorem getElem?_words {bytes : Bytes} {i : Nat} (hi : i < (words bytes).length) :
    ∃ x, (words bytes)[i]? = some x ∧
      x.bits.toNat = littleEndian ((bytes.drop (4 * i)).take 4) := by
  fun_induction words bytes generalizing i with
  | case1 a b c d rest ih =>
    cases i with
    | zero => exact ⟨_, rfl, Single.bits_ofBytes a b c d⟩
    | succ i => exact ih (Nat.lt_of_succ_lt_succ hi)
  | case2 bytes hshort => exact absurd hi (Nat.not_lt_zero i)

namespace Whole

variable {bytes : Bytes}

/-- Behind whole words decoding begins anew. -/
theorem words_append (h : Whole bytes) (more : Bytes) :
    words (bytes ++ more) = words bytes ++ words more := by
  induction h with
  | nil => rfl
  | word a b c d h ih => exact congrArg (Single.ofBytes a b c d :: ·) ih

/-- Encoding gives back the words that were decoded. -/
theorem flatMap_toBytes_words (h : Whole bytes) :
    (words bytes).flatMap Single.toBytes = bytes := by
  induction h with
  | nil => rfl
  | word a b c d h ih =>
    rw [words, List.flatMap_cons, Single.toBytes_ofBytes, ih]
    rfl

end Whole

/-- Decoding gives back the values that were encoded. -/
theorem words_flatMap_toBytes (xs : List Single) : words (xs.flatMap Single.toBytes) = xs := by
  induction xs with
  | nil => rfl
  | cons x xs ih =>
    have hwhole : Whole x.toBytes := .word _ _ _ _ .nil
    have hword : words x.toBytes = [x] := congrArg ([·]) (Single.ofBytes_of_toBytes rfl)
    rw [List.flatMap_cons, hwhole.words_append, hword, ih]
    rfl

theorem length_flatMap_toBytes (xs : List Single) :
    (xs.flatMap Single.toBytes).length = 4 * xs.length := by
  induction xs with
  | nil => rfl
  | cons x xs ih =>
    rw [List.flatMap_cons, List.length_append, ih, Single.length_toBytes, List.length_cons]
    omega

/-! ## Decoding -/

variable {bytes : Bytes} {l : Layout} {values : List Single}

/-- Two checks of the number of bytes are one: there have to be four for each element. The product
may be larger than any word, and is not computed. -/
theorem decodeRaw_cases (bytes : Bytes) (l : Layout) :
    (bytes.length = 4 * l.totalSize.toNat ∧ decodeRaw bytes l = .ok (words bytes)) ∨
      bytes.length ≠ 4 * l.totalSize.toNat ∧ ∃ fault, decodeRaw bytes l = .error (.decode fault) ∧
        fault = if bytes.length % 4 ≠ 0 then .ragged bytes.length
          else .miscounted (bytes.length / 4) l.totalSize.toNat := by
  rw [decodeRaw]
  by_cases hragged : bytes.length % 4 ≠ 0
  · rw [if_pos hragged, if_pos hragged]
    exact .inr ⟨by omega, _, rfl, rfl⟩
  · rw [if_neg hragged, if_neg hragged]
    by_cases hcount : bytes.length / 4 ≠ l.totalSize.toNat
    · rw [if_pos hcount]
      exact .inr ⟨by omega, _, rfl, rfl⟩
    · rw [if_neg hcount]
      exact .inl ⟨by omega, rfl⟩

theorem decodeRaw_eq_ok :
    decodeRaw bytes l = .ok values ↔
      bytes.length = 4 * l.totalSize.toNat ∧ values = words bytes := by
  obtain ⟨hlength, hdecode⟩ | ⟨hlength, fault, hdecode, -⟩ := decodeRaw_cases bytes l
  · rw [hdecode, Outcome.ok.injEq, eq_comm (a := words bytes)]
    exact (and_iff_right hlength).symm
  · rw [hdecode]
    exact ⟨nofun, fun h => absurd h.1 hlength⟩

theorem whole_of_decodeRaw (h : decodeRaw bytes l = .ok values) : Whole bytes := by
  have hlength := (decodeRaw_eq_ok.mp h).1
  exact whole_of_length (by omega)

/-- Blobs that are decoded one by one are decoded together, if the layout has room for all. -/
theorem words_flatten {blobs : List Bytes} {parts : List (List Single)}
    (h : List.Forall₂ (fun blob part => ∃ l, decodeRaw blob l = .ok part) blobs parts) :
    words blobs.flatten = parts.flatten ∧ blobs.flatten.length = 4 * parts.flatten.length := by
  induction h with
  | nil => exact ⟨rfl, rfl⟩
  | @cons blob part blobs parts hblob hrest ih =>
    obtain ⟨l, hdecode⟩ := hblob
    -- a blob that is accepted ends with a whole word, so the next one begins with one
    have hwhole := whole_of_decodeRaw hdecode
    obtain ⟨hlength, rfl⟩ := decodeRaw_eq_ok.mp hdecode
    refine ⟨?_, ?_⟩
    · rw [List.flatten_cons, List.flatten_cons, hwhole.words_append, ih.1]
    · rw [List.flatten_cons, List.flatten_cons, List.length_append, List.length_append, ih.2,
        length_words]
      omega

/-- **Raw decoding is the inverse of little-endian encoding.** Let any bytes be decoded for any
layout.

* They are accepted just if there are four for each element of the layout. Otherwise they are
  ragged, or they hold another number of values, and this is the fault that is reported.
* If they are accepted there is one value for each element, and its pattern is the number that the
  four bytes at its place spell; the words of the values are the bytes again.
* The words of as many values as the layout has elements are decoded to these values.
* Blobs that are decoded one by one are decoded to the same values when they lie back to back. -/
theorem decodeRaw_exact (bytes : Bytes) (l : Layout) :
    ((∃ values, decodeRaw bytes l = .ok values) ↔ bytes.length = 4 * l.totalSize.toNat) ∧
    (bytes.length ≠ 4 * l.totalSize.toNat →
      decodeRaw bytes l = .error (.decode (if bytes.length % 4 ≠ 0 then .ragged bytes.length
        else .miscounted (bytes.length / 4) l.totalSize.toNat))) ∧
    (∀ values, decodeRaw bytes l = .ok values → values.length = l.totalSize.toNat ∧
      (∀ i < l.totalSize.toNat, ∃ x, values[i]? = some x ∧
        x.bits.toNat = littleEndian ((bytes.drop (4 * i)).take 4)) ∧
      values.flatMap Single.toBytes = bytes) ∧
    (∀ x : Single, x.toBytes.length = 4 ∧ littleEndian x.toBytes = x.bits.toNat) ∧
    (∀ values, values.length = l.totalSize.toNat →
      decodeRaw (values.flatMap Single.toBytes) l = .ok values) ∧
    ∀ blobs parts, List.Forall₂ (fun blob part => ∃ l', decodeRaw blob l' = .ok part) blobs parts →
      parts.flatten.length = l.totalSize.toNat →
        decodeRaw blobs.flatten l = .ok parts.flatten := by
  refine ⟨?_, fun hlength => ?_, fun values hdecode => ?_,
    fun x => ⟨x.length_toBytes, x.littleEndian_toBytes⟩, fun values hlength => ?_,
    fun blobs parts hparts hlength => ?_⟩
  · -- accepted just if there are four bytes for each element
    constructor
    · rintro ⟨values, hdecode⟩
      exact (decodeRaw_eq_ok.mp hdecode).1
    · exact fun hlength => ⟨_, decodeRaw_eq_ok.mpr ⟨hlength, rfl⟩⟩
  · -- the fault otherwise
    obtain ⟨hlength', -⟩ | ⟨-, fault, hdecode, rfl⟩ := decodeRaw_cases bytes l
    · exact absurd hlength' hlength
    · exact hdecode
  · -- the values, place by place, and the bytes again
    have hwhole := whole_of_decodeRaw hdecode
    obtain ⟨hlength, rfl⟩ := decodeRaw_eq_ok.mp hdecode
    have hcount : (words bytes).length = l.totalSize.toNat := by
      rw [length_words]
      omega
    exact ⟨hcount, fun i hi => getElem?_words (hcount ▸ hi), hwhole.flatMap_toBytes_words⟩
  · -- words of values are decoded to these
    refine decodeRaw_eq_ok.mpr ⟨?_, (words_flatMap_toBytes values).symm⟩
    rw [length_flatMap_toBytes, hlength]
  · -- blobs back to back
    obtain ⟨hwords, hbytes⟩ := words_flatten hparts
    exact decodeRaw_eq_ok.mpr ⟨by rw [hbytes, hlength], hwords.symm⟩

/-- A pattern that is not a number is decoded like any other, and seven bytes are too few. -/
theorem decodeRaw_exact_patterns :
    decodeRaw [0, 0, 0xc0, 0x7f, 0, 0, 0x80, 0x3f] (.empty 2) = .ok [⟨0x7fc00000⟩, .one] ∧
      decodeRaw [0, 0, 0xc0, 0x7f, 0, 0, 0x80] (.empty 2) = .error (.decode (.ragged 7)) := by
  have hwords : [⟨0x7fc00000⟩, .one].flatMap Single.toBytes =
      [0, 0, 0xc0, 0x7f, 0, 0, 0x80, 0x3f] := by decide
  obtain ⟨-, -, -, -, hencoded, -⟩ := decodeRaw_exact [] (.empty 2)
  obtain ⟨-, hrefused, -⟩ := decodeRaw_exact [0, 0, 0xc0, 0x7f, 0, 0, 0x80] (.empty 2)
  refine ⟨?_, hrefused (by decide)⟩
  rw [← hwords]
  exact hencoded _ rfl

end InferenceEngine
