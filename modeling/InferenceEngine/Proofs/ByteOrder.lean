import InferenceEngine.Proofs.Paths

/-!
# Texts in the order of their bytes

Texts are compared by code points. Their bytes are in the same order (`Files.encodeText_lt_iff`): a
character is written as one to four bytes, the more of them the greater its first byte, and the
bytes behind the first are the last digits of its number to base 64.
-/

namespace InferenceEngine.Files

variable {m n count mark count' mark' : Nat} {u v : List UInt8}

/-! ## Digits -/

/-- Bytes are compared as the numbers they are made from. -/
theorem ofNat_cons_lt (hn : n < 256) (h : m < n ∨ m = n ∧ u < v) :
    UInt8.ofNat m :: u < UInt8.ofNat n :: v := by
  rw [List.cons_lt_cons_iff]
  obtain hlt | ⟨rfl, htail⟩ := h
  · left
    rw [UInt8.lt_iff_toNat_lt, UInt8.toNat_ofNat_of_lt' (hlt.trans hn), UInt8.toNat_ofNat_of_lt' hn]
    exact hlt
  · exact .inr ⟨rfl, htail⟩

/-- The bytes behind the first one: the last `count` digits of a number, each with its mark. -/
def trail : Nat → Nat → List UInt8
  | 0, _ => []
  | count + 1, n => UInt8.ofNat (n / 64 ^ count % 64 + 0x80) :: trail count n

/-- Of two numbers with as many digits the greater one has the greater bytes, whatever follows
them. -/
theorem trail_lt (h : m % 64 ^ count < n % 64 ^ count) :
    trail count m ++ u < trail count n ++ v := by
  induction count with
  | zero =>
    rw [Nat.pow_zero, Nat.mod_one, Nat.mod_one] at h
    exact absurd h (Nat.lt_irrefl 0)
  | succ count ih =>
    rw [Nat.mod_pow_succ, Nat.mod_pow_succ] at h
    have hpos : 0 < 64 ^ count := Nat.pow_pos (by decide)
    have hm := Nat.mod_lt m hpos
    have hn := Nat.mod_lt n hpos
    have hdigit := Nat.mod_lt (n / 64 ^ count) (show 0 < 64 by decide)
    refine ofNat_cons_lt (by omega) ?_
    -- the digit in front decides, unless both have the same one
    rcases Nat.lt_trichotomy (m / 64 ^ count % 64) (n / 64 ^ count % 64) with hlt | heq | hgt
    · exact .inl (Nat.add_lt_add_right hlt 0x80)
    · rw [heq] at h ⊢
      exact .inr ⟨rfl, ih (Nat.lt_of_add_lt_add_right h)⟩
    · have hstep := Nat.mul_le_mul_left (64 ^ count) hgt
      rw [Nat.mul_succ] at hstep
      omega

/-! ## Characters -/

/-- How a number is written: the count of the bytes behind the first one, and the mark of that. -/
inductive Form (n : Nat) : Nat → Nat → Prop
  | one (hlt : n < 0x80) : Form n 0 0
  | two (hle : 0x80 ≤ n) (hlt : n < 0x800) : Form n 1 0xc0
  | three (hle : 0x800 ≤ n) (hlt : n < 0x10000) : Form n 2 0xe0
  | four (hle : 0x10000 ≤ n) (hlt : n < 0x110000) : Form n 3 0xf0

/-- Every character is written in one of the four forms, with the digits that its first byte has no
room for behind it. -/
theorem encodeChar_eq (c : Char) : ∃ count mark, Form c.toNat count mark ∧
    String.utf8EncodeChar c = UInt8.ofNat (c.toNat / 64 ^ count + mark) :: trail count c.toNat := by
  have hmax : c.toNat < 0x110000 := by
    have hvalid : c.toNat.isValidChar := c.valid
    omega
  rw [String.utf8EncodeChar, Char.toNat_val]
  -- one case for each form; all digits in front of the trail fit into the first byte
  split
  · refine ⟨0, 0, .one (by omega), ?_⟩
    simp [trail]
  · split
    · refine ⟨1, 0xc0, .two (by omega) (by omega), ?_⟩
      rw [Nat.mod_eq_of_lt (show c.toNat / 64 < 32 by omega)]
      simp [trail]
    · split
      · refine ⟨2, 0xe0, .three (by omega) (by omega), ?_⟩
        rw [Nat.mod_eq_of_lt (show c.toNat / 4096 < 16 by omega)]
        simp [trail]
      · refine ⟨3, 0xf0, .four (by omega) hmax, ?_⟩
        rw [Nat.mod_eq_of_lt (show c.toNat / 262144 < 8 by omega)]
        simp [trail]

/-- The first byte tells a form with more bytes from one with fewer. -/
theorem lead_lt (hm : Form m count mark) (hn : Form n count' mark') (h : m < n) :
    m / 64 ^ count + mark < n / 64 ^ count' + mark' ∨ count = count' ∧ mark = mark' := by
  cases hm <;> cases hn <;> omega

theorem lead_lt_byte (h : Form n count mark) : n / 64 ^ count + mark < 256 := by
  cases h <;> omega

/-- The bytes of a character are below those of a greater one, whatever follows. -/
theorem encodeChar_lt {c d : Char} (h : c < d) :
    String.utf8EncodeChar c ++ u < String.utf8EncodeChar d ++ v := by
  have hlt : c.toNat < d.toNat := h
  obtain ⟨count, mark, hc, hcbytes⟩ := encodeChar_eq c
  obtain ⟨count', mark', hd, hdbytes⟩ := encodeChar_eq d
  rw [hcbytes, hdbytes]
  refine ofNat_cons_lt (lead_lt_byte hd) ?_
  obtain hlead | ⟨rfl, rfl⟩ := lead_lt hc hd hlt
  · exact .inl hlead
  · -- the same number of bytes: the first that differs decides
    obtain hlead | heq := Nat.lt_or_eq_of_le (Nat.div_le_div_right (c := 64 ^ count) hlt.le)
    · exact .inl (Nat.add_lt_add_right hlead mark)
    · refine .inr ⟨congrArg (· + mark) heq, trail_lt ?_⟩
      have hcd := Nat.div_add_mod c.toNat (64 ^ count)
      have hdd := Nat.div_add_mod d.toNat (64 ^ count)
      rw [heq] at hcd
      omega

/-! ## Texts -/

/-- The bytes of two texts are in the order of their characters: the first character that differs
decides, and no bytes of a character are the start of those of another one. -/
theorem flatMap_encodeChar_lt {cs ds : List Char} (h : cs < ds) :
    cs.flatMap String.utf8EncodeChar < ds.flatMap String.utf8EncodeChar := by
  induction cs generalizing ds with
  | nil =>
    cases ds with
    | nil => exact absurd h (List.lt_irrefl [])
    | cons d ds =>
      obtain ⟨count, mark, -, hbytes⟩ := encodeChar_eq d
      rw [List.flatMap_cons, hbytes]
      exact List.nil_lt_cons _ _
  | cons c cs ih =>
    cases ds with
    | nil => exact absurd h (List.not_lt_nil _)
    | cons d ds =>
      rw [List.flatMap_cons, List.flatMap_cons]
      obtain hlt | ⟨rfl, htail⟩ := List.cons_lt_cons_iff.mp h
      · exact encodeChar_lt hlt
      · exact List.append_left_lt (ih htail)

/-- A text is written character by character. -/
theorem encodeText_eq (text : String) :
    encodeText text = text.toList.flatMap String.utf8EncodeChar := by
  have hbytes : text.toByteArray = (text.toList.flatMap String.utf8EncodeChar).toByteArray := by
    rw [← String.utf8Encode_toList]
    rfl
  rw [encodeText, ByteArray.toList, toList_loop, String.toUTF8_eq_toByteArray, hbytes,
    List.toList_data_toByteArray]
  rfl

/-- **Texts are in the order of their bytes.** -/
theorem encodeText_lt_iff {a b : String} : encodeText a < encodeText b ↔ a < b := by
  have hmono {a b : String} (h : a < b) : encodeText a < encodeText b := by
    rw [encodeText_eq, encodeText_eq]
    exact flatMap_encodeChar_lt h
  refine ⟨fun h => ?_, hmono⟩
  rcases lt_trichotomy a b with hlt | rfl | hgt
  · exact hlt
  · exact absurd h (List.lt_irrefl _)
  · exact absurd (hmono hgt) (List.lt_asymm h)

end InferenceEngine.Files
