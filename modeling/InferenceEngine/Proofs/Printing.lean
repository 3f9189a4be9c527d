import InferenceEngine.Json.Value
import InferenceEngine.Proofs.Grammar

/-!
# What is printed is read

Every tree that a value is written as can be written down (`Tree.Proper`), and the printed text of
such a tree is one that the grammar spells. So the reader gets back the very tree
(`Tree.ofText?_pretty`, `Tree.ofText?_compact`).
-/

namespace InferenceEngine

/-! ## Digits -/

namespace Digits

/-- The digits of a number are put in front of the tail, the first of them not zero unless the
number is. -/
theorem push_spec {rounds n : Nat} (h : n < rounds) (tail : List Digit) :
    ∃ d ds, push rounds n tail = d :: ds ∧ (n ≠ 0 → d ≠ 0) ∧ (n = 0 → ds = tail) := by
  induction rounds generalizing n tail with
  | zero => exact absurd h (Nat.not_lt_zero n)
  | succ rounds ih =>
    rw [push]
    split
    · rename_i hlt
      refine ⟨_, _, rfl, fun hn hzero => hn ?_, fun _ => rfl⟩
      have hval : n % 10 = 0 := congrArg Fin.val hzero
      omega
    · rename_i hge
      obtain ⟨d, ds, hpush, hd, -⟩ := ih (n := n / 10) (by omega) (⟨n % 10, by omega⟩ :: tail)
      exact ⟨d, ds, hpush, fun _ => hd (by omega), fun hn => absurd hn (by omega)⟩

/-- The digits of a number: there is one, and a zero in front stands alone. -/
theorem ofNat_spec (n : Nat) :
    ∃ d ds, ofNat n = d :: ds ∧ (n ≠ 0 → d ≠ 0) ∧ (n = 0 → ds = []) :=
  push_spec (Nat.lt_succ_self n) []

/-- Even zero is written with a digit. -/
theorem ofNat_ne_nil (n : Nat) : ofNat n ≠ [] := by
  obtain ⟨d, ds, h, -⟩ := ofNat_spec n
  rw [h]
  exact List.cons_ne_nil _ _

/-- No number is written with a zero in front, except for zero itself. -/
theorem ofNat_lead {n : Nat} {ds : List Digit} (h : ofNat n = (0 : Digit) :: ds) : ds = [] := by
  obtain ⟨d, ds', h', hd, hds⟩ := ofNat_spec n
  obtain ⟨rfl, rfl⟩ := List.cons.inj (h'.symm.trans h)
  exact hds (not_not.mp fun hn => hd hn rfl)

end Digits

namespace Numeral

/-- A numeral is proper if it has a whole part without a zero in front, and an exponent with digits
or none. -/
theorem proper_cons {negative : Bool} {d : Digit} {ds fraction : List Digit}
    {exponent? : Option (Bool × List Digit)} (hlead : d = 0 → ds = [])
    (hexponent : ∀ negative' ds', exponent? = some (negative', ds') → ds' ≠ []) :
    Proper ⟨negative, d :: ds, fraction, exponent?⟩ where
  whole := List.cons_ne_nil _ _
  lead ds' h := by
    obtain ⟨hd, rfl⟩ := List.cons.inj h
    exact hlead hd
  exponent := hexponent

theorem proper_ofInt (n : Int) : (ofInt n).Proper where
  whole := Digits.ofNat_ne_nil _
  lead _ h := Digits.ofNat_lead h
  exponent := nofun

/-- A numeral with a fraction is not written as a whole number, so it is read as a double. -/
theorem isWhole_of_fraction {negative : Bool} {whole fraction : List Digit}
    {exponent? : Option (Bool × List Digit)} (h : fraction ≠ []) :
    isWhole ⟨negative, whole, fraction, exponent?⟩ = false := by
  cases fraction with
  | nil => exact absurd rfl h
  | cons d ds => rfl

end Numeral

namespace Binary.Style

/-- Whatever is written for a decimal can be written down, and does not look like an integer. -/
theorem numeral_spec (style : Style) (negative : Bool) (x : Decimal) :
    (style.numeral negative x).Proper ∧ (style.numeral negative x).isWhole = false := by
  obtain ⟨d, ds, hdigits, hd, -⟩ := Digits.ofNat_spec x.digits
  by_cases hzero : x.digits = 0
  · rw [numeral, if_pos hzero]
    exact ⟨Numeral.proper_cons (fun _ => rfl) nofun, rfl⟩
  have hlead {ds' : List Digit} : d = 0 → ds' = [] := fun h => absurd h (hd hzero)
  rw [numeral, if_neg hzero, hdigits]
  split
  · split
    · -- all digits stand before the point
      exact ⟨Numeral.proper_cons hlead nofun, rfl⟩
    · split
      · -- the point stands among the digits
        rename_i hexponent hfirst
        refine ⟨Numeral.proper_cons hlead nofun, Numeral.isWhole_of_fraction ?_⟩
        rw [Ne, List.drop_eq_nil_iff]
        rw [List.length_cons] at hfirst ⊢
        omega
      · -- all digits stand after the point
        refine ⟨Numeral.proper_cons (fun _ => rfl) nofun, Numeral.isWhole_of_fraction ?_⟩
        exact List.append_ne_nil_of_right_ne_nil _ (List.cons_ne_nil _ _)
  · refine ⟨Numeral.proper_cons hlead fun negative' ds' h => ?_, ?_⟩
    · obtain ⟨-, rfl⟩ := Prod.mk.inj (Option.some.inj h)
      exact Digits.ofNat_ne_nil _
    · rw [Numeral.isWhole]
      exact Bool.and_false _

end Binary.Style

namespace Json

/-- Whatever number is written, its numeral is proper. -/
theorem Number.proper_numeral (n : Number) : n.numeral.Proper := by
  cases n with
  | integer n fits => exact Numeral.proper_ofInt n
  | real x finite => exact (Binary.Style.numeral_spec _ _ _).1

/-! ## Strings -/

/-- A character that has no short escape is written as itself, or by its number. -/
theorem Glyph.ofChar_cases (c : Char) :
    (∃ letter, ofChar c = .short letter ∧ shortMeaning? letter = some c) ∨
    (c.toNat < 0x20 ∧ ofChar c = .unit c.toNat) ∨
    (0x20 ≤ c.toNat ∧ c ≠ '"' ∧ c ≠ '\\' ∧ ofChar c = .plain c) := by
  by_cases hshort : ∃ letter, ofChar c = .short letter ∧ shortMeaning? letter = some c
  · exact .inl hshort
  have hne {d letter : Char} (hd : ofChar d = .short letter) (hm : shortMeaning? letter = some d) :
      c ≠ d := by
    rintro rfl
    exact hshort ⟨letter, hd, hm⟩
  have hquote : c ≠ '"' := hne rfl rfl
  have hslash : c ≠ '\\' := hne rfl rfl
  have hchar : ofChar c = if c.toNat < 0x20 then unit c.toNat else plain c :=
    ofChar.eq_8 c hquote hslash (hne rfl rfl) (hne rfl rfl) (hne rfl rfl) (hne rfl rfl)
      (hne rfl rfl)
  by_cases hcontrol : c.toNat < 0x20
  · rw [if_pos hcontrol] at hchar
    exact .inr (.inl ⟨hcontrol, hchar⟩)
  · rw [if_neg hcontrol] at hchar
    exact .inr (.inr ⟨Nat.not_lt.mp hcontrol, hquote, hslash, hchar⟩)

/-- Every character has a proper way to be written: plain, with an escape of its own, or by its
code. -/
theorem Glyph.proper_ofChar (c : Char) : (ofChar c).Proper := by
  rcases ofChar_cases c with ⟨letter, h, hm⟩ | ⟨hlt, h⟩ | ⟨hle, hquote, hslash, h⟩
  · rw [h, Proper, hm]
    rfl
  · rw [h]
    exact Nat.lt_trans hlt (by decide)
  · rw [h]
    exact ⟨hle, hquote, hslash⟩

theorem Literal.proper_ofString (s : String) : (ofString s).Proper := by
  intro g hg
  obtain ⟨c, -, rfl⟩ := List.mem_map.mp hg
  exact Glyph.proper_ofChar c

/-! ## Trees -/

/-- The literals of a tree can be written. -/
inductive Tree.Proper : Tree → Prop
  | null : Proper .null
  | bool (b : Bool) : Proper (.bool b)
  | number {n : Numeral} (h : n.Proper) : Proper (.number n)
  | string {l : Literal} (h : l.Proper) : Proper (.string l)
  | array {xs : List Tree} (h : ∀ x ∈ xs, Proper x) : Proper (.array xs)
  | object {ms : List (Literal × Tree)} (hk : ∀ m ∈ ms, m.1.Proper) (h : ∀ m ∈ ms, Proper m.2) :
    Proper (.object ms)

namespace Tree

theorem proper_ofString (s : String) : (ofString s).Proper := .string (Literal.proper_ofString s)

theorem proper_ofNat (n : Nat) : (ofNat n).Proper := .number (Numeral.proper_ofInt n)

theorem proper_ofStrings (xs : List String) : (ofStrings xs).Proper := by
  refine .array fun x hx => ?_
  obtain ⟨s, -, rfl⟩ := List.mem_map.mp hx
  exact proper_ofString s

/-- A tree is one that a text spells if all its parts are. Names may be any texts. -/
theorem proper_ofMembers {ms : List (String × Tree)} (h : ∀ m ∈ ms, m.2.Proper) :
    (ofMembers ms).Proper := by
  refine .object (fun m hm => ?_) (fun m hm => ?_)
  · obtain ⟨e, -, rfl⟩ := List.mem_map.mp hm
    exact Literal.proper_ofString e.1
  · obtain ⟨e, he, rfl⟩ := List.mem_map.mp hm
    exact h e he

/-! ## Printing -/

/-- A new line with its indentation is nothing but blanks. -/
theorem blanks_newline (level : Nat) : Blanks (newline level) := by
  intro c hc
  rcases List.mem_cons.mp hc with rfl | hc
  · rfl
  · rw [List.eq_of_mem_replicate hc]
    rfl

/-- An element on a line of its own. -/
theorem spells_line (level : Nat) {t : Tree} {cs after : List Char} (h : Spells t cs)
    (ha : Blanks after) : SpellsElement t (newline level ++ cs ++ after) := by
  rw [List.append_assoc]
  exact .intro (blanks_newline level) h ha

/-- A member on a line of its own. -/
theorem spells_memberLine (level : Nat) {k : Literal} {t : Tree} {cs after : List Char}
    (hk : k.Proper) (h : Spells t cs) (ha : Blanks after) :
    SpellsMember (k, t) (newline level ++ k.text ++ ':' :: ' ' :: cs ++ after) := by
  have hblank : Blanks [' '] := by
    intro c hc
    rw [List.mem_singleton.mp hc]
    rfl
  have hmember := SpellsMember.intro (blanks_newline level) hk blanks_nil
    (.intro hblank h ha)
  simpa using hmember

mutual

/-- The printed text of a tree is one that the grammar spells. -/
theorem spells_prettyAt (level : Nat) : ∀ t : Tree, t.Proper → Spells t (prettyAt level t)
  | null, _ => .null
  | bool true, _ => .yes
  | bool false, _ => .no
  | number n, h => by
    cases h with
    | number hn => exact .number hn
  | string l, h => by
    cases h with
    | string hl => exact .string hl
  | array [], _ => .emptyArray blanks_nil
  | array (x :: xs), h => by
    cases h with
    | array h => exact .array (spells_prettyItems level (x :: xs) (List.cons_ne_nil x xs) h)
  | object [], _ => .emptyObject blanks_nil
  | object (m :: ms), h => by
    cases h with
    | object hk h =>
      exact .object (spells_prettyMembers level (m :: ms) (List.cons_ne_nil m ms) hk h)

/-- The items of an array are spelled by their lines, one for each item, with commas between
them. -/
theorem spells_prettyItems (level : Nat) : ∀ xs : List Tree, xs ≠ [] → (∀ x ∈ xs, x.Proper) →
    SpellsItems xs (prettyItems level xs)
  | [], hne, _ => absurd rfl hne
  | [x], _, h => by
    have hx := spells_prettyAt (level + 1) x (h x List.mem_cons_self)
    exact .last (spells_line (level + 1) hx (blanks_newline level))
  | x :: y :: rest, _, h => by
    have hx := spells_prettyAt (level + 1) x (h x List.mem_cons_self)
    have hrest := spells_prettyItems level (y :: rest) (List.cons_ne_nil y rest)
      fun z hz => h z (List.mem_cons_of_mem _ hz)
    have hline := spells_line (level + 1) hx blanks_nil
    rw [List.append_nil] at hline
    exact .cons hline hrest

/-- So are the members of an object. -/
theorem spells_prettyMembers (level : Nat) : ∀ ms : List (Literal × Tree), ms ≠ [] →
    (∀ m ∈ ms, m.1.Proper) → (∀ m ∈ ms, m.2.Proper) → SpellsMembers ms (prettyMembers level ms)
  | [], hne, _, _ => absurd rfl hne
  | [(k, x)], _, hk, h => by
    have hx := spells_prettyAt (level + 1) x (h _ List.mem_cons_self)
    exact .last (spells_memberLine (level + 1) (hk _ List.mem_cons_self) hx (blanks_newline level))
  | (k, x) :: m :: rest, _, hk, h => by
    have hx := spells_prettyAt (level + 1) x (h _ List.mem_cons_self)
    have hrest := spells_prettyMembers level (m :: rest) (List.cons_ne_nil m rest)
      (fun m' hm => hk m' (List.mem_cons_of_mem _ hm))
      fun m' hm => h m' (List.mem_cons_of_mem _ hm)
    have hline := spells_memberLine (level + 1) (hk _ List.mem_cons_self) hx blanks_nil
    rw [List.append_nil] at hline
    exact .cons hline hrest

end

/-! ## Printing without blanks -/

theorem spells_bare {t : Tree} {cs : List Char} (h : Spells t cs) : SpellsElement t cs := by
  simpa using SpellsElement.intro blanks_nil h blanks_nil

/-- A member without any blanks is spelled by its key, a colon and its value. -/
theorem spells_bareMember {k : Literal} {t : Tree} {cs : List Char} (hk : k.Proper)
    (h : Spells t cs) : SpellsMember (k, t) (k.text ++ ':' :: cs) := by
  simpa using SpellsMember.intro blanks_nil hk blanks_nil (spells_bare h)

mutual

/-- The text of a tree without blanks is one that the grammar spells. -/
theorem spells_compact : ∀ t : Tree, t.Proper → Spells t t.compact
  | null, _ => .null
  | bool true, _ => .yes
  | bool false, _ => .no
  | number n, h => by
    cases h with
    | number hn => exact .number hn
  | string l, h => by
    cases h with
    | string hl => exact .string hl
  | array [], _ => .emptyArray blanks_nil
  | array (x :: xs), h => by
    cases h with
    | array h => exact .array (spells_compactItems (x :: xs) (List.cons_ne_nil x xs) h)
  | object [], _ => .emptyObject blanks_nil
  | object (m :: ms), h => by
    cases h with
    | object hk h => exact .object (spells_compactMembers (m :: ms) (List.cons_ne_nil m ms) hk h)

/-- Without blanks, items are spelled one behind the other. -/
theorem spells_compactItems : ∀ xs : List Tree, xs ≠ [] → (∀ x ∈ xs, x.Proper) →
    SpellsItems xs (compactItems xs)
  | [], hne, _ => absurd rfl hne
  | [x], _, h => .last (spells_bare (spells_compact x (h x List.mem_cons_self)))
  | x :: y :: rest, _, h => by
    have hx := spells_compact x (h x List.mem_cons_self)
    have hrest := spells_compactItems (y :: rest) (List.cons_ne_nil y rest)
      fun z hz => h z (List.mem_cons_of_mem _ hz)
    exact .cons (spells_bare hx) hrest

/-- So are members. -/
theorem spells_compactMembers : ∀ ms : List (Literal × Tree), ms ≠ [] → (∀ m ∈ ms, m.1.Proper) →
    (∀ m ∈ ms, m.2.Proper) → SpellsMembers ms (compactMembers ms)
  | [], hne, _, _ => absurd rfl hne
  | [(k, x)], _, hk, h => by
    have hx := spells_compact x (h _ List.mem_cons_self)
    have hlast := SpellsMembers.last (spells_bareMember (hk _ List.mem_cons_self) hx)
    simpa [compactMembers] using hlast
  | (k, x) :: m :: rest, _, hk, h => by
    have hx := spells_compact x (h _ List.mem_cons_self)
    have hrest := spells_compactMembers (m :: rest) (List.cons_ne_nil m rest)
      (fun m' hm => hk m' (List.mem_cons_of_mem _ hm))
      fun m' hm => h m' (List.mem_cons_of_mem _ hm)
    have hcons := SpellsMembers.cons (spells_bareMember (hk _ List.mem_cons_self) hx) hrest
    simpa [compactMembers] using hcons

end

/-! ## Reading what is printed -/

/-- **What is printed is read.** The printed text of a tree whose literals can be written is read as
that tree. -/
theorem ofText?_pretty {t : Tree} (h : t.Proper) : ofText? (String.ofList t.pretty) = some t := by
  have helement : SpellsElement t ([] ++ (t.pretty ++ [])) :=
    .intro blanks_nil (spells_prettyAt 0 t h) blanks_nil
  rw [List.nil_append, List.append_nil] at helement
  rw [ofText?, String.toList_ofList]
  exact ofChars?_of_spells helement

/-- So is its text without blanks. -/
theorem ofText?_compact {t : Tree} (h : t.Proper) :
    ofText? (String.ofList t.compact) = some t := by
  rw [ofText?, String.toList_ofList]
  exact ofChars?_of_spells (spells_bare (spells_compact t h))

end Tree

end Json

end InferenceEngine
