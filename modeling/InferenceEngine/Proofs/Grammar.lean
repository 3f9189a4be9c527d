import InferenceEngine.Json.Printer
import InferenceEngine.Json.Reader
import Mathlib.Data.List.DropRight
import Mathlib.Tactic.IntervalCases

/-!
# The grammar of JSON text

`Spells t cs` says that `cs` is a text of the tree `t`: its tokens in order, with any blanks between
them. `Tree.ofChars?_of_spells` is the main statement: whatever the grammar spells is read, and as the
tree that it spells.

* `Read.number_text`, `Read.literal_text` — the tokens are read up to where they end; a number has no
  mark at its end, so what follows has to stop it (`Read.Stops`).
* `Read.reads` — values, items and members by one induction on the budget of the reader.
-/

namespace InferenceEngine

/-! ## Numbers -/

/-- The literal can be written: it has digits before the point, no needless zero in front of them, and
digits in its exponent if it has one. -/
structure Numeral.Proper (n : Numeral) : Prop where
  /-- there are digits before the point -/
  whole : n.whole ≠ []
  /-- a zero in front of them stands alone -/
  lead : ∀ ds, n.whole = (0 : Digit) :: ds → ds = []
  /-- there are digits in the exponent -/
  exponent : ∀ negative ds, n.exponent = some (negative, ds) → ds ≠ []

namespace Json

/-- The element of a string literal can be written. -/
def Glyph.Proper : Glyph → Prop
  | .plain c => 0x20 ≤ c.toNat ∧ c ≠ '"' ∧ c ≠ '\\'
  | .short letter => (shortMeaning? letter).isSome = true
  | .unit code => code < 0x10000

/-- The literal can be written. -/
def Literal.Proper (l : Literal) : Prop := ∀ g ∈ l, g.Proper

/-- There is nothing but blanks. -/
def Blanks (cs : List Char) : Prop := ∀ c ∈ cs, isBlank c = true

theorem blanks_nil : Blanks [] := nofun

mutual

/-- A text of a tree, without blanks around it. -/
inductive Spells : Tree → List Char → Prop
  | null : Spells .null ['n', 'u', 'l', 'l']
  | yes : Spells (.bool true) ['t', 'r', 'u', 'e']
  | no : Spells (.bool false) ['f', 'a', 'l', 's', 'e']
  | number {n : Numeral} (h : n.Proper) : Spells (.number n) (Tree.numeralText n)
  | string {l : Literal} (h : l.Proper) : Spells (.string l) l.text
  | emptyArray {blanks : List Char} (hb : Blanks blanks) :
    Spells (.array []) ('[' :: (blanks ++ [']']))
  | array {xs : List Tree} {cs : List Char} (h : SpellsItems xs cs) :
    Spells (.array xs) ('[' :: cs)
  | emptyObject {blanks : List Char} (hb : Blanks blanks) :
    Spells (.object []) ('\x7b' :: (blanks ++ ['\x7d']))
  | object {ms : List (Literal × Tree)} {cs : List Char} (h : SpellsMembers ms cs) :
    Spells (.object ms) ('\x7b' :: cs)

/-- A text of a tree, with blanks around it. -/
inductive SpellsElement : Tree → List Char → Prop
  | intro {t : Tree} {before cs after : List Char} (hb : Blanks before) (h : Spells t cs)
    (ha : Blanks after) : SpellsElement t (before ++ (cs ++ after))

/-- A text of the items of an array that has at least one, up to its bracket. -/
inductive SpellsItems : List Tree → List Char → Prop
  | last {x : Tree} {cs : List Char} (h : SpellsElement x cs) : SpellsItems [x] (cs ++ [']'])
  | cons {x : Tree} {xs : List Tree} {cs rest : List Char} (h : SpellsElement x cs)
    (hrest : SpellsItems xs rest) : SpellsItems (x :: xs) (cs ++ ',' :: rest)

/-- A text of a member of an object, with blanks around it. -/
inductive SpellsMember : Literal × Tree → List Char → Prop
  | intro {k : Literal} {x : Tree} {before gap cs : List Char} (hb : Blanks before) (hk : k.Proper)
    (hg : Blanks gap) (h : SpellsElement x cs) :
    SpellsMember (k, x) (before ++ (k.text ++ (gap ++ ':' :: cs)))

/-- A text of the members of an object that has at least one, up to its brace. -/
inductive SpellsMembers : List (Literal × Tree) → List Char → Prop
  | last {m : Literal × Tree} {cs : List Char} (h : SpellsMember m cs) :
    SpellsMembers [m] (cs ++ ['\x7d'])
  | cons {m : Literal × Tree} {ms : List (Literal × Tree)} {cs rest : List Char}
    (h : SpellsMember m cs) (hrest : SpellsMembers ms rest) :
    SpellsMembers (m :: ms) (cs ++ ',' :: rest)

end

namespace Read

/-- The text does not go on with a digit. -/
def NoDigit (cs : List Char) : Prop := ∀ c ∈ cs.head?, Digit.ofChar? c = none

/-- The text does not go on with anything that belongs to a number. -/
def Stops (cs : List Char) : Prop :=
  NoDigit cs ∧ ∀ c ∈ cs.head?, c ≠ '.' ∧ c ≠ 'e' ∧ c ≠ 'E'

/-- Digits are read up to the first character that is none. -/
theorem digits_text (ds : List Digit) {rest : List Char} (h : NoDigit rest) :
    digits (Digits.text ds ++ rest) = (ds, rest) := by
  induction ds with
  | nil =>
    cases rest with
    | nil => rfl
    | cons c cs =>
      have hc := h c rfl
      simp [Digits.text, digits, hc]
  | cons d ds ih =>
    rw [Digits.text, List.map_cons, List.cons_append, digits, Digit.ofChar?_toChar]
    rw [Digits.text] at ih
    simp [ih]

/-- The whole part of a numeral is read as it is written. It has no zero in front, which is what the
reader asks for. -/
theorem whole_text {n : Numeral} (hn : n.Proper) {rest : List Char} (h : NoDigit rest) :
    whole (Digits.text n.whole ++ rest) = some (n.whole, rest) := by
  rw [whole, digits_text _ h]
  cases hw : n.whole with
  | nil => exact absurd hw hn.whole
  | cons d ds =>
    cases ds with
    | nil => rfl
    | cons e ds =>
      have hd : d ≠ 0 := by
        rintro rfl
        exact absurd (hn.lead _ hw) (List.cons_ne_nil _ _)
      exact if_neg hd

theorem noDigit_cons {c : Char} {cs : List Char} (h : Digit.ofChar? c = none) :
    NoDigit (c :: cs) := by
  intro c' hc'
  obtain rfl := Option.some.inj hc'
  exact h

/-- The text of the fraction of a number. -/
def fractionText (ds : List Digit) : List Char := if ds.isEmpty then [] else '.' :: Digits.text ds

/-- The text of the exponent of a number. -/
def exponentText : Option (Bool × List Digit) → List Char
  | none => []
  | some (negative, ds) => 'e' :: (if negative then ['-'] else ['+']) ++ Digits.text ds

/-- A fraction is read as it is written, and where none is written none is read, unless a point
follows. -/
theorem fraction_text (ds : List Digit) {rest : List Char} (h : NoDigit rest)
    (hpoint : ∀ c ∈ rest.head?, c ≠ '.') : fraction (fractionText ds ++ rest) = some (ds, rest) := by
  cases ds with
  | nil =>
    rw [fractionText, if_pos List.isEmpty_nil, List.nil_append, fraction]
    rintro cs rfl
    exact hpoint '.' rfl rfl
  | cons d ds =>
    show fraction ('.' :: (Digits.text (d :: ds) ++ rest)) = _
    rw [fraction, digits_text _ h]

theorem exponentDigits_text {ds : List Digit} (hds : ds ≠ []) (negative : Bool) {rest : List Char}
    (h : NoDigit rest) :
    exponentDigits negative (Digits.text ds ++ rest) = some (some (negative, ds), rest) := by
  rw [exponentDigits, digits_text _ h]
  cases ds with
  | nil => exact absurd rfl hds
  | cons d ds => rfl

/-- An exponent is read as it is written, if it has digits at all. -/
theorem exponent_text {exponent? : Option (Bool × List Digit)}
    (hds : ∀ negative ds, exponent? = some (negative, ds) → ds ≠ []) {rest : List Char}
    (h : Stops rest) : exponent (exponentText exponent? ++ rest) = some (exponent?, rest) := by
  cases exponent? with
  | none =>
    rw [exponentText, List.nil_append]
    cases rest with
    | nil => rfl
    | cons c cs =>
      obtain ⟨-, he, hE⟩ := h.2 c rfl
      exact if_neg (not_or.mpr ⟨he, hE⟩)
  | some e =>
    obtain ⟨negative, ds⟩ := e
    have hdigits := exponentDigits_text (hds negative ds rfl) negative h.1
    cases negative with
    | true => exact hdigits
    | false => exact hdigits

/-- A numeral without its sign is read as it is written: the whole part, the fraction and the
exponent one behind the other, each up to where the next one starts. -/
theorem unsigned_text {n : Numeral} (hn : n.Proper) {rest : List Char} (h : Stops rest) :
    unsigned n.negative
      (Digits.text n.whole ++ (fractionText n.fraction ++ (exponentText n.exponent ++ rest))) =
        some (n, rest) := by
  have hexponent : NoDigit (exponentText n.exponent ++ rest) := by
    cases n.exponent with
    | none => exact h.1
    | some e => exact noDigit_cons rfl
  have hpoint : ∀ c ∈ (exponentText n.exponent ++ rest).head?, c ≠ '.' := by
    cases n.exponent with
    | none => exact fun c hc => (h.2 c hc).1
    | some e =>
      rintro c hc rfl
      cases hc
  have hfraction : NoDigit (fractionText n.fraction ++ (exponentText n.exponent ++ rest)) := by
    cases n.fraction with
    | nil => exact hexponent
    | cons d ds => exact noDigit_cons rfl
  simp [unsigned, whole_text hn hfraction, fraction_text _ hexponent hpoint,
    exponent_text hn.exponent h]

/-- A number is read up to where it ends. -/
theorem number_text {n : Numeral} (hn : n.Proper) {rest : List Char} (h : Stops rest) :
    number (Tree.numeralText n ++ rest) = some (n, rest) := by
  have htext : Tree.numeralText n ++ rest = (if n.negative then ['-'] else []) ++
      (Digits.text n.whole ++ (fractionText n.fraction ++ (exponentText n.exponent ++ rest))) := by
    rw [Tree.numeralText, Numeral.text, fractionText]
    cases n.exponent <;> simp [exponentText]
  have hunsigned := unsigned_text hn h
  rw [htext]
  cases hneg : n.negative with
  | true =>
    rw [hneg] at hunsigned
    exact hunsigned
  | false =>
    rw [hneg] at hunsigned
    -- a number does not start with a sign
    obtain ⟨d, ds, hw⟩ := List.exists_cons_of_ne_nil hn.whole
    have hminus : ∀ d : Digit, d.toChar ≠ '-' := by decide
    rw [← hunsigned, hw]
    show number (d.toChar :: _) = _
    rw [number]
    · rfl
    · intro cs h
      exact hminus d (List.cons.inj h).1

/-! ## Strings -/

theorem hexDigit?_hexChar (n : Fin 16) : hexDigit? (hexChar n) = some n.val := by
  revert n
  decide

/-- Four hexadecimal digits of a code unit are read as that unit. -/
theorem hexUnit?_hexChar {code : Nat} (h : code < 0x10000) :
    hexUnit? (hexChar (code / 4096 % 16)) (hexChar (code / 256 % 16)) (hexChar (code / 16 % 16))
      (hexChar (code % 16)) = some code := by
  have hdigit (n : Nat) : hexDigit? (hexChar (n % 16)) = some (n % 16) :=
    hexDigit?_hexChar ⟨n % 16, Nat.mod_lt n (by decide)⟩
  rw [hexUnit?, hdigit, hdigit, hdigit, hdigit]
  refine congrArg some ?_
  omega

/-- An element is read up to where it ends. -/
theorem literal_glyph {g : Glyph} (hg : g.Proper) (cs : List Char) :
    literal (g.text ++ cs) = (literal cs).map fun (gs, rest) => (g :: gs, rest) := by
  cases g with
  | plain c =>
    obtain ⟨hc, hquote, hslash⟩ := hg
    have hplain : ¬ (c.toNat < 0x20 ∨ c = '\\') := not_or.mpr ⟨Nat.not_lt.mpr hc, hslash⟩
    show literal (c :: cs) = _
    rw [literal.eq_5 c cs hquote (fun _ _ _ _ _ h _ => hslash h) (fun _ _ h _ => hslash h),
      if_neg hplain]
    cases literal cs <;> rfl
  | short letter =>
    have hletter : letter ≠ 'u' := by
      rintro rfl
      cases hg
    show literal ('\\' :: letter :: cs) = _
    -- the reader tells the two escapes apart by their letter, which has to be settled first
    have hmeaning : (Glyph.shortMeaning? letter).isSome = true := hg
    rw [literal.eq_4 letter cs (fun _ _ _ _ _ h _ => hletter h), if_pos hmeaning]
    cases literal cs <;> rfl
  | unit code =>
    rw [Glyph.text]
    show literal ('\\' :: 'u' :: _ :: _ :: _ :: _ :: cs) = _
    rw [literal.eq_3, hexUnit?_hexChar hg]
    cases literal cs <;> rfl

/-- A string literal is read up to its closing quote. -/
theorem literal_text {l : Literal} (hl : l.Proper) (rest : List Char) :
    literal (l.flatMap Glyph.text ++ '"' :: rest) = some (l, rest) := by
  induction l with
  | nil => rfl
  | cons g gs ih =>
    have hgs : Literal.Proper gs := fun g' hg' => hl g' (List.mem_cons_of_mem _ hg')
    rw [List.flatMap_cons, List.append_assoc, literal_glyph (hl g List.mem_cons_self), ih hgs]
    rfl

end Read

/-! ## Blanks -/

/-- Blanks in front of a text are skipped. -/
theorem skipBlanks_append {blanks : List Char} (h : Blanks blanks) (cs : List Char) :
    skipBlanks (blanks ++ cs) = skipBlanks cs := List.dropWhile_append_of_pos h

theorem skipBlanks_of_not_blank {c : Char} (h : isBlank c = false) (cs : List Char) :
    skipBlanks (c :: cs) = c :: cs := List.dropWhile_cons_of_neg (ne_true_of_eq_false h)

theorem skipBlanks_skipBlanks (cs : List Char) : skipBlanks (skipBlanks cs) = skipBlanks cs := by
  rw [skipBlanks, skipBlanks, List.dropWhile_idempotent]

namespace Read

/-- Every reader skips the blanks in front itself, so it does not matter if they were skipped
before. -/
theorem value_skipBlanks (budget : Nat) (cs : List Char) :
    value budget (skipBlanks cs) = value budget cs := by
  cases budget with
  | zero => rfl
  | succ budget => rw [value, value, skipBlanks_skipBlanks]

theorem items_skipBlanks (budget : Nat) (cs : List Char) :
    items budget (skipBlanks cs) = items budget cs := by
  cases budget with
  | zero => rfl
  | succ budget => rw [items, items, value_skipBlanks]

theorem members_skipBlanks (budget : Nat) (cs : List Char) :
    members budget (skipBlanks cs) = members budget cs := by
  cases budget with
  | zero => rfl
  | succ budget => rw [members, members, skipBlanks_skipBlanks]

/-! ## Values -/

/-- What starts with a sign or a digit is read as a number. -/
theorem value_of_number {budget : Nat} {c : Char} {cs : List Char}
    (hc : c = '-' ∨ ∃ d : Digit, c = d.toChar) :
    value (budget + 1) (c :: cs) = (number (c :: cs)).map fun (n, rest) => (.number n, rest) := by
  rcases hc with rfl | ⟨⟨d, hd⟩, rfl⟩
  · rfl
  · interval_cases d <;> rfl

/-- A number starts with its sign or with a digit. -/
theorem head_numeralText {n : Numeral} (hn : n.Proper) :
    ∃ c cs, Tree.numeralText n = c :: cs ∧ (c = '-' ∨ ∃ d : Digit, c = d.toChar) := by
  obtain ⟨d, ds, hw⟩ := List.exists_cons_of_ne_nil hn.whole
  rw [Tree.numeralText, Numeral.text, hw]
  cases n.negative with
  | true => exact ⟨_, _, rfl, .inl rfl⟩
  | false => exact ⟨_, _, rfl, .inr ⟨d, rfl⟩⟩

end Read

/-- A text starts with something that is neither blank nor the end of an array. -/
theorem Spells.head {t : Tree} {cs : List Char} (h : Spells t cs) :
    ∃ c cs', cs = c :: cs' ∧ isBlank c = false ∧ c ≠ ']' := by
  cases h with
  | number hn =>
    obtain ⟨c, cs, htext, hc⟩ := Read.head_numeralText hn
    have hdigit : ∀ d : Digit, isBlank d.toChar = false ∧ d.toChar ≠ ']' := by decide
    refine ⟨c, cs, htext, ?_⟩
    rcases hc with rfl | ⟨d, rfl⟩
    · decide
    · exact hdigit d
  | _ => exact ⟨_, _, rfl, by decide, by decide⟩

/-- What is left of a list of items after its blanks does not start with its end. -/
theorem SpellsItems.head {xs : List Tree} {cs : List Char} (h : SpellsItems xs cs)
    (rest : List Char) : ∃ c cs', skipBlanks (cs ++ rest) = c :: cs' ∧ c ≠ ']' := by
  have helement {x : Tree} {cs : List Char} (hx : SpellsElement x cs) (rest : List Char) :
      ∃ c cs', skipBlanks (cs ++ rest) = c :: cs' ∧ c ≠ ']' := by
    obtain ⟨hb, hx, -⟩ := hx
    obtain ⟨c, cs', rfl, hblank, hc⟩ := hx.head
    rw [List.append_assoc, List.append_assoc, skipBlanks_append hb]
    exact ⟨c, _, skipBlanks_of_not_blank hblank _, hc⟩
  cases h with
  | last hx =>
    rw [List.append_assoc]
    exact helement hx _
  | cons hx _ =>
    rw [List.append_assoc]
    exact helement hx _

/-- What is left of a list of members after its blanks starts with the quote of a name. -/
theorem SpellsMembers.head {ms : List (Literal × Tree)} {cs : List Char} (h : SpellsMembers ms cs)
    (rest : List Char) : ∃ cs', skipBlanks (cs ++ rest) = '"' :: cs' := by
  have hmember {m : Literal × Tree} {cs : List Char} (hm : SpellsMember m cs) (rest : List Char) :
      ∃ cs', skipBlanks (cs ++ rest) = '"' :: cs' := by
    obtain ⟨hb, -, -, -⟩ := hm
    rw [List.append_assoc, skipBlanks_append hb]
    exact ⟨_, rfl⟩
  cases h with
  | last hm =>
    rw [List.append_assoc]
    exact hmember hm _
  | cons hm _ =>
    rw [List.append_assoc]
    exact hmember hm _

namespace Read

variable {budget : Nat}

/-- The values that fit the budget are read. -/
def ReadsValues (budget : Nat) : Prop :=
  ∀ {t cs rest}, Spells t cs → Stops rest → 2 * cs.length ≤ budget →
    value budget (cs ++ rest) = some (t, rest)

/-- The items that fit the budget are read. -/
def ReadsItems (budget : Nat) : Prop :=
  ∀ {xs cs} rest, SpellsItems xs cs → 2 * cs.length + 1 ≤ budget →
    items budget (cs ++ rest) = some (xs, rest)

/-- The members that fit the budget are read. -/
def ReadsMembers (budget : Nat) : Prop :=
  ∀ {ms cs} rest, SpellsMembers ms cs → 2 * cs.length + 1 ≤ budget →
    members budget (cs ++ rest) = some (ms, rest)

/-- A character that does not belong to a number. -/
def Separates (c : Char) : Prop := Digit.ofChar? c = none ∧ c ≠ '.' ∧ c ≠ 'e' ∧ c ≠ 'E'

instance (c : Char) : Decidable (Separates c) := inferInstanceAs (Decidable (_ ∧ _))

theorem stops_cons {c : Char} (h : Separates c) (cs : List Char) : Stops (c :: cs) := by
  refine ⟨noDigit_cons h.1, fun c' hc' => ?_⟩
  obtain rfl := Option.some.inj hc'
  exact h.2

theorem separates_of_isBlank {c : Char} (h : isBlank c = true) : Separates c := by
  simp only [isBlank, Bool.or_eq_true, decide_eq_true_eq] at h
  rcases h with ((rfl | rfl) | rfl) | rfl <;> decide

/-- A text that ends a numeral ends it with blanks in front as well. -/
theorem stops_append {blanks rest : List Char} (hb : Blanks blanks) (h : Stops rest) :
    Stops (blanks ++ rest) := by
  cases blanks with
  | nil => exact h
  | cons c cs => exact stops_cons (separates_of_isBlank (hb c List.mem_cons_self)) _

/-- An element is read up to its blanks. -/
theorem ReadsValues.element (h : ReadsValues budget) {t : Tree} {cs rest : List Char}
    (ht : SpellsElement t cs) (hrest : Stops rest) (hbudget : 2 * cs.length ≤ budget) :
    ∃ left, value budget (cs ++ rest) = some (t, left) ∧ skipBlanks left = skipBlanks rest := by
  obtain @⟨_, before, cs, after, hb, ht, ha⟩ := ht
  refine ⟨after ++ rest, ?_, skipBlanks_append ha rest⟩
  rw [List.length_append, List.length_append] at hbudget
  rw [List.append_assoc, List.append_assoc, ← value_skipBlanks, skipBlanks_append hb,
    value_skipBlanks]
  exact h ht (stops_append ha hrest) (by omega)

/-- Behind an opening bracket there is a closing one, or the items follow. -/
theorem value_openArray (budget : Nat) (cs : List Char) :
    value (budget + 1) ('[' :: cs) =
      match skipBlanks cs with
      | ']' :: rest => some (.array [], rest)
      | rest => (items budget rest).map fun (xs, rest) => (.array xs, rest) := rfl

/-- Behind an opening brace there is a closing one, or the members follow. -/
theorem value_openObject (budget : Nat) (cs : List Char) :
    value (budget + 1) ('\x7b' :: cs) =
      match skipBlanks cs with
      | '\x7d' :: rest => some (.object [], rest)
      | rest => (members budget rest).map fun (ms, rest) => (.object ms, rest) := rfl

/-- **The step for values.** If a budget is enough for items and members, one more is enough for
values that hold them. The cases are those of the grammar, and only the last two use the budget. -/
theorem readsValues_succ (hi : ReadsItems budget) (hm : ReadsMembers budget) :
    ReadsValues (budget + 1) := by
  intro t cs rest h hrest hbudget
  cases h with
  | null => rfl
  | yes => rfl
  | no => rfl
  | number hn =>
    -- a number is known by the character it begins with
    obtain ⟨c, cs, htext, hc⟩ := head_numeralText hn
    have hnumber := number_text hn hrest
    rw [htext] at hnumber ⊢
    rw [List.cons_append, value_of_number hc, ← List.cons_append, hnumber]
    rfl
  | @string l hl =>
    have hliteral := literal_text hl rest
    show (literal (l.flatMap Glyph.text ++ ['"'] ++ rest)).map _ = _
    rw [List.append_assoc, List.singleton_append, hliteral]
    rfl
  | emptyArray hb =>
    rw [List.cons_append, List.append_assoc, value_openArray, skipBlanks_append hb]
    rfl
  | emptyObject hb =>
    rw [List.cons_append, List.append_assoc, value_openObject, skipBlanks_append hb]
    rfl
  | @array xs cs h =>
    obtain ⟨c, cs', hskip, hc⟩ := h.head rest
    have hitems := hi rest h (by rw [List.length_cons] at hbudget; omega)
    rw [← items_skipBlanks, hskip] at hitems
    rw [List.cons_append, value_openArray, hskip]
    -- the array is not taken for an empty one: no item begins with a bracket that closes
    split
    · rename_i heq
      exact absurd (List.cons.inj heq).1 hc
    · rw [hitems]
      rfl
  | @object ms cs h =>
    obtain ⟨cs', hskip⟩ := h.head rest
    have hmembers := hm rest h (by rw [List.length_cons] at hbudget; omega)
    rw [← members_skipBlanks, hskip] at hmembers
    rw [List.cons_append, value_openObject, hskip]
    show (members budget ('"' :: cs')).map _ = _
    rw [hmembers]
    rfl

/-- Behind an item there is a closing bracket, or a comma and further items. -/
theorem items_of_value {cs left : List Char} {x : Tree} (h : value budget cs = some (x, left)) :
    items (budget + 1) cs =
      match skipBlanks left with
      | ']' :: rest => some ([x], rest)
      | ',' :: rest => (items budget rest).map fun (xs, rest) => (x :: xs, rest)
      | _ => none := by
  rw [items]
  exact h ▸ rfl

/-- **The step for items**: the first by the budget for values, the others by that for items. -/
theorem readsItems_succ (hv : ReadsValues budget) (hi : ReadsItems budget) :
    ReadsItems (budget + 1) := by
  intro xs cs rest h hbudget
  cases h with
  | @last x cs hx =>
    rw [List.length_append, List.length_singleton] at hbudget
    have hstops : Stops (']' :: rest) := stops_cons (by decide) rest
    obtain ⟨left, hvalue, hleft⟩ := hv.element hx hstops (by omega)
    rw [List.append_assoc, List.singleton_append, items_of_value hvalue, hleft]
    rfl
  | @cons x xs cs cs' hx hxs =>
    rw [List.length_append, List.length_cons] at hbudget
    have hstops : Stops (',' :: (cs' ++ rest)) := stops_cons (by decide) _
    obtain ⟨left, hvalue, hleft⟩ := hv.element hx hstops (by omega)
    rw [List.append_assoc, List.cons_append, items_of_value hvalue, hleft]
    show (items budget (cs' ++ rest)).map _ = _
    rw [hi rest hxs (by omega)]
    rfl

/-- A member is read up to its blanks. -/
theorem ReadsValues.member (hv : ReadsValues budget) {k : Literal} {x : Tree} {cs rest : List Char}
    (h : SpellsMember (k, x) cs) (hrest : Stops rest) (hbudget : 2 * cs.length ≤ budget) :
    members (budget + 1) (cs ++ rest) =
      match skipBlanks rest with
      | '\x7d' :: rest => some ([(k, x)], rest)
      | ',' :: rest => (members budget rest).map fun (ms, rest) => ((k, x) :: ms, rest)
      | _ => none := by
  obtain @⟨_, _, before, gap, cs, hb, hk, hg, hx⟩ := h
  simp only [List.length_append, List.length_cons] at hbudget
  obtain ⟨left, hvalue, hleft⟩ := hv.element hx hrest (by omega)
  have hliteral := literal_text hk (gap ++ ':' :: (cs ++ rest))
  have hskip : skipBlanks (before ++ (k.text ++ (gap ++ ':' :: cs)) ++ rest) =
      '"' :: (k.flatMap Glyph.text ++ '"' :: (gap ++ ':' :: (cs ++ rest))) := by
    rw [List.append_assoc, skipBlanks_append hb, Literal.text]
    simp [skipBlanks, isBlank]
  have hcolon : skipBlanks (gap ++ ':' :: (cs ++ rest)) = ':' :: (cs ++ rest) :=
    skipBlanks_append hg _
  rw [members, hskip]
  simp only [hliteral, hcolon, hvalue]
  exact hleft ▸ rfl

/-- **The step for members**, likewise, with the key in front. -/
theorem readsMembers_succ (hv : ReadsValues budget) (hm : ReadsMembers budget) :
    ReadsMembers (budget + 1) := by
  intro ms cs rest h hbudget
  cases h with
  | @last m cs hmember =>
    rw [List.length_append, List.length_singleton] at hbudget
    have hstops : Stops ('\x7d' :: rest) := stops_cons (by decide) rest
    rw [List.append_assoc, List.singleton_append, hv.member hmember hstops (by omega)]
    rfl
  | @cons m ms cs cs' hmember hms =>
    rw [List.length_append, List.length_cons] at hbudget
    have hstops : Stops (',' :: (cs' ++ rest)) := stops_cons (by decide) _
    rw [List.append_assoc, List.cons_append, hv.member hmember hstops (by omega)]
    show (members budget (cs' ++ rest)).map _ = _
    rw [hm rest hms (by omega)]
    rfl

/-- The reader reads whatever the grammar spells, if its budget is twice the length. -/
theorem reads (budget : Nat) : ReadsValues budget ∧ ReadsItems budget ∧ ReadsMembers budget := by
  induction budget with
  | zero =>
    refine ⟨fun h _ hbudget => ?_, fun _ _ hbudget => ?_, fun _ _ hbudget => ?_⟩
    · obtain ⟨c, cs, rfl, -⟩ := h.head
      rw [List.length_cons] at hbudget
      omega
    · omega
    · omega
  | succ budget ih =>
    obtain ⟨hv, hi, hm⟩ := ih
    exact ⟨readsValues_succ hi hm, readsItems_succ hv hi, readsMembers_succ hv hm⟩

end Read

/-- **What the grammar spells is read.** A text of a tree is read as that tree, with any blanks in it
and around it. -/
theorem Tree.ofChars?_of_spells {t : Tree} {cs : List Char} (h : SpellsElement t cs) :
    Tree.ofChars? cs = some t := by
  have hreads : Read.ReadsValues (2 * cs.length + 1) := (Read.reads _).1
  have hstops : Read.Stops [] := ⟨nofun, nofun⟩
  obtain ⟨left, hvalue, hleft⟩ := hreads.element h hstops (Nat.le_succ _)
  rw [List.append_nil] at hvalue
  rw [Tree.ofChars?, hvalue]
  dsimp only
  rw [hleft]
  rfl

end Json

end InferenceEngine
