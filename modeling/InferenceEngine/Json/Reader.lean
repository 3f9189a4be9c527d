import InferenceEngine.Json.Tree

/-!
# Reading JSON text

A recursive descent over the characters. Each function takes what is left of the text and gives
back a result with the rest. The grammar is strict: four blank characters, no leading zeros, no
control characters in strings, nothing after the value. Nesting is not limited here; readers of
the tree count levels.

Every call of `value`, `items` and `members` passes a smaller budget on and every nested call comes
after at least one character, so a budget of twice the length of the text is never used up.
-/

namespace InferenceEngine.Json

/-- The four characters that may stand between tokens. -/
def isBlank (c : Char) : Bool := c = ' ' || c = '\t' || c = '\n' || c = '\r'

/-- Leaves out blanks at the front. -/
def skipBlanks (cs : List Char) : List Char := cs.dropWhile isBlank

namespace Read

/-- The value of a hexadecimal digit of either case. -/
def hexDigit? (c : Char) : Option Nat :=
  let n := c.toNat
  if 48 ≤ n ∧ n < 58 then some (n - 48)
  else if 97 ≤ n ∧ n < 103 then some (n - 87)
  else if 65 ≤ n ∧ n < 71 then some (n - 55)
  else none

/-- The value of four hexadecimal digits. -/
def hexUnit? (a b c d : Char) : Option Nat := do
  let a ← hexDigit? a
  let b ← hexDigit? b
  let c ← hexDigit? c
  let d ← hexDigit? d
  return ((a * 16 + b) * 16 + c) * 16 + d

/-- The rest of a string literal, up to and past its closing quote. -/
def literal : List Char → Option (Literal × List Char)
  | [] => none
  | '"' :: rest => some ([], rest)
  | '\\' :: 'u' :: a :: b :: c :: d :: rest => do
    let code ← hexUnit? a b c d
    let (gs, rest) ← literal rest
    return (.unit code :: gs, rest)
  | '\\' :: letter :: rest =>
    if (Glyph.shortMeaning? letter).isSome then do
      let (gs, rest) ← literal rest
      return (.short letter :: gs, rest)
    else none
  | c :: rest =>
    if c.toNat < 0x20 ∨ c = '\\' then none else do
      let (gs, rest) ← literal rest
      return (.plain c :: gs, rest)

/-- The digits at the front. -/
def digits : List Char → List Digit × List Char
  | [] => ([], [])
  | c :: rest =>
    match Digit.ofChar? c with
    | none => ([], c :: rest)
    | some d => let (ds, rest) := digits rest; (d :: ds, rest)

/-- The whole part of a number: a zero alone, or digits that do not start with a zero. -/
def whole (cs : List Char) : Option (List Digit × List Char) :=
  match digits cs with
  | ([], _) => none
  | (d :: e :: ds, rest) => if d = 0 then none else some (d :: e :: ds, rest)
  | (ds, rest) => some (ds, rest)

/-- The fraction of a number, if there is one. -/
def fraction : List Char → Option (List Digit × List Char)
  | '.' :: rest =>
    match digits rest with
    | ([], _) => none
    | (ds, rest) => some (ds, rest)
  | rest => some ([], rest)

/-- The digits of an exponent. -/
def exponentDigits (negative : Bool) (cs : List Char) :
    Option (Option (Bool × List Digit) × List Char) :=
  match digits cs with
  | ([], _) => none
  | (ds, rest) => some (some (negative, ds), rest)

/-- The exponent of a number, if there is one. -/
def exponent : List Char → Option (Option (Bool × List Digit) × List Char)
  | c :: rest =>
    if c = 'e' ∨ c = 'E' then
      match rest with
      | '+' :: rest => exponentDigits false rest
      | '-' :: rest => exponentDigits true rest
      | rest => exponentDigits false rest
    else some (none, c :: rest)
  | [] => some (none, [])

/-- A number without its sign. -/
def unsigned (negative : Bool) (cs : List Char) : Option (Numeral × List Char) := do
  let (w, cs) ← whole cs
  let (f, cs) ← fraction cs
  let (e, cs) ← exponent cs
  return (⟨negative, w, f, e⟩, cs)

/-- A number. -/
def number : List Char → Option (Numeral × List Char)
  | '-' :: rest => unsigned true rest
  | cs => unsigned false cs

mutual

/-- A value, blanks in front of it left out. -/
def value : Nat → List Char → Option (Tree × List Char)
  | 0, _ => none
  | budget + 1, cs =>
    match skipBlanks cs with
    | 'n' :: 'u' :: 'l' :: 'l' :: rest => some (.null, rest)
    | 't' :: 'r' :: 'u' :: 'e' :: rest => some (.bool true, rest)
    | 'f' :: 'a' :: 'l' :: 's' :: 'e' :: rest => some (.bool false, rest)
    | '"' :: rest => (literal rest).map fun (l, rest) => (.string l, rest)
    | '[' :: rest =>
      match skipBlanks rest with
      -- the empty array is told here, so that a comma is never followed by a bracket
      | ']' :: rest => some (.array [], rest)
      | rest => (items budget rest).map fun (xs, rest) => (.array xs, rest)
    | '\x7b' :: rest =>
      match skipBlanks rest with
      | '\x7d' :: rest => some (.object [], rest)
      | rest => (members budget rest).map fun (ms, rest) => (.object ms, rest)
    | cs => (number cs).map fun (n, rest) => (.number n, rest)

/-- The items of an array that has at least one, up to and past its bracket. -/
def items : Nat → List Char → Option (List Tree × List Char)
  | 0, _ => none
  | budget + 1, cs =>
    match value budget cs with
    | none => none
    | some (x, rest) =>
      match skipBlanks rest with
      | ']' :: rest => some ([x], rest)
      | ',' :: rest => (items budget rest).map fun (xs, rest) => (x :: xs, rest)
      | _ => none

/-- The members of an object that has at least one, up to and past its brace. -/
def members : Nat → List Char → Option (List (Literal × Tree) × List Char)
  | 0, _ => none
  | budget + 1, cs =>
    match skipBlanks cs with
    | '"' :: rest =>
      match literal rest with
      | none => none
      | some (key, rest) =>
        match skipBlanks rest with
        | ':' :: rest =>
          match value budget rest with
          | none => none
          | some (x, rest) =>
            match skipBlanks rest with
            | '\x7d' :: rest => some ([(key, x)], rest)
            | ',' :: rest => (members budget rest).map fun (ms, rest) => ((key, x) :: ms, rest)
            | _ => none
        | _ => none
    | _ => none

end

end Read

namespace Tree

/-- The tree of a text that is one JSON value with blanks around it. -/
def ofChars? (cs : List Char) : Option Tree :=
  match Read.value (2 * cs.length + 1) cs with
  | none => none
  | some (t, rest) => if (skipBlanks rest).isEmpty then some t else none

/-- The tree of a text. -/
def ofText? (text : String) : Option Tree := ofChars? text.toList

end Tree

end InferenceEngine.Json
