import InferenceEngine.Number.Digits

/-!
# JSON text as a tree

A `Tree` is a JSON text without its blanks: every literal is kept as it is spelled, and objects
keep their members in text order with repetitions. What the text means (which characters a string
denotes, whether a number is in range, which member of a repeated name counts) is decided by
whoever reads the tree, so a member that nobody reads may hold anything well-formed.

* `Glyph` is one character or escape of a string literal.
* `Literal.decode?` and `Literal.ofString` are the two directions between literals and strings.
-/

namespace InferenceEngine.Json

/-- One element of a string literal. -/
inductive Glyph
  /-- a character that stands for itself -/
  | plain (c : Char)
  /-- a backslash and one letter -/
  | short (letter : Char)
  /-- a backslash, `u` and four hexadecimal digits -/
  | unit (code : Nat)
deriving DecidableEq

/-- The content of a string literal. -/
abbrev Literal := List Glyph

namespace Glyph

/-- The character that a backslash and a letter stand for. -/
def shortMeaning? : Char → Option Char
  | '"' => some '"'
  | '\\' => some '\\'
  | '/' => some '/'
  | 'b' => some '\x08'
  | 'f' => some '\x0c'
  | 'n' => some '\n'
  | 'r' => some '\r'
  | 't' => some '\t'
  | _ => none

/-- The way a character is written: the quote, the backslash and the five control characters that
have a letter take a short escape, the other control characters a long one. -/
def ofChar (c : Char) : Glyph :=
  match c with
  | '"' => short '"'
  | '\\' => short '\\'
  | '\x08' => short 'b'
  | '\x0c' => short 'f'
  | '\n' => short 'n'
  | '\r' => short 'r'
  | '\t' => short 't'
  | c => if c.toNat < 0x20 then unit c.toNat else plain c

end Glyph

namespace Literal

/-- A unit in the first half of a surrogate pair. -/
def isHigh (code : Nat) : Bool := 0xD800 ≤ code && code < 0xDC00

/-- A unit in the second half of a surrogate pair. -/
def isLow (code : Nat) : Bool := 0xDC00 ≤ code && code < 0xE000

/-- The characters a literal denotes. Two units of a surrogate pair denote one character; a lone
half denotes nothing, and then neither does the literal. -/
def decodeChars? : Literal → Option (List Char)
  | [] => some []
  | .plain c :: rest => (decodeChars? rest).map (c :: ·)
  | .short letter :: rest => do
    let c ← Glyph.shortMeaning? letter
    let cs ← decodeChars? rest
    return c :: cs
  | .unit code :: rest =>
    if isHigh code then
      match rest with
      | .unit low :: rest =>
        if isLow low then
          (decodeChars? rest).map
            (Char.ofNat (0x10000 + (code - 0xD800) * 0x400 + (low - 0xDC00)) :: ·)
        else none
      | _ => none
    else if isLow code then none
    else (decodeChars? rest).map (Char.ofNat code :: ·)

/-- The string a literal denotes. -/
def decode? (l : Literal) : Option String := (decodeChars? l).map String.ofList

/-- The literal of a string. -/
def ofString (s : String) : Literal := s.toList.map Glyph.ofChar

end Literal

/-- A JSON text, blanks aside. -/
inductive Tree
  | null
  | bool (value : Bool)
  | number (literal : Numeral)
  | string (literal : Literal)
  | array (items : List Tree)
  | object (members : List (Literal × Tree))

namespace Tree

/-- The tree of a string. -/
def ofString (s : String) : Tree := .string (Literal.ofString s)

/-- The tree of a natural number. -/
def ofNat (n : Nat) : Tree := .number (Numeral.ofInt n)

/-- The tree of an object whose member names are given as strings. -/
def ofMembers (members : List (String × Tree)) : Tree :=
  .object (members.map fun m => (Literal.ofString m.1, m.2))

/-- The tree of a list of strings. -/
def ofStrings (xs : List String) : Tree := .array (xs.map ofString)

end Tree

end InferenceEngine.Json
