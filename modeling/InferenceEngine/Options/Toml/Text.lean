import InferenceEngine.Options.Toml.Number

/-!
# Texts in TOML documents

A text stands between quotes: double ones, where a backslash starts an escape, or single ones,
where it does not. Between three quotes a text is long and may hold line ends and up to two quotes
in a row.

* `Toml.text?` is a text of any of the four kinds, `Toml.shortText?` one that is not long.
-/

namespace InferenceEngine.Toml

/-! ## Characters -/

/-- Blanks inside a line. -/
def isBlank (c : Char) : Bool := c = ' ' || c = '\t'

/-- Leaves out blanks at the front. -/
def skip (cs : List Char) : List Char := cs.dropWhile isBlank

/-- The character may stand in a text or a comment as it is: no control character but the tab. -/
def isPlain (c : Char) : Bool := c = '\t' || (0x20 ≤ c.toNat && c.toNat ≠ 0x7f)

/-- Leaves out the end of a line, if it stands at the front. -/
def lineEnd? : List Char → Option (List Char)
  | '\n' :: rest => some rest
  | '\r' :: '\n' :: rest => some rest
  | _ => none

/-- Leaves out blanks and line ends at the front. -/
def skipSpace : List Char → List Char
  | '\n' :: rest => skipSpace rest
  | '\r' :: '\n' :: rest => skipSpace rest
  | c :: rest => if isBlank c then skipSpace rest else c :: rest
  | [] => []

/-! ## Escapes -/

/-- The character with a code point in hexadecimal digits. -/
def charOf? (digits : List Char) : Option Char := do
  let n := valueIn 16 (← Json.allSome Json.Read.hexDigit? digits)
  if h : n.isValidChar then some (Char.ofNatAux n h) else none

/-- The character that a letter after a backslash stands for. -/
def letterMeaning? (c : Char) : Option Char :=
  if c = '/' then none else Json.Glyph.shortMeaning? c

/-! ## Quotes -/

/-- A way to quote a text. -/
structure Quoting where
  /-- the quote -/
  mark : Char
  /-- a backslash starts an escape -/
  escapes : Bool
  /-- three quotes stand on both sides -/
  long : Bool

namespace Quoting

/-- What stands for something after a backslash: a letter, a code point or, in a long text, the
end of a line, which is left out together with the blanks and line ends behind it. -/
def escape? (q : Quoting) : List Char → Option (List Char × List Char)
  | 'u' :: a :: b :: c :: d :: rest => do
    let x ← charOf? [a, b, c, d]
    return ([x], rest)
  | 'U' :: a :: b :: c :: d :: e :: f :: g :: h :: rest => do
    let x ← charOf? [a, b, c, d, e, f, g, h]
    return ([x], rest)
  | cs =>
    match cs.head?.bind letterMeaning? with
    | some x => some ([x], cs.drop 1)
    | none =>
      if q.long then (lineEnd? (skip cs)).map fun rest => ([], skipSpace rest) else none

/-- The end of a text, if it is here: the quotes that still belong to the text, and what follows
the closing ones. -/
def close? (q : Quoting) (cs : List Char) : Option (List Char × List Char) :=
  let marks := cs.takeWhile (· = q.mark)
  if q.long then
    if marks.length < 3 then none
    else
      -- up to two quotes may stand right before the three that close
      let inner := min (marks.length - 3) 2
      some (List.replicate inner q.mark, cs.drop (inner + 3))
  else if marks.isEmpty then none
  else some ([], cs.drop 1)

/-- What the front of a text stands for, and the rest. -/
def piece? (q : Quoting) : List Char → Option (List Char × List Char)
  | [] => none
  | c :: rest =>
    if q.escapes ∧ c = '\\' then q.escape? rest
    else if isPlain c then some ([c], rest)
    else if q.long then (lineEnd? (c :: rest)).map fun rest => (['\n'], rest)
    else none

/-- A text up to and past its closing quotes; every piece takes at least one character. -/
def body? (q : Quoting) : Nat → List Char → Option (List Char × List Char)
  | 0, _ => none
  | rounds + 1, cs =>
    match q.close? cs with
    | some (last, rest) => some (last, rest)
    | none => do
      let (here, cs) ← q.piece? cs
      let (more, rest) ← q.body? rounds cs
      return (here ++ more, rest)

/-- What follows the opening quotes of a text. A line end right behind them does not count. -/
def text? (q : Quoting) (cs : List Char) : Option (List Char × List Char) :=
  let cs := if q.long then (lineEnd? cs).getD cs else cs
  q.body? (cs.length + 1) cs

end Quoting

/-- A text on one line. -/
def shortText? : List Char → Option (List Char × List Char)
  | '"' :: rest => Quoting.text? ⟨'"', true, false⟩ rest
  | '\'' :: rest => Quoting.text? ⟨'\'', false, false⟩ rest
  | _ => none

/-- A text of any kind. -/
def text? : List Char → Option (List Char × List Char)
  | '"' :: '"' :: '"' :: rest => Quoting.text? ⟨'"', true, true⟩ rest
  | '\'' :: '\'' :: '\'' :: rest => Quoting.text? ⟨'\'', false, true⟩ rest
  | cs => shortText? cs

end InferenceEngine.Toml
