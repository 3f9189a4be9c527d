import InferenceEngine.Options.Toml.Moment
import InferenceEngine.Options.Toml.Text

/-!
# Flat TOML documents

A flat document is a sequence of entries `key = value`, each ending a line, with comments and blank
lines between. Keys may be bare or quoted and must not repeat. Values are numbers, truth values,
texts, dates, times and lists.

* `Toml.settings?` is the list of settings of a document, or nothing if it is not well-formed.
-/

namespace InferenceEngine.Toml

/-! ## Comments and line ends -/

/-- Leaves out a comment at the front. -/
def skipComment : List Char → List Char
  | '#' :: rest => rest.dropWhile isPlain
  | cs => cs

/-- Leaves out the rest of a line that holds no more than blanks and a comment, with its end. -/
def restOfLine? (cs : List Char) : Option (List Char) :=
  match skipComment (skip cs) with
  | [] => some []
  | cs => lineEnd? cs

/-- Leaves out blanks, line ends and comments inside a list. Every round but the last leaves out
at least the mark of a comment. -/
def skipLines : Nat → List Char → List Char
  | 0, cs => cs
  | rounds + 1, cs =>
    match skipSpace cs with
    | '#' :: rest => skipLines rounds (rest.dropWhile isPlain)
    | cs => cs

/-! ## Values -/

/-- A character that may be part of a number or a truth value. -/
def isWord (c : Char) : Bool := c.isAlphanum || c = '_' || c = '-' || c = '+' || c = '.'

/-- A value that is a single word. -/
def word? (cs : List Char) : Option Setting :=
  if cs = ['t', 'r', 'u', 'e'] then some (.flag true)
  else if cs = ['f', 'a', 'l', 's', 'e'] then some (.flag false)
  else (integer? cs).orElse fun _ => real? cs

/-- How deep lists may be nested. -/
def depthLimit : Nat := 79

mutual

/-- A value, with lists nested at most `depth` deep. -/
def value? : Nat → Nat → List Char → Option (Setting × List Char)
  | 0, _, _ => none
  | budget + 1, depth, cs =>
    match cs with
    | '[' :: rest =>
      match depth with
      | 0 => none
      | depth + 1 => (items? budget depth rest).map fun rest => (.compound, rest)
    | '"' :: _ | '\'' :: _ => (text? cs).map fun (s, rest) => (.text (String.ofList s), rest)
    | cs =>
      -- a date is tried first, since it begins like a number
      match moment? cs with
      | some (m, rest) => some (.text m.text, rest)
      | none =>
        let w := cs.takeWhile isWord
        (word? w).map fun s => (s, cs.drop w.length)

/-- The items of a list, up to and past its bracket. -/
def items? : Nat → Nat → List Char → Option (List Char)
  | 0, _, _ => none
  | budget + 1, depth, cs =>
    match skipLines cs.length cs with
    | ']' :: rest => some rest
    | cs =>
      match value? budget depth cs with
      | none => none
      | some (_, rest) =>
        match skipLines rest.length rest with
        | ']' :: rest => some rest
        | ',' :: rest => items? budget depth rest
        | _ => none

end

/-! ## Entries -/

/-- A character of a bare key. -/
def isBare (c : Char) : Bool := c.isAlphanum || c = '_' || c = '-'

/-- A key. -/
def key? (cs : List Char) : Option (List Char × List Char) :=
  (shortText? cs).orElse fun _ =>
    let k := cs.takeWhile isBare
    if k.isEmpty then none else some (k, cs.drop k.length)

/-- The front of a document: a line without an entry, or an entry up to the end of its line. -/
def entry? (cs : List Char) : Option (Option (String × Setting) × List Char) :=
  match restOfLine? cs with
  | some rest => some (none, rest)
  | none => do
    let (k, rest) ← key? (skip cs)
    match skip rest with
    | '=' :: rest => do
      let (v, rest) ← value? (2 * rest.length + 1) depthLimit (skip rest)
      let rest ← restOfLine? rest
      return (some (String.ofList k, v), rest)
    | _ => none

/-- The entries of a document; every line has at least one character. -/
def entries? : Nat → List Char → Option (List (String × Setting))
  | _, [] => some []
  | 0, _ => none
  | rounds + 1, cs => do
    let (entry, rest) ← entry? cs
    let entries ← entries? rounds rest
    return entry.toList ++ entries

/-- The settings of a flat document, in order; no key may repeat. A mark of the byte order in front
does not count. -/
def settings? (text : String) : Option (List (String × Setting)) := do
  let cs := match text.toList with
    | '\uFEFF' :: rest => rest
    | cs => cs
  let entries ← entries? cs.length cs
  if (entries.map (·.1)).Nodup then some entries else none

end InferenceEngine.Toml
