import InferenceEngine.Json.Tree

/-!
# Writing JSON text

Two layouts of a tree: `Tree.compact` without blanks, `Tree.pretty` with one item a line, two blanks
of indentation a level, and nothing between the brackets of an empty array or object. A positive
exponent is written with its sign.
-/

namespace InferenceEngine.Json

/-- The hexadecimal digit of a number below sixteen, in lower case. -/
def hexChar (n : Nat) : Char := if n < 10 then Char.ofNat (48 + n) else Char.ofNat (87 + n)

namespace Glyph

/-- The spelling of an element of a string literal. -/
def text : Glyph → List Char
  | plain c => [c]
  | short letter => ['\\', letter]
  | unit code =>
    ['\\', 'u', hexChar (code / 4096 % 16), hexChar (code / 256 % 16), hexChar (code / 16 % 16),
      hexChar (code % 16)]

end Glyph

namespace Literal

/-- A string literal with its quotes. -/
def text (l : Literal) : List Char := '"' :: l.flatMap Glyph.text ++ ['"']

end Literal

namespace Tree

/-- The spelling of a number. -/
def numeralText (n : Numeral) : List Char := n.text ['+']

mutual

/-- The text of a tree, without blanks. -/
def compact : Tree → List Char
  | null => ['n', 'u', 'l', 'l']
  | bool true => ['t', 'r', 'u', 'e']
  | bool false => ['f', 'a', 'l', 's', 'e']
  | number n => numeralText n
  | string l => l.text
  | array xs => '[' :: compactItems xs
  | object ms => '\x7b' :: compactMembers ms

/-- Items with commas between them, then the closing bracket. -/
def compactItems : List Tree → List Char
  | [] => [']']
  | [x] => compact x ++ [']']
  | x :: y :: rest => compact x ++ ',' :: compactItems (y :: rest)

/-- Members with commas between them, then the closing brace. -/
def compactMembers : List (Literal × Tree) → List Char
  | [] => ['\x7d']
  | [(k, x)] => k.text ++ ':' :: compact x ++ ['\x7d']
  | (k, x) :: m :: rest => k.text ++ ':' :: compact x ++ ',' :: compactMembers (m :: rest)

end

/-- A line break and the indentation of a level. -/
def newline (level : Nat) : List Char := '\n' :: List.replicate (2 * level) ' '

mutual

/-- The text of a tree that starts on `level`, one item a line. -/
def prettyAt (level : Nat) : Tree → List Char
  | null => ['n', 'u', 'l', 'l']
  | bool true => ['t', 'r', 'u', 'e']
  | bool false => ['f', 'a', 'l', 's', 'e']
  | number n => numeralText n
  | string l => l.text
  | array [] => ['[', ']']
  | array (x :: xs) => '[' :: prettyItems level (x :: xs)
  | object [] => ['\x7b', '\x7d']
  | object (m :: ms) => '\x7b' :: prettyMembers level (m :: ms)

/-- Items on lines of their own, then the closing bracket. -/
def prettyItems (level : Nat) : List Tree → List Char
  | [] => [']']
  | [x] => newline (level + 1) ++ prettyAt (level + 1) x ++ newline level ++ [']']
  | x :: y :: rest =>
    newline (level + 1) ++ prettyAt (level + 1) x ++ ',' :: prettyItems level (y :: rest)

/-- Members on lines of their own, then the closing brace. -/
def prettyMembers (level : Nat) : List (Literal × Tree) → List Char
  | [] => ['\x7d']
  | [(k, x)] =>
    newline (level + 1) ++ k.text ++ ':' :: ' ' :: prettyAt (level + 1) x ++ newline level ++
      ['\x7d']
  | (k, x) :: m :: rest =>
    newline (level + 1) ++ k.text ++ ':' :: ' ' :: prettyAt (level + 1) x ++
      ',' :: prettyMembers level (m :: rest)

end

/-- The text of a tree, one item a line. -/
def pretty (t : Tree) : List Char := prettyAt 0 t

end Tree

end InferenceEngine.Json
