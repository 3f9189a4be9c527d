import InferenceEngine.Decoder

/-!
# Files

What a program sees of a file system: finitely many regular files and directories, each found by
the names along its path.

* `Files.node?` is what stands under a path, and `Files.read?` the contents of a regular file.
* `Files.decodeText?` and `Files.encodeText` go between bytes and text.
-/

namespace InferenceEngine

/-- What stands under a path. -/
inductive FileNode
  /-- a regular file with its contents -/
  | file (content : Bytes)
  /-- a directory -/
  | directory
deriving DecidableEq

/-- The files and directories, newest first. -/
structure Files where
  /-- each with the names along its path -/
  nodes : List (List String × FileNode)

namespace Files

/-! ## Paths -/

/-- Takes one step along a path: an empty name and a single dot stay, two dots go back. -/
def enter (here : List String) (name : String) : List String :=
  if name = "" ∨ name = "." then here else if name = ".." then here.dropLast else here ++ [name]

/-- The names along a path. -/
def parts (path : String) : List String := (path.splitOn "/").foldl enter []

/-- The path of an entry of a directory. A name that starts at the root stands for itself. -/
def join (dir name : String) : String :=
  if dir = "" ∨ name.startsWith "/" then name
  else if dir.endsWith "/" then dir ++ name
  else dir ++ "/" ++ name

/-- The last name along a path, cut at its last dot unless that comes first. -/
def extension (path : String) : String :=
  let name := ((parts path).getLast?).getD ""
  match name.splitOn "." with
  | [] | [_] => ""
  -- a dot in front begins a hidden name and no extension
  | ["", _] => ""
  | pieces => pieces.getLast?.getD ""

/-- A path with an extension put after its last name, past which nothing but single dots may
stand; a path that ends by going back has no last name. -/
def withExtension? (path extension : String) : Option String :=
  match (path.splitOn "/").reverse.dropWhile fun name => name = "" ∨ name = "." with
  | [] | ".." :: _ => none
  | name :: above =>
    some ("/".intercalate (above.reverse ++ [name ++ "." ++ extension]))

/-! ## Files and directories -/

/-- No files. -/
def empty : Files := ⟨[]⟩

/-- Puts something under a path. -/
def add (f : Files) (path : String) (node : FileNode) : Files := ⟨(parts path, node) :: f.nodes⟩

/-- A directory stands there: the root, one that is listed, or one that something else stands in. -/
def isDirectory (f : Files) (here : List String) : Bool :=
  match f.nodes.lookup here with
  | some node => node = .directory
  | none => here.isEmpty || f.nodes.any fun n => here.isPrefixOf n.1

/-- Follows a path; every step has to start in a directory. -/
def follow (f : Files) (here : List String) : List String → Option (List String)
  | [] => some here
  | name :: rest => if f.isDirectory here then f.follow (enter here name) rest else none

/-- What stands under a path. -/
def node? (f : Files) (path : String) : Option FileNode :=
  match f.follow [] (path.splitOn "/") with
  | none => none
  | some here => if f.isDirectory here then some .directory else f.nodes.lookup here

/-- The contents of a regular file. -/
def read? (f : Files) (path : String) : Option Bytes :=
  match f.node? path with
  | some (.file content) => some content
  | _ => none

/-! ## Text -/

/-- The text that bytes encode. -/
def decodeText? (bytes : Bytes) : Option String := String.fromUTF8? ⟨bytes.toArray⟩

/-- The bytes of a text. -/
def encodeText (text : String) : Bytes := text.toUTF8.toList

/-- The text of a regular file. -/
def readText? (f : Files) (path : String) : Option String := (f.read? path).bind decodeText?

end Files

end InferenceEngine
