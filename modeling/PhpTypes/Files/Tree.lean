import PhpTypes.Files.Path

/-!
# File trees

The files that a run can see are a tree of named entries, in which one directory is the working
directory. Reading a file can fail because there is none, because the path leads to a directory,
or because the contents are not text.
-/

namespace PhpTypes.Files

/-- A file with its bytes, or a directory with its entries. -/
inductive Node where
  | file (bytes : ByteArray)
  | directory (entries : List (String × Node))

namespace Node

/-- The directory without entries. -/
def empty : Node :=
  .directory []

instance : Inhabited Node := ⟨empty⟩

/-- Whether the node is a file. -/
def isFile : Node → Bool
  | file _ => true
  | directory _ => false

/-- Whether the node is a directory. -/
def isDirectory : Node → Bool
  | file _ => false
  | directory _ => true

/-- The entry of a directory with the given name. -/
def entry? : Node → String → Option Node
  | file _, _ => none
  | directory entries, name => entries.lookup name

/-- The bytes of a file. -/
def bytes? : Node → Option ByteArray
  | file bytes => some bytes
  | directory _ => none

/-- The text of a file, if its bytes are text. -/
def text? (node : Node) : Option String :=
  node.bytes?.bind String.fromUTF8?

/-- The node below a node, along names. -/
def descend? : Node → List String → Option Node
  | node, [] => some node
  | node, name :: rest => do (← node.entry? name).descend? rest

/-- Puts a file at the end of a path of names; directories on the way are made. -/
def insert (bytes : ByteArray) : List String → Node → Node
  | [], _ => .file bytes
  | name :: rest, node =>
    let entries := match node with
      | .file _ => []
      | .directory entries => entries
    let below := insert bytes rest ((entries.lookup name).getD empty)
    .directory (entries.filter (·.1 != name) ++ [(name, below)])

end Node

/-- A tree of files with the names that lead to the working directory. -/
structure FileSystem where
  top : Node
  work : List String

instance : Inhabited FileSystem := ⟨⟨.empty, []⟩⟩

namespace FileSystem

/-- Follows the parts of a path; `above` holds the names that lead to the present node, last
first. Every part before the last has to be a directory. The directory above the top is the top. -/
def follow (top : Node) (above : List String) : List String → Option (List String)
  | [] => some above
  | part :: rest => do
    let here ← top.descend? above.reverse
    guard here.isDirectory
    if part == "" || part == "." then follow top above rest
    else if part == ".." then follow top (above.drop 1) rest
    else do
      let _ ← here.entry? part
      follow top (part :: above) rest

/-- The names that lead from the top to what a path denotes, if it exists. Relative paths start at
the working directory. -/
def locate? (fs : FileSystem) (path : String) : Option (List String) := do
  guard (!path.isEmpty)
  let start := if isAbsolute path then [] else fs.work.reverse
  let names ← follow fs.top start ((path.toList.splitOn '/').map String.ofList)
  return names.reverse

/-- What a path denotes, if it exists. -/
def find? (fs : FileSystem) (path : String) : Option Node := do
  fs.top.descend? (← fs.locate? path)

/-- The bytes of the file that a path denotes. -/
def readBytes? (fs : FileSystem) (path : String) : Option ByteArray := do
  (← fs.find? path).bytes?

/-- Whether a path denotes a file. -/
def isFile (fs : FileSystem) (path : String) : Bool :=
  (fs.find? path).any Node.isFile

/-- The text of the file that a path denotes. -/
def readText? (fs : FileSystem) (path : String) : Option String := do
  (← fs.find? path).text?

end FileSystem

/-- What a run can see: the files from the working directory on, from the directory of the user's
settings on, and from the user's home on. -/
structure Environment where
  files : FileSystem
  settings : FileSystem
  home : FileSystem

end PhpTypes.Files
