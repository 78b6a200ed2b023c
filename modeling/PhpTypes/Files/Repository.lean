import PhpTypes.Files.IgnoreRules

/-!
# Repositories

A directory with an entry `.git` or `.jj` is the top of a repository. A repository has a list of
excluded paths in the file `info/exclude` below its own directory, which is `.git`. If `.git` is a
file, it names the directory of one working tree, and the file `commondir` there names the directory
that all working trees of the repository share.
-/

namespace PhpTypes.Files

/-- Whether a directory is the top of a repository. -/
def isRepository (directory : Node) : Bool :=
  (directory.entry? ".git").isSome || (directory.entry? ".jj").isSome

/-- The path of the directory of a working tree, given the bytes of the file `.git`. -/
def workingTree? (bytes : ByteArray) : Option String := do
  let line ← (textLines bytes).head?
  let path ← "gitdir: ".toList.isPrefixOf? line.toList
  return .ofList path

/-- The path of the directory that working trees share, given that of one of them. A path with a
dot in front starts at the directory of the working tree. -/
def sharedDirectory? (fs : FileSystem) (tree : String) : Option String := do
  let line ← (textLines (← fs.readBytes? (join tree "commondir"))).head?
  return if line.startsWith "." then join tree line else line

/-- The rules for excluded paths of the repository whose top is a directory. -/
def excludedRules (fs : FileSystem) (directory : Node) : List IgnoreRule :=
  match directory.entry? ".git" with
  | none => []
  | some (.file bytes) =>
    match (workingTree? bytes).bind (sharedDirectory? fs) with
    | none => []
    | some shared => rulesOf (fs.find? (join shared "info/exclude"))
  | some node => rulesOf (node.descend? ["info", "exclude"])

end PhpTypes.Files
