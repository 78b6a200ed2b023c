import PhpTypes.Files.Repository
import PhpTypes.Files.UserRules

/-!
# Walking directories

A walk lists the files below a directory. It leaves out what ignore rules say, and hidden entries
unless they are asked for or kept by a rule.

Every directory can have rules of its own in a file `.ignore`, and, inside a repository, in
`.gitignore` and in the list of excluded paths of the repository. Rules of a directory come before
those of the directories above it, also above the start of the walk; rules from `.ignore` come
before all others. Beyond the top of a repository only `.ignore` counts.

Rules are about paths as they are written. At and below the start of a walk, a path is written with
the path of the start in front, as given; the directories above have absolute paths.
-/

namespace PhpTypes.Files

/-! ## Layers of rules -/

/-- The rules of one directory. -/
structure RuleLayer where
  /-- The path of the directory. -/
  root : String
  plain : List IgnoreRule
  tracked : List IgnoreRule
  excluded : List IgnoreRule
  isRepository : Bool

/-- The rules of a directory at a path. -/
def RuleLayer.ofDirectory (fs : FileSystem) (path : String) (directory : Node) : RuleLayer where
  root := dropCurrent path
  plain := rulesOf (directory.entry? ".ignore")
  tracked := rulesOf (directory.entry? ".gitignore")
  excluded := excludedRules fs directory
  isRepository := Files.isRepository directory

/-- The layers of the directories above a place, nearest first. -/
def layersAbove (fs : FileSystem) (names : List String) : List RuleLayer :=
  let above := (List.range names.length).filterMap fun n =>
    (fs.top.descend? (names.take n)).map
      (RuleLayer.ofDirectory fs (absolutePath (names.take n)))
  above.reverse

/-- An entry as the rules of a directory see it: with its path from there on. -/
structure View where
  layer : RuleLayer
  path : String

/-- What some rules of the directory say about the entry. -/
def View.judge (view : View) (rules : RuleLayer → List IgnoreRule) (isDirectory : Bool) :
    Verdict :=
  Files.judge (rules view.layer) (seenFrom view.layer.root view.path) isDirectory

/-- The first decision among views, nearest first. -/
def firstVerdict (rules : RuleLayer → List IgnoreRule) (isDirectory : Bool) :
    List View → Verdict
  | [] => .undecided
  | view :: above => (view.judge rules isDirectory).orElse (firstVerdict rules isDirectory above)

/-- The views up to the top of the innermost repository. -/
def repositoryViews : List View → List View
  | [] => []
  | view :: above => if view.layer.isRepository then [view] else view :: repositoryViews above

/-! ## The walk -/

/-- A walk below a directory. -/
structure Walk where
  fs : FileSystem
  /-- Whether hidden entries are listed. -/
  hidden : Bool
  /-- The user's rules for all repositories. -/
  everywhere : List IgnoreRule
  /-- The path of the directory, as given. -/
  start : String
  /-- The names that lead from the top to the directory. -/
  base : List String
  /-- The layers of the directories above the start, nearest first. -/
  above : List RuleLayer

namespace Walk

/-- The path of an entry from the start on. -/
def belowStart (walk : Walk) (path : String) : String :=
  if isCurrent walk.start then path
  else dropLead "/" (dropLead (dropCurrent walk.start) path)

/-- An entry as the layers of the walk see it, of which `inner` are at or below the start. -/
def views (walk : Walk) (inner : List RuleLayer) (path : String) : List View :=
  let near := dropCurrent path
  let far := join (absolutePath walk.base) (walk.belowStart near)
  inner.map (⟨·, near⟩) ++ walk.above.map (⟨·, far⟩)

/-- What all rules say about an entry. The user's rules start at the working directory. -/
def verdict (walk : Walk) (inner : List RuleLayer) (path : String) (isDirectory : Bool) :
    Verdict :=
  let views := walk.views inner path
  let plain := firstVerdict RuleLayer.plain isDirectory views
  if views.any (·.layer.isRepository) then
    -- The rules of a repository do not reach into another one inside of it.
    let own := repositoryViews views
    let user := seenFrom (absolutePath walk.fs.work) (dropCurrent path)
    plain.orElse <|
      (firstVerdict RuleLayer.tracked isDirectory own).orElse <|
        (firstVerdict RuleLayer.excluded isDirectory own).orElse <|
          judge walk.everywhere user isDirectory
  else plain

/-- Whether a name is that of a hidden entry. -/
def isHidden (name : String) : Bool :=
  name.startsWith "." && !name.endsWith "."

/-- Whether an entry with the given name is left out. -/
def skips (walk : Walk) (inner : List RuleLayer) (path name : String) (isDirectory : Bool) :
    Bool :=
  match walk.verdict inner path isDirectory with
  | .ignored => true
  | .kept => false
  | .undecided => !walk.hidden && isHidden name

mutual

/-- The files at or below a node that a path leads to, with the layers that hold above it. -/
def filesAt (walk : Walk) (inner : List RuleLayer) (path : String) :
    Node → List (String × ByteArray)
  | .file bytes => [(path, bytes)]
  | .directory entries =>
    let layer := RuleLayer.ofDirectory walk.fs path (.directory entries)
    walk.filesIn (layer :: inner) path entries

/-- The files at or below the entries of a directory. -/
def filesIn (walk : Walk) (inner : List RuleLayer) (path : String) :
    List (String × Node) → List (String × ByteArray)
  | [] => []
  | (name, node) :: rest =>
    let here := child path name
    let found := if walk.skips inner here name node.isDirectory then []
      else walk.filesAt inner here node
    found ++ walk.filesIn inner path rest

end

end Walk

/-- The files below the directory that a path denotes; none if it does not exist. -/
def filesBelow (env : Environment) (hidden : Bool) (path : String) :
    List (String × ByteArray) :=
  match env.files.locate? path with
  | none => []
  | some names =>
    let walk : Walk :=
      { fs := env.files, hidden, everywhere := env.userRules, start := path, base := names
        above := layersAbove env.files names }
    match env.files.top.descend? names with
    | some node => walk.filesAt [] path node
    | none => []

end PhpTypes.Files
