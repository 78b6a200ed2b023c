import PhpTypes.Text.Case
import PhpTypes.Text.Pieces

/-!
# Paths

A path is a text whose parts are separated by slashes. Two paths are compared part by part, so
that everything in a directory stands together: `a/b` comes before `a-b`. Empty parts do not count,
and a part `.` counts at the start of a path only.
-/

namespace PhpTypes.Files

/-- A part of a path, by which paths are compared. -/
inductive Component where
  /-- The slash at the start of an absolute path. -/
  | root
  /-- A part `.` at the start. -/
  | current
  /-- A part `..`. -/
  | parent
  | named (name : String)
  deriving DecidableEq, Repr

namespace Component

/-- The place of the different components in the order. -/
def rank : Component → Nat
  | root => 0
  | current => 1
  | parent => 2
  | named _ => 3

/-- The order of components; names are ordered by their characters. -/
def compare (a b : Component) : Ordering :=
  match a, b with
  | named s, named t => Ord.compare s t
  | _, _ => Ord.compare a.rank b.rank

end Component

/-- The texts between the slashes of a path, without empty ones. -/
def parts (path : String) : List String :=
  (Text.pieces '/' path.toList).map String.ofList

/-- Whether a path starts with a slash. -/
def isAbsolute (path : String) : Bool :=
  path.toList.head? == some '/'

/-- The component that a part of a path is, unless it does not count. -/
def component? (part : String) : Option Component :=
  if part == "." then none else if part == ".." then some .parent else some (.named part)

/-- The components of a path. -/
def components (path : String) : List Component :=
  let counted := (parts path).filterMap component?
  if isAbsolute path then .root :: counted
  else if (parts path).head? == some "." then .current :: counted
  else counted

/-- The lexicographic order of paths by their components. -/
def comparePaths (a b : String) : Ordering :=
  go (components a) (components b)
where
  /-- Compares lists of components. -/
  go : List Component → List Component → Ordering
    | [], [] => .eq
    | [], _ :: _ => .lt
    | _ :: _, [] => .gt
    | x :: xs, y :: ys => (x.compare y).then (go xs ys)

/-- The name of the file that a path leads to, unless it ends in `..` or has no names. -/
def fileName? (path : String) : Option String :=
  match (components path).getLast? with
  | some (.named name) => some name
  | _ => none

/-- What follows the last dot of a file name. A dot at the start of the name does not count. -/
def extension? (path : String) : Option String := do
  let name := (← fileName? path).toList
  let after := (name.reverse.takeWhile (· != '.')).reverse
  let before := name.take (name.length - after.length - 1)
  if after.length < name.length && !before.isEmpty then some (.ofList after) else none

/-- The path of an entry of a directory. -/
def child (directory name : String) : String :=
  if directory.toList.getLast? == some '/' then directory ++ name else directory ++ "/" ++ name

/-- The path that leads to `path` if that starts at a directory. -/
def join (directory path : String) : String :=
  if isAbsolute path || directory.isEmpty then path else child directory path

/-- The absolute path along names. -/
def absolutePath (names : List String) : String :=
  "/" ++ "/".intercalate names

/-! ## Cutting paths -/

/-- What follows `lead` in a path that starts with it, otherwise the whole path. -/
def dropLead (lead path : String) : String :=
  .ofList (Text.dropLead lead.toList path.toList)

/-- The path without one part `.` at its start. -/
def dropCurrent (path : String) : String :=
  dropLead "./" path

/-- Whether a path consists of parts `.` alone. -/
def isCurrent (path : String) : Bool :=
  components path == [.current]

/-- A path as seen from a directory, as far as the two are written alike. A name alone is left as
it is, as is every path if the directory is the present one. -/
def seenFrom (directory path : String) : String :=
  let path := dropCurrent path
  if isCurrent directory || !path.contains '/' then path
  else
    match directory.toList.isPrefixOf? path.toList with
    | some rest => .ofList (Text.dropLead ['/'] rest)
    | none => path

end PhpTypes.Files
