import PhpTypes.CommandLine.Run

/-!
# The program

Takes a picture of the files that a run can need, runs, and prints the outcome. The picture holds
the settings, everything at the paths that are given as arguments, and what ignore rules come from:
the directories above those paths, directories that repositories share, and the user's settings.
-/

namespace PhpTypes.Main

open Files

/-- The names that lead from the top to a path, seen from the directory that `work` leads to. -/
def absoluteNames (work : List String) (path : String) : List String :=
  let start := if isAbsolute path then [] else work.reverse
  let step (above : List String) (part : String) : List String :=
    if part == "." then above else if part == ".." then above.drop 1 else part :: above
  ((parts path).foldl step start).reverse

/-- The files at and below a path. A file that cannot be read is there, with bytes that are no
text. -/
partial def load (path : String) : IO (Option Node) := do
  let here := (← IO.currentDir) / path
  if ← here.isDir then
    let found ← try here.readDir catch _ => pure #[]
    let mut entries : List (String × Node) := []
    for entry in found do
      if let some node ← load (child path entry.fileName) then
        entries := (entry.fileName, node) :: entries
    return some (.directory entries)
  else
    try return some (.file (← IO.FS.readBinFile here))
    catch _ => return if ← here.pathExists then some (.file ⟨#[0xff]⟩) else none

/-- The node with a loaded node below it, along names. -/
def graft (node : Node) : List String → Node → Node
  | [], _ => node
  | name :: rest, top =>
    let entries := match top with
      | .file _ => []
      | .directory entries => entries
    let below := graft node rest ((entries.lookup name).getD .empty)
    .directory ((name, below) :: entries.filter (·.1 != name))

/-- Adds what stands at the end of names, if anything does. -/
def picture (names : List String) (top : Node) : IO Node := do
  match ← load (absolutePath names) with
  | some node => return graft node names top
  | none => return top

/-- The files with ignore rules that belong to a directory. -/
def ruleFiles : List (List String) :=
  [[".ignore"], [".gitignore"], [".git", "info", "exclude"]]

/-- Adds the ignore rules of the directories above the end of names, and the entries that make
them repositories. -/
def pictureRules (names : List String) (top : Node) : IO Node := do
  let mut top := top
  for n in List.range names.length do
    let above := names.take n
    for entry in [".git", ".jj"] do
      if ← ((← IO.currentDir) / absolutePath (above ++ [entry])).isDir then
        top := graft .empty (above ++ [entry]) top
      else top ← picture (above ++ [entry]) top
    for file in ruleFiles do
      top ← picture (above ++ file) top
  return top

/-- The directories of working trees that files in a picture name. -/
partial def workingTrees : Node → List String
  | .file _ => []
  | .directory entries => entries.flatMap fun (name, node) =>
    match node with
    | .file bytes => if name == ".git" then (workingTree? bytes).toList else []
    | node => workingTrees node

/-- Adds the excluded paths of repositories that are named by files. -/
def pictureShared (work : List String) (top : Node) : IO Node := do
  let mut top := top
  for tree in workingTrees top do
    top ← picture (absoluteNames work (join tree "commondir")) top
    if let some shared := sharedDirectory? ⟨top, work⟩ tree then
      top ← picture (absoluteNames work (join shared "info/exclude")) top
  return top

/-- The paths that the arguments of a run could name. -/
def namedPaths (arguments : List String) : List String :=
  match CommandLine.readRequest arguments with
  | .ok request =>
    let scanned := match request.command with
      | .scan paths => paths
      | .resolve _ _ _ _ => []
    Config.projectFile :: request.config.toList ++ scanned
  | .error _ => []

/-- The names of the user's home. -/
def homeNames (work : List String) : IO (List String) := do
  return absoluteNames work ((← IO.getEnv "HOME").getD "/")

/-- The names of the directory of the user's settings. -/
def settingsNames (work home : List String) : IO (List String) := do
  match ← IO.getEnv "XDG_CONFIG_HOME" with
  | some path => if isAbsolute path then return absoluteNames work path
  | none => pure ()
  return home ++ [".config"]

/-- What a run with the given arguments can see. -/
def environment (arguments : List String) : IO Environment := do
  let work := parts (← IO.currentDir).toString
  let home ← homeNames work
  let settings ← settingsNames work home
  let named := (namedPaths arguments).map (absoluteNames work)
  let mut top := graft .empty work .empty
  for names in named do
    top ← pictureRules names top
  for names in named do
    top ← picture names top
  top ← pictureShared work top
  for file in [["phpdoc-typemask", "config.toml"], ["git", "config"], ["git", "ignore"]] do
    top ← picture (settings ++ file) top
  top ← picture (home ++ [".gitconfig"]) top
  let env : Environment := ⟨⟨top, work⟩, ⟨top, settings⟩, ⟨top, home⟩⟩
  match env.excludesFile? with
  | none => return env
  | some path =>
    top ← picture (absoluteNames work path) top
    return ⟨⟨top, work⟩, ⟨top, settings⟩, ⟨top, home⟩⟩

end PhpTypes.Main

/-- Runs the program with the arguments of the command line. -/
def main (arguments : List String) : IO UInt32 := do
  let outcome := PhpTypes.CommandLine.run arguments (← PhpTypes.Main.environment arguments)
  (← IO.getStdout).putStr outcome.output
  for message in outcome.errors do
    (← IO.getStderr).putStrLn message
  return UInt32.ofNat outcome.code
