import PhpTypes.CommandLine.Request
import PhpTypes.Config
import PhpTypes.Files.Walk
import PhpTypes.Php.File
import PhpTypes.Report.Scan
import PhpTypes.TypeExpr.Meaning

/-!
# Runs of the program

A run takes its arguments and the files that it can see. It gives an exit code with the text for
standard output. The code is 2 for arguments that are not understood, and 1 if settings or scanned
files cannot be read.
-/

namespace PhpTypes.CommandLine

/-- What a run leaves behind: its exit code, its output and its messages about errors. -/
structure Outcome where
  code : Nat
  output : String
  errors : List String
  deriving DecidableEq, Repr

/-- The answer to the option `--version`. -/
def versionText : String :=
  "phpdoc-typemask 0.1.0\n"

/-- The answer to the option `--help`. -/
def helpText : String :=
  "Resolve PHPDoc type annotations into type masks\n\n" ++
  "Usage: phpdoc-typemask [OPTIONS] <COMMAND>\n\n" ++
  "Commands:\n" ++
  "  resolve [--namespace NAME] [--use ALIAS=TARGET]... [--fully-qualified] ANNOTATIONS...\n" ++
  "  scan PATHS...\n\n" ++
  "Options:\n" ++
  "  --config PATH   settings to use\n" ++
  "  -v, --verbose   log more\n" ++
  "  --json          print JSON instead of text\n"

/-- The message about arguments that are not understood. -/
def usageText : String :=
  "the arguments are not understood; try --help"

/-! ## Resolving annotations -/

/-- Adds an import that is given as `alias=target` or as the target alone. -/
def addUse (scope : Scope) (text : String) : Scope :=
  let trimmed (cs : List Char) : String := .ofList (Text.trim cs)
  match Text.cutAt? '=' text.toList with
  | some (localName, target) => scope.addAlias (trimmed localName) (trimmed target)
  | none => scope.addImport (trimmed text.toList)

/-- The scope of annotations: that of the settings, changed by options. -/
def commandScope (config : Config) (space : Option String) (uses : List String) : Scope :=
  let scope := if space.isSome then config.scope.setNamespace space else config.scope
  uses.foldl addUse scope

/-- Resolves annotations one after the other in one registry; each comes with the text of its
mask. -/
def resolveTexts (scope : Scope) (fullyQualified : Bool) :
    List String → Registry → List (String × String)
  | [], _ => []
  | text :: rest, r =>
    let (mask, r) :=
      TypeExpr.resolveAll (some scope) fullyQualified (TypeExpr.splitAlternatives text) r
    (text, r.describe mask) :: resolveTexts scope fullyQualified rest r

/-- The output for resolved annotations. -/
def resolvedOutput (json : Bool) (resolved : List (String × String)) : String :=
  if json then
    let item (entry : String × String) : Report.Json :=
      .record [("annotation", .text entry.1), ("mask", .text entry.2)]
    (Report.Json.list (resolved.map item)).toText ++ "\n"
  else String.join (resolved.map fun entry => entry.1 ++ "\t" ++ entry.2 ++ "\n")

/-! ## Scanning files -/

/-- The PHP files that a path stands for, with their bytes: the file itself, or the files with the
right extension below a directory. A hyphen that names no file stands for the standard input, which
holds none. -/
def collect (config : Config) (env : Files.Environment) (path : String) :
    List (String × ByteArray) :=
  match env.files.find? path with
  | some (.file bytes) => [(path, bytes)]
  | _ =>
    if path == "-" then []
    else (Files.filesBelow env config.scan.hidden path).filter fun file => config.isPhpFile file.1

/-- The files that paths stand for, in the order of their paths. -/
def collectAll (config : Config) (env : Files.Environment) (paths : List String) :
    List (String × ByteArray) :=
  (paths.flatMap (collect config env)).mergeSort fun a b =>
    Files.comparePaths a.1 b.1 != .gt

/-- The outcome of a report on scanned files. -/
def reportFiles (json : Bool) (files : List Report.ScannedFile) : Outcome :=
  match Report.Scan.ofFiles files with
  | .ok scan =>
    { code := if scan.failures.isEmpty then 0 else 1
      output := if json then scan.toJson.toText ++ "\n" else scan.toText
      errors := scan.failures.map fun e => e.message ++ "not text" }
  | .error e => { code := 1, output := "", errors := [e.message] }

/-! ## The program -/

/-- Runs a request. -/
def runRequest (request : Request) (env : Files.Environment) : Outcome :=
  match Config.load request.config env.files env.settings with
  | .error e => { code := 1, output := "", errors := [e.message] }
  | .ok config =>
    match request.command with
    | .resolve space uses fullyQualified texts =>
      let scope := commandScope config space uses
      let resolved := resolveTexts scope fullyQualified texts .empty
      { code := 0, output := resolvedOutput request.json resolved, errors := [] }
    | .scan paths =>
      let files := collectAll config env paths
      reportFiles request.json (files.map fun file => (file.1, Php.scanFile env.files file.1))

/-- Runs the program. -/
def run (arguments : List String) (env : Files.Environment) : Outcome :=
  match readRequest arguments with
  | .ok request => runRequest request env
  | .error (.requested "version") => { code := 0, output := versionText, errors := [] }
  | .error (.requested _) => { code := 0, output := helpText, errors := [] }
  | .error .usage => { code := 2, output := "", errors := [usageText] }

end PhpTypes.CommandLine
