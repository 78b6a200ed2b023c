import PhpTypes.Files.Tree
import PhpTypes.Name.Scope
import PhpTypes.Toml.Document

/-!
# Configuration

Settings are kept in a TOML file with two tables. The table `naming` gives the namespace and the
imports for annotations from the command line; the table `scan` says which files are scanned.

The file is looked for at an explicit path, then in the working directory, then in the directory
of the user's settings. Without any of them the defaults apply. Settings that are not known are
errors.
-/

namespace PhpTypes

/-- The scope of annotations from the command line. -/
structure NamingConfig where
  space : Option String
  /-- Targets by alias, in the order of the aliases. -/
  aliases : List (String × String)
  deriving DecidableEq, Repr

/-- Which files are scanned. -/
structure ScanConfig where
  /-- The extensions of PHP files, without the dot. -/
  extensions : List String
  /-- Whether hidden files and directories are scanned. -/
  hidden : Bool
  deriving DecidableEq, Repr

/-- All settings. -/
structure Config where
  naming : NamingConfig
  scan : ScanConfig
  deriving DecidableEq, Repr

/-- Why settings cannot be used. -/
inductive ConfigError where
  /-- The file cannot be read. -/
  | unreadable (path : String)
  /-- The contents of the file are not valid settings. -/
  | invalid (path : String)
  deriving DecidableEq, Repr

namespace ConfigError

/-- What the error says about its file, before the reason. -/
def message : ConfigError → String
  | unreadable path => "failed to read config file " ++ path ++ ": "
  | invalid path => "invalid config file " ++ path ++ ": "

end ConfigError

namespace Config

/-! ## Settings from TOML -/

/-- The values of the named settings. A table may hold these and no others. In place of a table an
array may list the values of the first settings in order. -/
def settings? (names : List String) : Toml.Value → Option (List (Option Toml.Value))
  | .table _ entries =>
    if entries.all fun entry => names.contains entry.1 then
      some (names.map (Toml.Entries.valueOf? entries))
    else none
  | .array _ items => some ((items.take names.length).map some)
  | _ => none

/-- A setting that keeps its default if it is absent. -/
def setting? {α : Type} (read : Toml.Value → Option α) (fallback : α) :
    Option (Option Toml.Value) → Option α
  | some (some value) => read value
  | _ => some fallback

/-- A text. -/
def text? : Toml.Value → Option String
  | .string s => some s
  | _ => none

/-- A truth value. -/
def flag? : Toml.Value → Option Bool
  | .boolean b => some b
  | _ => none

/-- A list of texts. -/
def texts? : Toml.Value → Option (List String)
  | .array _ items => items.mapM text?
  | _ => none

/-- The key under which a date or a time stands where a table is expected. -/
def momentKey : String :=
  "$__toml_private_datetime"

/-- A table of texts, in the order of its keys. A date or a time counts as a table with one
entry. -/
def textTable? : Toml.Value → Option (List (String × String))
  | .table _ entries => do
    let pairs ← entries.mapM fun entry => return (entry.1, ← text? entry.2)
    return pairs.mergeSort fun a b => a.1 ≤ b.1
  | .moment m => some [(momentKey, m.toText)]
  | _ => none

end Config

namespace NamingConfig

/-- The settings without a file. -/
def default : NamingConfig where
  space := none
  aliases := []

/-- Reads the table `naming`. -/
def ofToml? (value : Toml.Value) : Option NamingConfig := do
  let values ← Config.settings? ["namespace", "aliases"] value
  return {
    space := ← Config.setting? (fun v => (Config.text? v).map some) default.space values[0]?
    aliases := ← Config.setting? Config.textTable? default.aliases values[1]? }

end NamingConfig

namespace ScanConfig

/-- The settings without a file: PHP files that are not hidden. -/
def default : ScanConfig where
  extensions := ["php"]
  hidden := false

/-- Reads the table `scan`. -/
def ofToml? (value : Toml.Value) : Option ScanConfig := do
  let values ← Config.settings? ["extensions", "hidden"] value
  return {
    extensions := ← Config.setting? Config.texts? default.extensions values[0]?
    hidden := ← Config.setting? Config.flag? default.hidden values[1]? }

end ScanConfig

namespace Config

/-- The settings without a file. -/
def default : Config where
  naming := .default
  scan := .default

/-- Reads settings from the text of a file; the path is for errors only. -/
def ofToml (text path : String) : Except ConfigError Config :=
  let read? : Option Config := do
    let entries ← Toml.parse? text
    let values ← settings? ["naming", "scan"] (.table .header entries)
    return {
      naming := ← setting? NamingConfig.ofToml? default.naming values[0]?
      scan := ← setting? ScanConfig.ofToml? default.scan values[1]? }
  match read? with
  | some config => .ok config
  | none => .error (.invalid path)

/-! ## Looking for the file -/

/-- The name of the file in the working directory. -/
def projectFile : String :=
  "phpdoc-typemask.toml"

/-- The path of the file in the directory of the user's settings. -/
def userFile : String :=
  "phpdoc-typemask/config.toml"

/-- Reads the settings at a path. -/
def ofFile (fs : Files.FileSystem) (path : String) : Except ConfigError Config :=
  match fs.readText? path with
  | some text => ofToml text path
  | none => .error (.unreadable path)

/-- The settings of a run, given the files and the files as seen from the directory of the user's
settings. An explicit path has to exist. -/
def load (explicit : Option String) (fs user : Files.FileSystem) : Except ConfigError Config :=
  match explicit with
  | some path => ofFile fs path
  | none =>
    -- A directory with the name of the file is passed over.
    if fs.isFile projectFile then ofFile fs projectFile
    else if user.isFile userFile then ofFile user userFile
    else .ok default

/-! ## Use -/

/-- The scope that the settings describe. -/
def scope (config : Config) : Scope :=
  config.naming.aliases.foldl (fun s entry => s.addAlias entry.1 entry.2)
    (Scope.ofNamespace config.naming.space)

/-- Whether a path has one of the extensions of PHP files, in any letter case. -/
def isPhpFile (config : Config) (path : String) : Bool :=
  (Files.extension? path).any fun found => config.scan.extensions.any found.sameFolded

end Config

end PhpTypes
