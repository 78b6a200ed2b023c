import PhpTypes.Php.File
import PhpTypes.Registry.Describe
import PhpTypes.Report.Json
import PhpTypes.Signature

/-!
# Reports on scanned files

A report lists the signatures of all routines in some files. Every routine is resolved in a
registry of its own and then merged into one registry of the project, in which the report writes
its types. A file that cannot be read is passed over and noted.
-/

namespace PhpTypes.Report

/-- A parameter in a report. -/
structure ParameterEntry where
  name : String
  mask : String
  source : String
  deriving DecidableEq, Repr

/-- A routine in a report. -/
structure RoutineEntry where
  file : String
  routine : String
  parameters : List ParameterEntry
  returns : String
  returnSource : String
  deriving DecidableEq, Repr

/-- The path of a file with the routines that were found there, or why there are none. -/
abbrev ScannedFile := String × Except Php.ScanError (List Routine)

/-- A report as far as it has been made, with the registry of the project. -/
structure Scan where
  project : Registry
  routines : List RoutineEntry
  /-- What went wrong with the files that were passed over. -/
  failures : List Php.ScanError

namespace Scan

/-- The report on no files. -/
def empty : Scan where
  project := .empty
  routines := []
  failures := []

/-- A merged signature as it is written in a project. -/
def entry (project : Registry) (file : String) (routine : Routine) (s : Signature) :
    RoutineEntry where
  file
  routine := routine.displayName
  parameters := s.parameters.map fun p =>
    { name := p.name, mask := project.describe p.mask, source := p.provenance.label }
  returns := project.describe s.returns
  returnSource := s.returnProvenance.label

/-- Adds a routine of a file. -/
def addRoutine (file : String) (scan : Scan) (routine : Routine) : Except TransferError Scan := do
  let (signature, own) := Signature.resolve routine .empty
  let (merged, project) ← signature.transfer scan.project own
  return { scan with
    project
    routines := scan.routines ++ [entry project file routine merged] }

/-- Adds a file. One that could not be scanned is passed over, and the reason is noted. -/
def addFile (scan : Scan) (file : ScannedFile) : Except TransferError Scan :=
  match file.2 with
  | .ok routines => routines.foldlM (addRoutine file.1) scan
  | .error e => .ok { scan with failures := scan.failures ++ [e] }

/-- The report on scanned files. -/
def ofFiles (files : List ScannedFile) : Except TransferError Scan :=
  files.foldlM addFile empty

/-! ## Output -/

/-- A routine on one line. -/
def line (entry : RoutineEntry) : String :=
  let parameters := entry.parameters.map fun p => p.mask ++ " $" ++ p.name
  entry.file ++ ": " ++ entry.routine ++ "(" ++ ", ".intercalate parameters ++ "): " ++
    entry.returns ++ "\n"

/-- The report in text. -/
def toText (scan : Scan) : String :=
  String.join (scan.routines.map line)

/-- A routine in JSON. -/
def routineJson (entry : RoutineEntry) : Json :=
  let parameter (p : ParameterEntry) : Json :=
    .record [("name", .text p.name), ("mask", .text p.mask), ("source", .text p.source)]
  .record [("file", .text entry.file), ("routine", .text entry.routine),
    ("parameters", .list (entry.parameters.map parameter)), ("returns", .text entry.returns),
    ("return_source", .text entry.returnSource)]

/-- The report in JSON, with all types of the project. -/
def toJson (scan : Scan) : Json :=
  let type (slot : Nat × String) : Json :=
    .record [("slot", .number slot.1), ("rendered", .text slot.2)]
  .record [("routines", .list (scan.routines.map routineJson)),
    ("types", .record [("types", .list (scan.project.snapshot.map type))])]

end Scan

end PhpTypes.Report
