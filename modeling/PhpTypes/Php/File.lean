import PhpTypes.Files.Tree
import PhpTypes.Php.Scan

/-!
# Scanning PHP files

A file is scanned like its text. A file that does not exist or is not text cannot be scanned.
-/

namespace PhpTypes.Php

/-- Why a file cannot be scanned. -/
inductive ScanError where
  | unreadable (path : String)
  deriving DecidableEq, Repr

/-- What the error says about its file, before the reason. -/
def ScanError.message : ScanError → String
  | unreadable path => "failed to read " ++ path ++ ": "

/-- The routines of a file, given its text if that could be read. -/
def scanRead (path : String) : Option String → Except ScanError (List Routine)
  | some text => .ok (scan text)
  | none => .error (.unreadable path)

/-- The routines of the file at a path. -/
def scanFile (fs : Files.FileSystem) (path : String) : Except ScanError (List Routine) :=
  scanRead path (fs.readText? path)

/-- A file is scanned exactly if it can be read. -/
@[simp] theorem isOk_scanRead (path : String) (text : Option String) :
    (scanRead path text).isOk = text.isSome := by
  cases text <;> rfl

end PhpTypes.Php
