import PhpTypes.Files.Glob
import PhpTypes.Files.Lines
import PhpTypes.Files.Path
import PhpTypes.Files.Tree

/-!
# Ignore rules

A file of ignore rules holds one pattern a line. The last pattern that describes a path decides:
the path is ignored, or it is kept if the pattern has an exclamation mark in front. A pattern with
a slash inside describes paths from the directory of the file on; any other describes names
wherever they stand. A slash at the end restricts a pattern to directories.
-/

namespace PhpTypes.Files

/-- A rule: its pattern, what follows for the paths it describes, and whether it holds for
directories only. -/
structure IgnoreRule where
  pattern : Glob.Pattern
  keeps : Bool
  directoriesOnly : Bool
  deriving DecidableEq, Repr

namespace IgnoreRule

/-- A line without blanks at its end; a space behind a backslash stays. -/
def trimLine (line : List Char) : List Char :=
  if "\\ ".toList.isSuffixOf line then line else Text.trimEnd line

/-- The pattern for the text of a rule that is not tied to a place by a slash in front. -/
def floating (text : List Char) : List Char :=
  if text.contains '/' || text == "**".toList then text else "**/".toList ++ text

/-- The pattern under a directory does not describe the directory itself. -/
def strictlyBelow (text : List Char) : List Char :=
  if "/**".toList.isSuffixOf text then text ++ "/*".toList else text

/-- The rule in the text behind the marks in front. -/
def ofBody? (keeps anchored : Bool) (body : List Char) : Option IgnoreRule := do
  let directoriesOnly := body.getLast? == some '/'
  let text := if directoriesOnly then Text.dropEnd ['\\'] body.dropLast else body
  let text := strictlyBelow (if anchored then text else floating text)
  return { pattern := ← Glob.compile? (.ofList text), keeps, directoriesOnly }

/-- The rule in a line, if there is one. Lines with a number sign in front are comments. -/
def ofLine? (line : List Char) : Option IgnoreRule :=
  match trimLine line with
  | [] => none
  | '#' :: _ => none
  | '\\' :: '!' :: rest => ofBody? false false ('!' :: rest)
  | '\\' :: '#' :: rest => ofBody? false false ('#' :: rest)
  | '!' :: '/' :: rest => ofBody? true true rest
  | '!' :: rest => ofBody? true false rest
  | '/' :: rest => ofBody? false true rest
  | body => ofBody? false false body

/-- Whether the rule is about a path, relative to the directory of its file. -/
def appliesTo (rule : IgnoreRule) (path : String) (isDirectory : Bool) : Bool :=
  (!rule.directoriesOnly || isDirectory) && rule.pattern.matchesPath path

end IgnoreRule

/-- What rules say about a path. -/
inductive Verdict where
  | undecided
  | ignored
  | kept
  deriving DecidableEq, Repr

/-- The first verdict that is a decision. -/
def Verdict.orElse (a b : Verdict) : Verdict :=
  match a with
  | undecided => b
  | decided => decided

/-- The rules in the lines of a file. Byte order marks at its start are skipped. -/
def readIgnoreRules (bytes : ByteArray) : List IgnoreRule :=
  let lines :=
    match (textLines bytes).map String.toList with
    | [] => []
    | first :: rest => first.dropWhile (· == '\ufeff') :: rest
  lines.filterMap IgnoreRule.ofLine?

/-- The rules in a file; none if there is no such file. -/
def rulesOf (node : Option Node) : List IgnoreRule :=
  ((node.bind Node.bytes?).map readIgnoreRules).getD []

/-- What a list of rules says about a path. -/
def judge (rules : List IgnoreRule) (path : String) (isDirectory : Bool) : Verdict :=
  match rules.reverse.find? fun rule => rule.appliesTo path isDirectory with
  | none => .undecided
  | some rule => if rule.keeps then .kept else .ignored

end PhpTypes.Files
