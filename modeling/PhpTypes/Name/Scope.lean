import PhpTypes.Name.Qualified

/-!
# Naming scopes

A naming scope holds what is in effect where a name was written: the current namespace and the
imports. A raw name is resolved by the following rules, of which the first that applies is taken.

1. A name that starts with a backslash, or is declared to be fully qualified, stays as it is.
2. Names that refer to the enclosing class and bare words of the vocabulary stay as they are.
3. If the first segment is an imported alias, the target of the import takes its place.
4. A first segment `namespace` is replaced by the current namespace.
5. Any other name is put into the current namespace.
-/

namespace PhpTypes

/-- The namespace and the imports in effect at some place. -/
structure Scope where
  /-- The current namespace, if it is not the global one. -/
  current : Option String
  /-- Targets by alias. Aliases are in lower case and occur once; targets start with a segment. -/
  imports : List (String × String)
  deriving DecidableEq, Repr

namespace Scope

/-- The global namespace without imports. -/
def empty : Scope where
  current := none
  imports := []

instance : Inhabited Scope := ⟨empty⟩

/-- Whether a character separates segments. -/
def isSeparator (c : Char) : Bool :=
  c == '\\'

/-- The text of a namespace without backslashes at its ends; empty text is the global
namespace. -/
def normalizeNamespace (text : String) : Option String :=
  match Text.dropEndWhile isSeparator (text.toList.dropWhile isSeparator) with
  | [] => none
  | cs => some (.ofList cs)

/-- Makes `text` the current namespace. -/
def setNamespace (scope : Scope) (text : Option String) : Scope :=
  { scope with current := text.bind normalizeNamespace }

/-- A scope without imports in the given namespace. -/
def ofNamespace (text : Option String) : Scope :=
  empty.setNamespace text

/-- The text without the backslashes at its start. -/
def dropSeparators (text : String) : String :=
  .ofList (text.toList.dropWhile isSeparator)

/-- Binds an alias to a target. A later import replaces an earlier one whose alias differs at most
in letter case. Without alias or target nothing changes. -/
def addAlias (scope : Scope) (localName target : String) : Scope :=
  let target := dropSeparators target
  if localName.isEmpty || target.isEmpty then scope
  else
    let others := scope.imports.filter fun entry => entry.1 != localName.foldCase
    { scope with imports := (localName.foldCase, target) :: others }

/-- The text after the last backslash. -/
def lastSegment (text : String) : String :=
  .ofList (text.toList.reverse.takeWhile (!isSeparator ·)).reverse

/-- Imports a target under its last segment. -/
def addImport (scope : Scope) (target : String) : Scope :=
  scope.addAlias (lastSegment (dropSeparators target)) target

/-- The target that an alias is bound to, in any letter case. -/
def target? (scope : Scope) (localName : String) : Option String :=
  scope.imports.lookup localName.foldCase

/-- The name that `text` denotes in the current namespace. -/
def prepend (scope : Scope) (text : String) : QualifiedName :=
  match scope.current with
  | some namespaceText => .parse (namespaceText ++ "\\" ++ text)
  | none => .parse text

/-- Applies imports and the current namespace to a name. -/
def apply (scope : Scope) (q : QualifiedName) : QualifiedName :=
  let text := q.toText
  let first := q.segments.headD ""
  let rest := q.segments.tail
  match scope.target? first with
  | some target =>
    if rest.isEmpty then .parse target
    else .parse (target ++ "\\" ++ "\\".intercalate rest)
  | none =>
    -- The word `namespace` alone is an ordinary name.
    if !rest.isEmpty && first.sameFolded "namespace" then
      scope.prepend ("\\".intercalate rest)
    else
      scope.prepend text

end Scope

/-- The name that a raw name denotes in a scope, or in no scope. -/
def resolveName (scope : Option Scope) (raw : String) (fullyQualified : Bool) : QualifiedName :=
  let q := QualifiedName.parse raw
  if fullyQualified || (Text.trim raw.toList).head? == some '\\' then q
  else if q.isReserved || q.isPrimitive then q
  else
    match scope with
    | some scope => scope.apply q
    | none => q

end PhpTypes
