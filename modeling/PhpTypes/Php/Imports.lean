import PhpTypes.Name.Scope
import PhpTypes.Php.Syntax

/-!
# Imports and scopes

Type annotations can only name classes, so imports of functions and constants do not enter the
scope. A member of a group is imported with the name of the group in front.
-/

namespace PhpTypes.Php

/-- The full name of a member of a group. -/
def groupTarget (lead name : String) : String :=
  String.ofList (Text.dropEndWhile Scope.isSeparator lead.toList) ++ "\\" ++ name

/-- Adds an import of a class to a scope. -/
def registerImport (scope : Scope) (target : String) (localName : Option String) : Scope :=
  match localName with
  | some localName => scope.addAlias localName target
  | none => scope.addImport target

/-- Adds the imports of a statement to a scope. -/
def ImportList.register (list : ImportList) (scope : Scope) : Scope :=
  match list with
  | .plain items =>
    items.foldl (fun scope item => registerImport scope item.name item.localName) scope
  | .typed _ _ => scope
  | .typedGroup _ _ _ => scope
  | .mixedGroup lead items =>
    items.foldl (fun scope (kind, item) =>
      if kind.isSome then scope
      else registerImport scope (groupTarget lead item.name) item.localName) scope

end PhpTypes.Php
