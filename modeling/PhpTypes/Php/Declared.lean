import PhpTypes.Php.Imports

/-!
# Declared routines

The functions and methods that a program declares, each with the scope it is declared in. Imports
take effect from their place on. A block starts with the scope of its surroundings, and its imports
end with it; a namespace starts with a scope of its own. Bodies of functions and of compound
statements are not searched.
-/

namespace PhpTypes.Php

/-- A declared routine: its head, the name of its class and its scope. -/
structure Declared where
  head : RoutineHead
  className : Option String
  scope : Scope
  deriving DecidableEq

/-- The routine that a member of a class declares. -/
def Member.declared? (className : String) (scope : Scope) : Member → Option Declared
  | .method head _ => some ⟨head, some className, scope⟩
  | .other => none

mutual

/-- The routines that a statement declares in a scope. -/
def Statement.declared (scope : Scope) : Statement → List Declared
  | .imports _ => []
  | .space name body => declaredIn (Scope.ofNamespace name) body
  | .block body => declaredIn scope body
  | .function head _ => [⟨head, none, scope⟩]
  | .classLike _ name members => members.filterMap (Member.declared? name scope)
  | .compound _ _ => []
  | .other => []

/-- The routines that a list of statements declares, starting in a scope. -/
def declaredIn (scope : Scope) : List Statement → List Declared
  | [] => []
  | statement :: rest =>
    let after := match statement with
      | .imports list => list.register scope
      | _ => scope
    statement.declared scope ++ declaredIn after rest

end

end PhpTypes.Php
