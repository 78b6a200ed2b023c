import PhpTypes.DocComment.Basic
import PhpTypes.Name.Scope

/-!
# Routines

A routine is a function or a method with everything that its documentation has to be read with:
its parameters, its native type hints, its doc comment and the naming scope it was declared in.
-/

namespace PhpTypes

/-- A declared parameter. -/
structure Parameter where
  /-- The name with its `$`. -/
  name : String
  /-- The native type hint in annotation notation. -/
  hint : Option String
  variadic : Bool
  deriving DecidableEq, Repr

/-- A declared function or method. -/
structure Routine where
  name : String
  /-- The simple name of the class of a method. -/
  className : Option String
  parameters : List Parameter
  /-- The native hint of the result in annotation notation. -/
  returnHint : Option String
  doc : Option DocComment
  scope : Scope
  deriving DecidableEq, Repr

namespace Routine

/-- The name of the routine with its namespace and, for a method, its class. -/
def displayName (routine : Routine) : String :=
  let spaceText := (routine.scope.current.map (· ++ "\\")).getD ""
  let classText := (routine.className.map (· ++ "::")).getD ""
  spaceText ++ classText ++ routine.name

end Routine

end PhpTypes
