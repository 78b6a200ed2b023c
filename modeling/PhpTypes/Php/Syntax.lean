import PhpTypes.Text.Case

/-!
# Syntax of declarations

The syntax tree keeps what declares routines and what decides on their naming scope: statements
with their nesting, functions and class-like declarations with their heads, imports and native
type hints. Expressions and everything else are not kept.
-/

namespace PhpTypes.Php

/-! ## Type hints -/

/-- A native type hint. -/
inductive Hint where
  /-- A name or a keyword, as written. -/
  | leaf (text : String)
  /-- The keyword `iterable`. -/
  | iterable
  /-- The keyword `never`. -/
  | never
  | nullable (inner : Hint)
  | union (left right : Hint)
  | intersection (left right : Hint)
  | group (inner : Hint)
  deriving DecidableEq, Repr

namespace Hint

/-- The hint that a single word stands for. -/
def ofWord (word : String) : Hint :=
  if word.sameFolded "iterable" then .iterable
  else if word.sameFolded "never" then .never
  else .leaf word

/-- The hint in annotation notation. Of an intersection only the left-most member is kept, since
annotations cannot express one. The keywords `iterable` and `never` are spelled in the vocabulary
of annotations, and parentheses are left out. -/
def toText : Hint → String
  | leaf text => text
  | iterable => "array|\\Traversable"
  | never => "void"
  | nullable inner => "?" ++ inner.toText
  | union left right => left.toText ++ "|" ++ right.toText
  | intersection left _ => left.toText
  | group inner => inner.toText

end Hint

/-! ## Heads of routines -/

/-- A parameter in the head of a routine. -/
structure ParameterDecl where
  /-- The name with its `$`. -/
  name : String
  hint : Option Hint
  variadic : Bool
  deriving DecidableEq, Repr

/-- The head of a function or a method. -/
structure RoutineHead where
  /-- The place where the declaration starts, with its attributes and modifiers. -/
  start : Nat
  name : String
  parameters : List ParameterDecl
  returns : Option Hint
  deriving DecidableEq, Repr

/-! ## Imports -/

/-- What an import is about, when it says so; an import that does not is about a class. -/
inductive ImportKind where
  | function
  | constant
  deriving DecidableEq, Repr

/-- One name that is imported, possibly under an alias. -/
structure ImportItem where
  name : String
  /-- The alias. -/
  localName : Option String
  deriving DecidableEq, Repr

/-- The forms of a statement `use`. -/
inductive ImportList where
  /-- Names such as `use A\B, C as D;`. -/
  | plain (items : List ImportItem)
  /-- Names of one kind such as `use function A\b;`. -/
  | typed (kind : ImportKind) (items : List ImportItem)
  /-- A group of one kind such as `use const A\{B, C};`. -/
  | typedGroup (kind : ImportKind) (lead : String) (items : List ImportItem)
  /-- A group such as `use A\{B, function c};`, each of whose members may have a kind. -/
  | mixedGroup (lead : String) (items : List (Option ImportKind × ImportItem))
  deriving DecidableEq, Repr

/-! ## Statements -/

/-- The statements that hold other statements without being a block or a declaration. -/
inductive Compound where
  /-- `if`, `elseif` and `else`. -/
  | conditional
  /-- `while`, `do`, `for` and `foreach`. -/
  | loop
  /-- `switch`. -/
  | selection
  /-- `try`, `catch` and `finally`. -/
  | guarded
  /-- `declare`. -/
  | directive
  deriving DecidableEq, Repr

/-- The declarations that have methods. -/
inductive ClassKind where
  | ofClass
  | ofInterface
  | ofTrait
  | ofEnum
  deriving DecidableEq, Repr

mutual

/-- A statement. -/
inductive Statement where
  /-- A statement `use` outside of classes. -/
  | imports (list : ImportList)
  /-- A namespace with the statements that belong to it. -/
  | space (name : Option String) (body : List Statement)
  | block (body : List Statement)
  | function (head : RoutineHead) (body : List Statement)
  | classLike (kind : ClassKind) (name : String) (members : List Member)
  | compound (kind : Compound) (body : List Statement)
  /-- Any statement without statements of its own. -/
  | other

/-- A member of a class. -/
inductive Member where
  | method (head : RoutineHead) (body : List Statement)
  /-- A constant, a property, a case or the use of a trait. -/
  | other

end

instance : Inhabited Statement := ⟨.other⟩

end PhpTypes.Php
