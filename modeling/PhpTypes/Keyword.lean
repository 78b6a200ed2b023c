import PhpTypes.Mask.Basic
import PhpTypes.Text.Case

/-!
# The vocabulary of annotations

A closed table of words that name types without declaring a class. Words are recognised in any
letter case. Several words may share a meaning, and a meaning is a mask without slots.
-/

namespace PhpTypes

/-- The meanings that words of the vocabulary can have. -/
inductive Keyword where
  | integer
  /-- An integer or a floating-point number. -/
  | number
  | string
  | boolean
  | float
  | array
  /-- A handle to something outside the program, treated as an object of unknown class. -/
  | resource
  | null
  | object
  | void
  | callable
  | mixed
  deriving DecidableEq, Repr

namespace Keyword

/-- The words of the vocabulary in lower case, each with its meaning. -/
def table : List (String × Keyword) :=
  [("int", integer), ("integer", integer), ("long", integer),
    ("number", number), ("numeric", number),
    ("string", string),
    ("bool", boolean), ("boolean", boolean), ("false", boolean), ("true", boolean),
    ("float", float), ("double", float),
    ("array", array),
    ("resource", resource),
    ("null", null),
    ("object", object),
    ("void", void),
    ("callable", callable),
    ("mixed", mixed)]

/-- The meaning of a word, in any letter case. -/
def lookup? (word : String) : Option Keyword :=
  table.lookup word.foldCase

/-- Whether a word belongs to the vocabulary. -/
def isKnown (word : String) : Bool :=
  (lookup? word).isSome

/-- The mask that a meaning stands for; it refers to no slot. -/
def mask : Keyword → Mask
  | integer => .ofKind .integer
  | number => .ofKind .integer ∪ .ofKind .float
  | string => .ofKind .string
  | boolean => .ofKind .boolean
  | float => .ofKind .float
  | array => .ofKind .array
  | resource => .ofKind .object
  | null => .ofKind .null
  | object => .ofKind .object
  | void => .void
  | callable => .ofKind .callable
  | mixed => .any

/-- The mask of a word of the vocabulary, and `void` for every other word. -/
def maskOf (word : String) : Mask :=
  ((lookup? word).map mask).getD .void

/-- The name of the meaning. -/
def label : Keyword → String
  | integer => "Integer"
  | number => "Number"
  | string => "String"
  | boolean => "Boolean"
  | float => "Float"
  | array => "Array"
  | resource => "Resource"
  | null => "Null"
  | object => "Object"
  | void => "Void"
  | callable => "Callable"
  | mixed => "Mixed"

/-- A word is recognised in any letter case. -/
theorem lookup?_congr {a b : String} (h : a.foldCase = b.foldCase) : lookup? a = lookup? b := by
  rw [lookup?, lookup?, h]

end Keyword

end PhpTypes
