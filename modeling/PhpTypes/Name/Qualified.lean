import PhpTypes.Keyword
import PhpTypes.Text.Pieces

/-!
# Qualified names

A qualified name consists of segments; the last one is the simple name and the others are the
namespace. In text the segments are separated by backslashes.
-/

namespace PhpTypes

/-- A name with the segments of its namespace. -/
structure QualifiedName where
  spaces : List String
  name : String
  deriving DecidableEq, Repr

namespace QualifiedName

/-- The segments of a text: its pieces between backslashes, without outer blanks and without
empty pieces. -/
def segmentsOf (text : String) : List String :=
  (Text.pieces '\\' (Text.trim text.toList)).map String.ofList

/-- The name with the given segments; without segments, the empty name. -/
def ofSegments (segments : List String) : QualifiedName where
  spaces := segments.dropLast
  name := segments.getLast?.getD ""

/-- Reads a text as a name, without applying any rules of naming. -/
def parse (text : String) : QualifiedName :=
  ofSegments (segmentsOf text)

/-- All segments of the name; the empty name has one, which is empty. -/
def segments (q : QualifiedName) : List String :=
  q.spaces ++ [q.name]

/-- The segments with backslashes between them. -/
def toText (q : QualifiedName) : String :=
  "\\".intercalate q.segments

/-- Whether the name has no namespace. -/
def isSimple (q : QualifiedName) : Bool :=
  q.spaces.isEmpty

/-- The names that refer to the enclosing class. -/
def reservedNames : List String :=
  ["self", "static", "parent"]

/-- Whether the name refers to the enclosing class. -/
def isReserved (q : QualifiedName) : Bool :=
  q.isSimple && reservedNames.contains q.name.foldCase

/-- Whether the name is a bare word of the vocabulary. -/
def isPrimitive (q : QualifiedName) : Bool :=
  q.isSimple && Keyword.isKnown q.name

end QualifiedName

end PhpTypes
