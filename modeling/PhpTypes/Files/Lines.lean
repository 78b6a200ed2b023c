/-!
# Lines of files

A line ends in a line feed, in front of which a carriage return may stand; the last line of a file
may do without. Lines are read one after the other, so bytes that are not text spoil only the line
that they stand in and those behind it.
-/

namespace PhpTypes.Files

/-- A line feed. -/
def lineFeed : UInt8 :=
  0x0a

/-- A carriage return. -/
def carriageReturn : UInt8 :=
  0x0d

/-- The lines of a file without their ends. -/
def byteLines (bytes : List UInt8) : List (List UInt8) :=
  let pieces := bytes.splitOn lineFeed
  let ended := pieces.dropLast.map fun line => ([carriageReturn].isSuffixOf? line).getD line
  ended ++ pieces.getLast?.toList.filter fun line => !line.isEmpty

/-- The lines of a file up to the first one that is not text. -/
def textLines (bytes : ByteArray) : List String :=
  let texts := (byteLines bytes.toList).map fun line => String.fromUTF8? ⟨line.toArray⟩
  (texts.takeWhile Option.isSome).filterMap id

end PhpTypes.Files
