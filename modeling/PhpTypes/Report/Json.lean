/-!
# JSON text

The part of JSON that reports need: texts, numbers, lists and records, written over several lines
with two spaces for each level. Empty lists and records take no lines of their own.
-/

namespace PhpTypes.Report

/-- A JSON value. -/
inductive Json where
  | text (s : String)
  | number (n : Nat)
  | list (items : List Json)
  | record (fields : List (String × Json))

namespace Json

/-- A hexadecimal digit. -/
def hexDigit (n : Nat) : Char :=
  if n < 10 then Char.ofNat ('0'.toNat + n) else Char.ofNat ('a'.toNat + (n - 10))

/-- A character as it is written between quotes. -/
def escape (c : Char) : List Char :=
  if c == '\x22' then ['\\', '\x22']
  else if c == '\\' then ['\\', '\\']
  else if c == '\x08' then ['\\', 'b']
  else if c == '\x0c' then ['\\', 'f']
  else if c == '\n' then ['\\', 'n']
  else if c == '\r' then ['\\', 'r']
  else if c == '\t' then ['\\', 't']
  else if c.toNat < 0x20 then
    ['\\', 'u', '0', '0', hexDigit (c.toNat / 16), hexDigit (c.toNat % 16)]
  else [c]

/-- A text between quotes. -/
def quote (s : String) : String :=
  .ofList ('\x22' :: s.toList.flatMap escape ++ ['\x22'])

/-- The start of a line at a level. -/
def newLine (level : Nat) : String :=
  .ofList ('\n' :: List.replicate (2 * level) ' ')

/-- Parts between brackets, each on a line of its own one level further in. -/
def enclose (opening closing : String) (level : Nat) (parts : List String) : String :=
  if parts.isEmpty then opening ++ closing
  else
    opening ++ newLine (level + 1) ++ ("," ++ newLine (level + 1)).intercalate parts ++
      newLine level ++ closing

mutual

/-- The value as it is written at a level. -/
def write (level : Nat) : Json → String
  | text s => quote s
  | number n => toString n
  | list items => enclose "[" "]" level (writeAll (level + 1) items)
  | record fields => enclose "\x7b" "\x7d" level (writeFields (level + 1) fields)

/-- Values as they are written at a level. -/
def writeAll (level : Nat) : List Json → List String
  | [] => []
  | item :: rest => item.write level :: writeAll level rest

/-- The fields of a record as they are written at a level. -/
def writeFields (level : Nat) : List (String × Json) → List String
  | [] => []
  | (name, value) :: rest => (quote name ++ ": " ++ value.write level) :: writeFields level rest

end

/-- The text of a value. -/
def toText (value : Json) : String :=
  value.write 0

end Json

end PhpTypes.Report
