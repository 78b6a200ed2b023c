import PhpTypes.Toml.Number
import PhpTypes.Toml.Value

/-!
# TOML documents

A document consists of lines: settings `key = value`, headers of tables `[key]` and headers of
elements of arrays of tables `[[key]]`. Numbers are checked and kept as written; everything else
is read in full.
-/

namespace PhpTypes.Toml

/-! ## Values -/

/-- How deeply arrays and inline tables may be nested, and how many parts a key may have. -/
def maxDepth : Nat :=
  80

/-- Whether a character cannot stand in a value without quotes. -/
def endsWord (c : Char) : Bool :=
  "=,[]\x7b\x7d \t#\r\n\x22\x27".toList.contains c

/-- A value that is written as one word: a boolean or a number. -/
def wordValue : Reader Value := fun text =>
  let word := text.takeWhile fun c => !endsWord c
  let rest := text.drop word.length
  if word == "true".toList then some (.boolean true, rest)
  else if word == "false".toList then some (.boolean false, rest)
  else if isNumber word then some (.number (.ofList word), rest)
  else none

/-- A value without quotes and brackets: a date or a time, or else a word. -/
def plainValue : Reader Value := fun text =>
  match moment text with
  | some (m, rest) => if rest.head?.all endsWord then some (.moment m, rest) else none
  | none => wordValue text

mutual

/-- A value that is nested at most `depth` times, read in at most `n` steps. -/
def value (depth : Nat) : Nat → Reader Value
  | 0, _ => none
  | n + 1, text =>
    match text with
    | '[' :: rest => do
      guard (0 < depth)
      arrayItems (depth - 1) n [] rest
    | '\x7b' :: rest => do
      guard (0 < depth)
      tableEntries (depth - 1) n [] rest
    | c :: rest =>
      if c == '\x22' || c == '\x27' then
        (string? (c :: rest)).map fun (s, rest) => (.string s, rest)
      else plainValue (c :: rest)
    | [] => none

/-- The items of an array up to its closing bracket; `done` holds those read, last first. -/
def arrayItems (depth : Nat) : Nat → List Value → Reader Value
  | 0, _, _ => none
  | n + 1, done, text => do
    match ← dropLines false text with
    | ']' :: rest => return (.array false done.reverse, rest)
    | text =>
      let (item, rest) ← value depth n text
      match ← dropLines false rest with
      | ',' :: rest => arrayItems depth n (item :: done) rest
      | ']' :: rest => return (.array false (item :: done).reverse, rest)
      | _ => none

/-- The entries of an inline table up to its closing brace. Lines may end between any two parts of
an entry, but not inside of its key. -/
def tableEntries (depth : Nat) : Nat → Entries → Reader Value
  | 0, _, _ => none
  | n + 1, done, text => do
    match ← dropLines false text with
    | '\x7d' :: rest => return (.table .inline done, rest)
    | text =>
      let (path, rest) ← key maxDepth text
      let rest ← mark '=' (← dropLines false rest)
      let (item, rest) ← value depth n (← dropLines false rest)
      let done ← done.assign item path
      match ← dropLines false rest with
      | ',' :: rest => tableEntries depth n done rest
      | '\x7d' :: rest => return (.table .inline done, rest)
      | _ => none

end

/-! ## Lines -/

/-- A document as far as it has been read: its entries and the table that settings go to. -/
structure State where
  entries : Entries
  current : List String

/-- A header in brackets: `depth` brackets on each side of a key. -/
def header (depth : Nat) : Reader (List String) := fun text => do
  let (path, rest) ← key maxDepth text
  let rest ← (List.replicate depth ']').isPrefixOf? (dropBlanks rest)
  return (path, ← endLine false rest)

/-- One line that holds something. -/
def line (s : State) : Reader State
  | '[' :: '[' :: rest => do
    let (path, rest) ← header 2 rest
    return ({ entries := ← s.entries.openElement path, current := path }, rest)
  | '[' :: rest => do
    let (path, rest) ← header 1 rest
    return ({ entries := ← s.entries.openTable path, current := path }, rest)
  | text => do
    let (path, rest) ← key maxDepth text
    let rest ← mark '=' (dropBlanks rest)
    let (item, rest) ← value maxDepth (2 * rest.length + 2) (dropBlanks rest)
    let entries ← s.entries.descend (Entries.assign item path) s.current
    return ({ s with entries }, ← endLine false rest)

/-- The lines of a document, of which each is shorter than the text before it. -/
def lines (s : State) (text : List Char) : Option Entries := do
  match ← dropLines false text with
  | [] => return s.entries
  | start =>
    let (s, rest) ← line s start
    if _h : rest.length < text.length then lines s rest else none
termination_by text.length

/-- Reads a TOML document. A byte order mark at its start is skipped. -/
def parse? (text : String) : Option Entries :=
  match text.toList with
  | '\ufeff' :: rest => lines ⟨[], []⟩ rest
  | rest => lines ⟨[], []⟩ rest

end PhpTypes.Toml
