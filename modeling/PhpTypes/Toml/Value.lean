import PhpTypes.Toml.Moment

/-!
# TOML values

A TOML document is a table. Tables come into being in several ways, and the way decides how they
may be extended later: a table that has a header of its own cannot get another, dotted keys extend
only tables that have none, and an inline table cannot be extended at all. For this reason a table
remembers how it came into being.
-/

namespace PhpTypes.Toml

/-- How a table came into being. -/
inductive Origin where
  /-- It has a header of its own, or is the document. -/
  | header
  /-- It was named on the way to another table's header. -/
  | implied
  /-- It was named on the way to a dotted key. -/
  | dotted
  /-- It was written in braces. -/
  | inline
  deriving DecidableEq, Repr

/-- A TOML value. -/
inductive Value where
  | string (text : String)
  | boolean (value : Bool)
  | moment (value : Moment)
  /-- A number, as written. -/
  | number (text : String)
  /-- An array; `grows` tells whether it is one of tables that headers add to. -/
  | array (grows : Bool) (items : List Value)
  | table (origin : Origin) (entries : List (String × Value))

/-- The entries of a table in the order of the text; keys occur once. -/
abbrev Entries := List (String × Value)

namespace Entries

/-- The value of a key. -/
def valueOf? (entries : Entries) (key : String) : Option Value :=
  List.lookup key entries

/-- Changes the value of a key, which may be absent before; `f` says to what, if that is
allowed. -/
def change (key : String) (f : Option Value → Option Value) : Entries → Option Entries
  | [] => do return [(key, ← f none)]
  | entry :: rest =>
    if entry.1 == key then do return (key, ← f (some entry.2)) :: rest
    else do return entry :: (← change key f rest)

/-- Sets a dotted key, which must be new. The table that its last part goes to must not be named
in a header; on the way there, the last table of an array counts and tables that are implied by
headers may be passed. -/
def assign (value : Value) : List String → Entries → Option Entries
  | [], _ => none
  | [key], entries => entries.change key fun
    | none => some value
    | some _ => none
  | key :: path, entries => entries.change key fun
    | none => do return .table .dotted (← assign value path [])
    | some (.table .dotted inner) => do return .table .dotted (← assign value path inner)
    | some (.table .implied inner) => do
      guard (1 < path.length)
      return .table .implied (← assign value path inner)
    | some (.array true items) => do
      guard (1 < path.length)
      match items.getLast? with
      | some (.table origin inner) =>
        return .array true (items.dropLast ++ [.table origin (← assign value path inner)])
      | _ => none
    | some _ => none

/-- Changes the table that a path of keys leads to; of an array of tables, the last one counts.
Tables on the way may be absent before. -/
def descend (f : Entries → Option Entries) : List String → Entries → Option Entries
  | [], entries => f entries
  | key :: path, entries => entries.change key fun
    | none => do return .table .implied (← descend f path [])
    | some (.table .inline _) => none
    | some (.table origin inner) => do return .table origin (← descend f path inner)
    | some (.array true items) =>
      match items.getLast? with
      | some (.table origin inner) => do
        return .array true (items.dropLast ++ [.table origin (← descend f path inner)])
      | _ => none
    | some _ => none

/-- Opens the table that a header names. -/
def openTable (path : List String) (entries : Entries) : Option Entries := do
  let last ← path.getLast?
  entries.descend (fun inner => inner.change last fun
    | none => some (.table .header [])
    | some (.table .implied there) => some (.table .header there)
    | some _ => none) path.dropLast

/-- Adds a table to the array of tables that a header names. -/
def openElement (path : List String) (entries : Entries) : Option Entries := do
  let last ← path.getLast?
  entries.descend (fun inner => inner.change last fun
    | none => some (.array true [.table .header []])
    | some (.array true items) => some (.array true (items ++ [.table .header []]))
    | some _ => none) path.dropLast

end Entries

end PhpTypes.Toml
