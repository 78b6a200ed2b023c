import PhpTypes.Php.Item

/-!
# Reading declarations

Readers for the parts of declarations: type hints, parameters, heads of routines, imports and
members of classes. Every reader takes the items from the place where its part starts and says,
where more items may follow, which ones are left.
-/

namespace PhpTypes.Php

/-- The runs of items between the occurrences of a mark. -/
def splitAtSymbol (text : String) (items : List Item) : List (List Item) :=
  items.splitOnP (Item.isSymbol text)

/-- The items after the first one that satisfies `p`. -/
def dropThrough (p : Item → Bool) (items : List Item) : List Item :=
  (items.dropWhile (!p ·)).drop 1

/-! ## Type hints -/

/-- Puts hints together from the right; there is none without members. -/
def joinHints (combine : Hint → Hint → Hint) : List Hint → Option Hint
  | [] => none
  | first :: rest =>
    match joinHints combine rest with
    | some others => some (combine first others)
    | none => some first

/-- The intersection of single words. -/
def readWords (items : List Item) : Option Hint :=
  joinHints .intersection ((items.filterMap Item.word?).map Hint.ofWord)

/-- A member of a union: words with `&` between them, or such words in parentheses. -/
def readUnionMember (items : List Item) : Option Hint :=
  match items.find? Item.isParens with
  | some group => (readWords group.inner).map .group
  | none => readWords items

/-- A type hint; there is none without items. -/
def readHint (items : List Item) : Option Hint :=
  match items with
  | first :: rest =>
    if first.isSymbol "?" then (readWords rest).map .nullable
    else joinHints .union ((splitAtSymbol "|" items).filterMap readUnionMember)
  | [] => none

/-! ## Heads of routines -/

/-- Keywords that may stand before a parameter or a member. -/
def memberModifiers : List String :=
  ["public", "protected", "private", "static", "abstract", "final", "readonly", "var"]

/-- Whether the item is the `(set)` that limits a visibility to writing. -/
def isSetMark (item : Item) : Bool :=
  item.isParens &&
    match item.inner with
    | [word] => word.isWord ["set"]
    | _ => false

/-- Drops the attributes and modifiers at the start. -/
def dropModifiers (items : List Item) : List Item :=
  items.dropWhile fun item => item.isWord memberModifiers || isSetMark item || item.isAttribute

/-- A parameter; there is none without a variable. -/
def readParameter (items : List Item) : Option ParameterDecl := do
  let items := dropModifiers items
  let before := items.takeWhile (!Item.isKind .variableName ·)
  match (items.drop before.length).head? with
  | some (.token t) =>
    let isMark (item : Item) := item.isSymbol "..." || item.isSymbol "&"
    -- What stands before the marks `&` and `...` is the hint.
    let hintItems := (before.reverse.dropWhile isMark).reverse
    some { name := t.text
           hint := readHint hintItems
           variadic := before.any (Item.isSymbol "...") }
  | _ => none

/-- The parameters in a group in parentheses. -/
def readParameters (group : Item) : List ParameterDecl :=
  (splitAtSymbol "," group.inner).filterMap readParameter

/-- The head of a routine after the keyword `function`, and the items from its body on. -/
def readHead (start : Nat) (items : List Item) : Option (RoutineHead × List Item) := do
  let items := items.dropWhile (Item.isSymbol "&")
  match items with
  | nameItem :: params :: rest =>
    let name ← nameItem.word?
    guard params.isParens
    let isBody (item : Item) := item.isBraces || item.isTerminator
    let returns :=
      match rest with
      | colon :: hintItems =>
        if colon.isSymbol ":" then readHint (hintItems.takeWhile (!isBody ·)) else none
      | [] => none
    return ({ start, name, parameters := readParameters params, returns },
      rest.dropWhile (!isBody ·))
  | _ => none

/-- The statements of a body that starts here, and the items behind it. A terminator stands for a
missing body. -/
def readBody : List Item → List Statement × List Item
  | [] => ([], [])
  | body :: rest => (body.code, rest)

/-! ## Imports -/

/-- The kind of import that a keyword announces. -/
def importKind? (item : Item) : Option ImportKind :=
  if item.isWord ["function"] then some .function
  else if item.isWord ["const"] then some .constant
  else none

/-- A kind at the start of items that go on with a name. -/
def readImportKind : List Item → Option ImportKind × List Item
  | first :: second :: rest =>
    match importKind? first, second.word? with
    | some kind, some _ => (some kind, second :: rest)
    | _, _ => (none, first :: second :: rest)
  | items => (none, items)

/-- An imported name with its alias. -/
def readImportItem (items : List Item) : Option ImportItem := do
  let name ← (← items.head?).word?
  let localName :=
    match items.tail with
    | keyword :: aliasItem :: _ => if keyword.isWord ["as"] then aliasItem.word? else none
    | _ => none
  return { name, localName }

/-- A member of a group of imports, with its kind. -/
def readGroupMember (items : List Item) : Option (Option ImportKind × ImportItem) := do
  let (kind, items) := readImportKind items
  return (kind, ← readImportItem items)

/-- The imports of a statement, after the keyword `use`. -/
def readImports (items : List Item) : ImportList :=
  let (kind, items) := readImportKind items
  match items.find? Item.isBraces with
  | some group =>
    let lead := (items.head?.bind Item.word?).getD ""
    let members := splitAtSymbol "," group.inner
    match kind with
    | some kind => .typedGroup kind lead (members.filterMap readImportItem)
    | none => .mixedGroup lead (members.filterMap readGroupMember)
  | none =>
    let members := (splitAtSymbol "," items).filterMap readImportItem
    match kind with
    | some kind => .typed kind members
    | none => .plain members

/-! ## Members of classes -/

/-- Whether the item ends a member that is not a method. -/
def endsMember (item : Item) : Bool :=
  item.isTerminator || item.isBraces

/-- The member that starts here and the items behind it. -/
def readMember (items : List Item) : Member × List Item :=
  let start := (items.head?.map Item.start).getD 0
  let declared := dropModifiers items
  let method? : Option (Member × List Item) := do
    let keyword ← declared.head?
    guard (keyword.isWord ["function"])
    let (head, rest) ← readHead start declared.tail
    let (body, rest) := readBody rest
    return (.method head body, rest)
  match method? with
  | some result => result
  | none =>
    -- Braces end a property with hooks, but may stand inside the value of a constant.
    let ends := if declared.head?.any (Item.isWord ["const", "case"]) then Item.isTerminator
      else endsMember
    (.other, dropThrough ends declared)

/-- The members of a class, in order. -/
def readMembers (items : List Item) : List Member :=
  if items.isEmpty then []
  else
    let result := readMember items
    if _h : result.2.length < items.length then result.1 :: readMembers result.2
    else [result.1]
termination_by items.length

end PhpTypes.Php
