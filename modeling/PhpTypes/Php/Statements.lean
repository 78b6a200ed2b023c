import PhpTypes.Php.Declaration

/-!
# Reading statements

The items of a piece of code are first cut into elements and the elements are then nested. An
element is a complete statement, or the head of a statement whose body consists of the elements
that follow: up to the next statement (`if (x) …`), up to a closing keyword (`if (x): … endif;`), or
up to the next namespace (`namespace A; …`).

Nesting goes from the last element to the first, so the elements that a head takes as its body are
known when the head is reached.
-/

namespace PhpTypes.Php

namespace Reading

/-- A piece of code between which and the next one statements may start. -/
inductive Element where
  | complete (s : Statement)
  /-- A head whose body is the next statement. -/
  | lead (kind : Compound)
  /-- A head whose body ends at a closing keyword. -/
  | opening (kind : Compound)
  /-- Ends the body of a head and is the head of another body of the same statement. -/
  | reopening (kind : Compound)
  /-- A closing keyword. -/
  | closing
  /-- A namespace that extends to the next one. -/
  | openSpace (name : Option String)

/-! ## Nesting -/

/-- Whether the statement is a namespace. -/
def isSpace : Statement → Bool
  | .space _ _ => true
  | _ => false

/-- The statements of a body that is still open, and those of the bodies around it. -/
structure Levels where
  inner : List Statement
  outer : List (List Statement)

/-- Puts a statement in front. -/
def Levels.cons (s : Statement) (l : Levels) : Levels :=
  { l with inner := s :: l.inner }

/-- Ends the innermost body and gives it to a statement of the body around it. -/
def Levels.wrap (kind : Compound) (l : Levels) : Levels :=
  match l.outer with
  | [] => { inner := [.compound kind l.inner], outer := [] }
  | next :: outer => { inner := .compound kind l.inner :: next, outer }

/-- Nests an element, given the levels that the elements behind it make up. -/
def nest (e : Element) (l : Levels) : Levels :=
  match e with
  | .complete s => l.cons s
  | .lead kind => { l with inner := .compound kind (l.inner.take 1) :: l.inner.drop 1 }
  | .opening kind => l.wrap kind
  | .reopening kind =>
    let l := l.wrap kind
    { inner := [], outer := l.inner :: l.outer }
  | .closing => { inner := [], outer := l.inner :: l.outer }
  | .openSpace name =>
    -- The statements up to the next namespace belong to this one.
    let body := l.inner.takeWhile (!isSpace ·)
    { l with inner := .space name body :: l.inner.drop body.length }

/-- The statements that elements make up. -/
def nestAll (elements : List Element) : List Statement :=
  let l := elements.foldr nest ⟨[], []⟩
  l.inner ++ l.outer.flatten

/-! ## Heads -/

/-- The statement that a keyword with a body belongs to. -/
def compound? (item : Item) : Option Compound :=
  if item.isWord ["if", "elseif", "else"] then some .conditional
  else if item.isWord ["while", "do", "for", "foreach"] then some .loop
  else if item.isWord ["switch"] then some .selection
  else if item.isWord ["try", "catch", "finally"] then some .guarded
  else if item.isWord ["declare"] then some .directive
  else none

/-- The keywords that end a body opened with a colon. -/
def closingWords : List String :=
  ["endif", "endwhile", "endfor", "endforeach", "endswitch", "enddeclare"]

/-- The element of a keyword with a body, and the items behind it. -/
def readCompound (kind : Compound) (keyword : Item) (rest : List Item) : Element × List Item :=
  -- The condition comes first, if the keyword has one.
  let rest :=
    match rest with
    | [] => []
    | first :: others => if first.isParens then others else first :: others
  match rest with
  | [] => (.complete (.compound kind []), [])
  | first :: others =>
    if first.isBraces then (.complete (.compound kind first.code), others)
    else if first.isTerminator then (.complete (.compound kind []), others)
    else if first.isSymbol ":" then
      (if keyword.isWord ["else", "elseif"] then .reopening kind else .opening kind, others)
    else (.lead kind, rest)

/-- The declaration that a keyword announces. -/
def classKind? (item : Item) : Option ClassKind :=
  if item.isWord ["class"] then some .ofClass
  else if item.isWord ["interface"] then some .ofInterface
  else if item.isWord ["trait"] then some .ofTrait
  else if item.isWord ["enum"] then some .ofEnum
  else none

/-- A class-like declaration without its attributes, and the items behind it. -/
def readClassLike (items : List Item) : Option (Element × List Item) := do
  let items := items.dropWhile (Item.isWord ["abstract", "final", "readonly"])
  match items with
  | keyword :: nameItem :: rest =>
    let kind ← classKind? keyword
    let name ← nameItem.word?
    -- A class without a name is an expression.
    guard !(nameItem.isWord ["extends", "implements"])
    match rest.dropWhile (!Item.isBraces ·) with
    | body :: others =>
      -- The end of PHP code ends a member, and the members go on behind the next start.
      let members := body.inner.filter fun item => !item.isKind .openTag
      return (.complete (.classLike kind name (readMembers members)), others)
    | [] => none
  | _ => none

/-- A function that starts at a place, and the items behind it. -/
def readFunction (start : Nat) (items : List Item) : Option (Element × List Item) := do
  guard ((← items.head?).isWord ["function"])
  let (head, rest) ← readHead start items.tail
  let (body, rest) := readBody rest
  return (.complete (.function head body), rest)

/-- A namespace after its keyword, and the items behind it. -/
def readSpace (items : List Item) : Option (Element × List Item) :=
  match items with
  | [] => none
  | first :: rest =>
    if first.isBraces then some (.complete (.space none first.code), rest)
    else
      match first.word?, rest with
      | some name, next :: others =>
        if next.isBraces then some (.complete (.space (some name) next.code), others)
        else if next.isTerminator then some (.openSpace (some name), others)
        else none
      | some name, [] => some (.openSpace (some name), [])
      | none, _ => none

/-- The items behind the colon or semicolon that ends the label of a case; `waiting` counts the
question marks that still wait for their colon. -/
def dropCaseLabel (waiting : Nat) : List Item → List Item
  | [] => []
  | first :: rest =>
    if first.isTerminator then rest
    else if first.isSymbol "?" then dropCaseLabel (waiting + 1) rest
    else if first.isSymbol ":" then
      match waiting with
      | 0 => rest
      | n + 1 => dropCaseLabel n rest
    else dropCaseLabel waiting rest

/-! ## Elements -/

/-- Whether nothing more than the item itself belongs to its statement. -/
def standsAlone (item : Item) : Bool :=
  item.isTerminator || item.isKind .html || item.isKind .openTag

/-- An element that starts with a keyword or a name, and the items behind it. -/
def readWorded (start : Nat) (first : Item) (rest : List Item) : Element × List Item :=
  let simple := (Element.complete .other, dropThrough Item.isTerminator rest)
  match compound? first with
  | some kind => readCompound kind first rest
  | none =>
    if first.isWord closingWords then (.closing, dropThrough Item.isTerminator rest)
    else if first.isWord ["case", "default"] then (.complete .other, dropCaseLabel 0 rest)
    else if first.isWord ["namespace"] then (readSpace rest).getD simple
    else if first.isWord ["use"] then
      (.complete (.imports (readImports (rest.takeWhile (!Item.isTerminator ·)))), simple.2)
    -- A name with a colon is a label, and another statement follows it at once.
    else if rest.head?.any (Item.isSymbol ":") then (.complete .other, rest.drop 1)
    else
      ((readFunction start (first :: rest)).orElse fun _ =>
        readClassLike (first :: rest)).getD simple

/-- The element that starts here and the items behind it. -/
def readElement (first : Item) (rest : List Item) : Element × List Item :=
  let declared := (first :: rest).dropWhile Item.isAttribute
  match declared with
  | [] => (.complete .other, [])
  | item :: others =>
    if standsAlone item then (.complete .other, others)
    else if item.isBraces then (.complete (.block item.code), others)
    else if item.word?.isSome then readWorded first.start item others
    else (.complete .other, dropThrough Item.isTerminator others)

/-- The elements of a piece of code, up to the keyword that ends all code. -/
def elements (items : List Item) : List Element :=
  match items with
  | [] => []
  | first :: rest =>
    if first.isWord ["__halt_compiler"] then []
    else
      let result := readElement first rest
      if _h : result.2.length ≤ rest.length then result.1 :: elements result.2
      else [result.1]
termination_by items.length
decreasing_by exact Nat.lt_succ_of_le _h

/-- The statements that items make up. -/
def statements (items : List Item) : List Statement :=
  nestAll (elements items)

end Reading

/-- The statements of a program, given its tokens. -/
def readProgram (tokens : List Token) : List Statement :=
  Reading.statements (Grouping.group Reading.statements tokens)

end PhpTypes.Php
