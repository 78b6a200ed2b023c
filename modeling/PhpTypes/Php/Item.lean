import PhpTypes.Php.Syntax
import PhpTypes.Php.Token

/-!
# Bracketed items

Before statements are read, brackets are matched: an item is a token that is no bracket, or a
bracketed group of items. A group in braces also carries the statements that its contents make up
when they are read as code. Groups are closed from the inside out, so the contents of a group are
known when the group is formed.
-/

namespace PhpTypes.Php

/-- A token, or a group of items between brackets. -/
inductive Item where
  | token (t : Token)
  /-- A group with its opening bracket, the items in it, and the statements they make up. -/
  | group (bracket : Token) (items : List Item) (code : List Statement)

namespace Item

/-- The place where the item starts. -/
def start : Item → Nat
  | token t => t.start
  | group bracket _ _ => bracket.start

/-- Whether the item is the given mark. -/
def isSymbol (text : String) : Item → Bool
  | token t => t.isSymbol text
  | group _ _ _ => false

/-- Whether the item is a token of the given class. -/
def isKind (kind : TokenKind) : Item → Bool
  | token t => t.kind == kind
  | group _ _ _ => false

/-- The text of a keyword or a name. -/
def word? : Item → Option String
  | token t => if t.kind == .word then some t.text else none
  | group _ _ _ => none

/-- Whether the item is one of the given keywords, in any letter case. -/
def isWord (words : List String) (item : Item) : Bool :=
  item.word?.any fun text => words.contains text.foldCase

/-- Whether the item is a group with the given opening bracket. -/
def isGroup (bracket : String) : Item → Bool
  | token _ => false
  | group t _ _ => t.text == bracket

/-- Whether the item is a group in parentheses. -/
def isParens : Item → Bool :=
  isGroup "("

/-- Whether the item is a group in braces. -/
def isBraces : Item → Bool :=
  isGroup "\x7b"

/-- Whether the item is a group of attributes. -/
def isAttribute : Item → Bool :=
  isGroup "#["

/-- The items in a group. -/
def inner : Item → List Item
  | token _ => []
  | group _ items _ => items

/-- The statements in a group in braces. -/
def code : Item → List Statement
  | token _ => []
  | group _ _ code => code

/-- Whether the item ends a simple statement. -/
def isTerminator (item : Item) : Bool :=
  item.isSymbol ";" || item.isKind .closeTag

end Item

namespace Grouping

/-- A group that has been opened: the items before it, last first, and its bracket. -/
structure Frame where
  before : List Item
  bracket : Token

/-- The opened groups, innermost first, and the items of the innermost one, last first. -/
structure State where
  frames : List Frame
  items : List Item

/-- Closes the innermost group, if there is one. -/
def State.close (read : List Item → List Statement) (s : State) : State :=
  match s.frames with
  | [] => s
  | frame :: frames =>
    let items := s.items.reverse
    let code := if frame.bracket.text == "\x7b" then read items else []
    { frames, items := .group frame.bracket items code :: frame.before }

/-- Takes in the next token. -/
def State.add (read : List Item → List Statement) (s : State) (t : Token) : State :=
  if t.kind == .symbol then
    if ["(", "[", "\x7b", "#["].contains t.text then
      { frames := ⟨s.items, t⟩ :: s.frames, items := [] }
    else if [")", "]", "\x7d"].contains t.text then s.close read
    else { s with items := .token t :: s.items }
  else { s with items := .token t :: s.items }

/-- Matches the brackets of a text, given how the contents of braces are read. Groups that are
never closed end with the text. -/
def group (read : List Item → List Statement) (tokens : List Token) : List Item :=
  let s := tokens.foldl (State.add read) ⟨[], []⟩
  (s.frames.foldl (fun s _ => s.close read) s).items.reverse

end Grouping

end PhpTypes.Php
