import PhpTypes.Php.Token
import PhpTypes.Text.Case

/-!
# Lexer

The lexer walks over a text in one of four modes: outside of PHP, inside PHP code, inside a quoted
text and inside a heredoc. Code may be embedded in quoted text and in heredocs, so every opening
brace saves the mode and every closing brace takes the last saved mode back.

At each place the lexer looks for the lexeme that starts there. A lexeme says how long it is and
which mode follows; the walk moves on by its length, and by one character at least.
-/

namespace PhpTypes.Php

namespace Lexer

/-! ## Characters -/

/-- Whether a character is white space between tokens. -/
def isSpace (c : Char) : Bool :=
  c == ' ' || c == '\t' || c == '\n' || c == '\r' || c == '\x0c'

/-- Whether a character may start a name. -/
def isNameStart (c : Char) : Bool :=
  c == '_' || c.isAlpha || decide (128 ≤ c.toNat)

/-- Whether a character may stand in a name. -/
def isNameChar (c : Char) : Bool :=
  isNameStart c || c.isDigit

/-- Whether a text starts with `lead`, in any letter case. -/
def startsWith (lead : String) (text : List Char) : Bool :=
  PhpTypes.Text.sameFolded (text.take lead.length) lead.toList

/-! ## Lengths -/

/-- The number of characters before the next `<?`. -/
def htmlLength (n : Nat) : List Char → Nat
  | [] => n
  | '<' :: '?' :: _ => n
  | _ :: rest => htmlLength (n + 1) rest

/-- The number of characters of the line, which `?>` ends too. -/
def lineLength (n : Nat) : List Char → Nat
  | [] => n
  | '?' :: '>' :: _ => n
  | c :: rest => if c == '\n' || c == '\r' then n else lineLength (n + 1) rest

/-- The number of characters up to and including `*/`, or of the whole text. -/
def commentLength (n : Nat) : List Char → Nat
  | [] => n
  | '*' :: '/' :: _ => n + 2
  | _ :: rest => commentLength (n + 1) rest

/-- The number of characters up to and including the quote that is not escaped, or of the whole
text. -/
def singleQuotedLength (n : Nat) : List Char → Nat
  | [] => n
  | '\\' :: _ :: rest => singleQuotedLength (n + 2) rest
  | '\x27' :: _ => n + 1
  | _ :: rest => singleQuotedLength (n + 1) rest

/-- The number of characters of a name with its backslashes; the text starts a segment. -/
def wordLength (n : Nat) : List Char → Nat
  -- A backslash belongs to the name only if another segment follows.
  | '\\' :: c :: rest => if isNameStart c then wordLength (n + 2) rest else n
  | c :: rest => if isNameChar c then wordLength (n + 1) rest else n
  | [] => n

/-- The number of characters of a number, whose first character has been seen. -/
def numberLength (n : Nat) : List Char → Nat
  -- A dot without a digit behind it is a mark of its own.
  | '.' :: c :: rest => if c.isDigit then numberLength (n + 2) rest else n
  | c :: rest => if isNameChar c then numberLength (n + 1) rest else n
  | [] => n

/-- Whether embedded code starts here. -/
def startsCode : List Char → Bool
  | '\x7b' :: '$' :: _ => true
  | '$' :: '\x7b' :: _ => true
  | _ => false

/-- The number of characters of a quoted text before its end or before embedded code. -/
def quotedLength (close : Char) (n : Nat) : List Char → Nat
  | [] => n
  | '\\' :: _ :: rest => quotedLength close (n + 2) rest
  | c :: rest =>
    if c == close || startsCode (c :: rest) then n else quotedLength close (n + 1) rest

/-! ## Heredocs -/

/-- The number of characters of the closing label with its indentation, if it stands here. -/
def closingLabel? (label : List Char) (text : List Char) : Option Nat :=
  let indent := text.takeWhile fun c => c == ' ' || c == '\t'
  match label.isPrefixOf? (text.drop indent.length) with
  | some rest => if (rest.head?.any isNameChar) then none else some (indent.length + label.length)
  | none => none

/-- Whether a variable stands here. -/
def startsVariable : List Char → Bool
  | '$' :: c :: _ => isNameStart c
  | _ => false

/-- The number of characters up to and including the next closing bracket, or of the whole text. -/
def indexLength (n : Nat) : List Char → Nat
  | [] => n
  | ']' :: _ => n + 1
  | _ :: rest => indexLength (n + 1) rest

/-- The number of characters of a variable in a heredoc behind its `$`: its name with one index or
the name of one property. -/
def embeddedLength (text : List Char) : Nat :=
  let name := text.takeWhile isNameChar
  let property (n : Nat) (rest : List Char) : Nat :=
    if rest.head?.any isNameStart then n + (rest.takeWhile isNameChar).length else 0
  name.length +
    match text.drop name.length with
    | '[' :: rest => indexLength 1 rest
    | '-' :: '>' :: rest => property 2 rest
    | '?' :: '-' :: '>' :: rest => property 3 rest
    | _ => 0

/-- The number of characters of a heredoc before an embedded variable or embedded code, or up to
and including its closing label, and whether it was closed. The label is looked for at the start of
each line. -/
def heredocLength (label : List Char) (embeds : Bool) (n : Nat) : List Char → Nat × Bool
  | [] => (n, true)
  | '\n' :: rest =>
    match closingLabel? label rest with
    | some k => (n + 1 + k, true)
    | none => heredocLength label embeds (n + 1) rest
  | c :: d :: rest =>
    if c == '\r' && d != '\n' then
      match closingLabel? label (d :: rest) with
      | some k => (n + 1 + k, true)
      | none => heredocLength label embeds (n + 1) (d :: rest)
    else if embeds && (startsCode (c :: d :: rest) || startsVariable (c :: d :: rest)) then
      (n, false)
    -- An escaped character embeds nothing; a line end stays, since the label may follow it.
    else if c == '\\' && d != '\n' && d != '\r' then heredocLength label embeds (n + 2) rest
    else heredocLength label embeds (n + 1) (d :: rest)
  | [_] => (n + 1, true)

/-- The label of a heredoc after `<<<`, with the number of characters up to the end of the line,
and whether code may be embedded. -/
def heredocOpening? (text : List Char) : Option (Nat × List Char × Bool) := do
  let indent := text.takeWhile fun c => c == ' ' || c == '\t'
  let rest := text.drop indent.length
  let quote := rest.head?.filter fun c => c == '\x22' || c == '\x27'
  let named := if quote.isSome then rest.drop 1 else rest
  let label := named.takeWhile isNameChar
  guard (label.head?.any isNameStart)
  let behind := named.drop label.length
  let behind ← match quote with
    | some q => [q].isPrefixOf? behind
    | none => some behind
  guard (behind.head?.any fun c => c == '\n' || c == '\r')
  let quotes := if quote.isSome then 2 else 0
  return (indent.length + label.length + quotes, label, quote != some '\x27')

/-! ## Lexemes -/

/-- What the lexer is inside of. -/
inductive Mode where
  | html
  | code
  /-- A text between two of the given quotes. -/
  | quoted (close : Char)
  /-- A heredoc with its label; `embeds` tells whether code may be embedded. -/
  | heredoc (label : List Char) (embeds : Bool)
  deriving DecidableEq, Repr

/-- How a lexeme changes the mode. -/
inductive Move where
  | stay
  /-- Go on in another mode. -/
  | become (mode : Mode)
  /-- Save the present mode and go on in another. -/
  | enter (mode : Mode)
  /-- Take the last saved mode back. -/
  | leave
  deriving DecidableEq, Repr

/-- What stands at a place of the text. -/
inductive Shape where
  | token (kind : TokenKind)
  | trivia (kind : TriviaKind)
  deriving DecidableEq, Repr

/-- A lexeme: what it is, its length, and the mode that follows. -/
structure Lexeme where
  shape : Shape
  length : Nat
  move : Move
  deriving DecidableEq, Repr

/-- A mark of the given length. -/
def mark (length : Nat) : Lexeme :=
  ⟨.token .symbol, length, .stay⟩

/-- A comment of the given length. It is a doc comment if it starts with a second star that does
not already belong to its end. -/
def blockComment (second : Option Char) (length : Nat) : Lexeme :=
  ⟨.trivia (if second == some '*' && length > 4 then .docComment else .comment), length, .stay⟩

/-- The lexeme at the start of a text outside of PHP. -/
def htmlLexeme (text : List Char) : Lexeme :=
  match htmlLength 0 text with
  | 0 =>
    let length := if startsWith "<?php" text then 5 else if startsWith "<?=" text then 3 else 2
    ⟨.token .openTag, length, .become .code⟩
  | n => ⟨.token .html, n, .stay⟩

/-- The lexeme at the start of a text of code. -/
def codeLexeme : List Char → Lexeme
  | '?' :: '>' :: _ => ⟨.token .closeTag, 2, .become .html⟩
  -- The opening bracket of attributes is not a comment.
  | '#' :: '[' :: _ => mark 2
  | '#' :: rest => ⟨.trivia .comment, lineLength 1 rest, .stay⟩
  | '/' :: '/' :: rest => ⟨.trivia .comment, lineLength 2 rest, .stay⟩
  | '/' :: '*' :: rest => blockComment rest.head? (commentLength 2 rest)
  | '\x27' :: rest => ⟨.token .literal, singleQuotedLength 1 rest, .stay⟩
  | '\x22' :: _ => ⟨.token .literal, 1, .enter (.quoted '\x22')⟩
  | '\x60' :: _ => ⟨.token .literal, 1, .enter (.quoted '\x60')⟩
  | '<' :: '<' :: '<' :: rest =>
    match heredocOpening? rest with
    | some (length, label, embeds) =>
      ⟨.token .literal, length + 3, .enter (.heredoc label embeds)⟩
    | none => mark 3
  | '$' :: c :: rest =>
    if isNameStart c then
      ⟨.token .variableName, 2 + (rest.takeWhile isNameChar).length, .stay⟩
    else mark 1
  | '\\' :: c :: rest =>
    if isNameStart c then ⟨.token .word, wordLength 2 rest, .stay⟩ else mark 1
  | '.' :: '.' :: '.' :: _ => mark 3
  | ':' :: ':' :: _ => mark 2
  | '?' :: '-' :: '>' :: _ => mark 3
  | '?' :: '?' :: _ => mark 2
  | '-' :: '>' :: _ => mark 2
  | '=' :: '>' :: _ => mark 2
  | '\x7b' :: _ => ⟨.token .symbol, 1, .enter .code⟩
  | '\x7d' :: _ => ⟨.token .symbol, 1, .leave⟩
  | c :: rest =>
    if isSpace c then ⟨.trivia .blank, 1 + (rest.takeWhile isSpace).length, .stay⟩
    else if isNameStart c then ⟨.token .word, wordLength 1 rest, .stay⟩
    else if c.isDigit then ⟨.token .literal, numberLength 1 rest, .stay⟩
    else mark 1
  | [] => mark 1

/-- The lexeme at the start of a quoted text. -/
def quotedLexeme (close : Char) (text : List Char) : Lexeme :=
  match quotedLength close 0 text with
  | 0 =>
    match text with
    | '\x7b' :: '$' :: _ => ⟨.token .symbol, 1, .enter .code⟩
    | '$' :: '\x7b' :: _ => ⟨.token .symbol, 2, .enter .code⟩
    | _ => ⟨.token .literal, 1, .leave⟩
  | n => ⟨.token .literal, n, .stay⟩

/-- The lexeme at the start of a text in a heredoc. -/
def heredocLexeme (label : List Char) (embeds : Bool) (text : List Char) : Lexeme :=
  -- Text begins at the opening line or behind something embedded, where the label closes too.
  match closingLabel? label text with
  | some n => ⟨.token .literal, n, .leave⟩
  | none =>
    match heredocLength label embeds 0 text with
    | (n, true) => ⟨.token .literal, n, .leave⟩
    | (0, false) =>
      match text with
      | '$' :: '\x7b' :: _ => ⟨.token .symbol, 2, .enter .code⟩
      | '$' :: rest => ⟨.token .variableName, 1 + embeddedLength rest, .stay⟩
      | _ => ⟨.token .symbol, 1, .enter .code⟩
    | (n, false) => ⟨.token .literal, n, .stay⟩

/-- The lexeme at the start of a text. -/
def lexeme : Mode → List Char → Lexeme
  | .html => htmlLexeme
  | .code => codeLexeme
  | .quoted close => quotedLexeme close
  | .heredoc label embeds => heredocLexeme label embeds

/-! ## The walk -/

/-- The state of the walk: the mode, the saved modes, the place, and what has been found. -/
structure State where
  mode : Mode
  saved : List Mode
  position : Nat
  tokens : Array Token
  trivia : Array Trivia

/-- The mode and the saved modes after a lexeme. -/
def State.move (s : State) : Move → State
  | .stay => s
  | .become mode => { s with mode }
  | .enter mode => { s with mode, saved := s.mode :: s.saved }
  | .leave =>
    match s.saved with
    | [] => s
    | mode :: saved => { s with mode, saved }

/-- Notes a lexeme with the given text. The brackets of embedded code are braces however they are
spelled. -/
def State.add (s : State) (shape : Shape) (text : List Char) : State :=
  let stop := s.position + text.length
  let content := if text == ['$', '\x7b'] then "\x7b" else String.ofList text
  match shape with
  | .token kind =>
    { s with position := stop, tokens := s.tokens.push ⟨kind, content, s.position, stop⟩ }
  | .trivia kind =>
    { s with position := stop, trivia := s.trivia.push ⟨kind, content, s.position, stop⟩ }

/-- Walks over a text. -/
def walk (s : State) (text : List Char) : State :=
  match text with
  | [] => s
  | c :: rest =>
    let found := lexeme s.mode (c :: rest)
    -- The first character is always taken, so the walk moves on even from an empty lexeme.
    let more := found.length - 1
    walk ((s.add found.shape (c :: rest.take more)).move found.move) (rest.drop more)
termination_by text.length
decreasing_by
  simp only [List.length_drop, List.length_cons]
  omega

end Lexer

/-- The number of characters of the line that names an interpreter, with its line end. There is
such a line at the start of a text only. -/
def Lexer.interpreterLength : List Char → Nat
  | '#' :: '!' :: rest => 3 + (rest.takeWhile (· != '\n')).length
  | _ => 0

/-- The tokens and the trivia of a text. The line that names an interpreter is outside of PHP. -/
def lex (text : List Char) : List Token × List Trivia :=
  let n := Lexer.interpreterLength text
  let start : Lexer.State := ⟨.html, [], 0, #[], #[]⟩
  let start := if n == 0 then start else start.add (.token .html) (text.take n)
  let s := Lexer.walk start (text.drop n)
  (s.tokens.toList, s.trivia.toList)

end PhpTypes.Php
