/-!
# Tokens of PHP text

PHP text is cut into tokens, which the grammar sees, and trivia, which it does not: blanks and
comments. Both carry their place in the text, counted in characters.
-/

namespace PhpTypes.Php

/-- The classes of tokens that declarations are read from. -/
inductive TokenKind where
  /-- Text outside of PHP. -/
  | html
  /-- The start of PHP code. -/
  | openTag
  /-- The end of PHP code; it ends a statement too. -/
  | closeTag
  /-- A keyword or a name, with its backslashes. -/
  | word
  /-- A variable, with its `$`. -/
  | variableName
  /-- A number, or a part of a quoted text. -/
  | literal
  /-- An operator, a bracket or another mark. -/
  | symbol
  deriving DecidableEq, Repr

/-- A token: the characters from `start` up to `stop`. -/
structure Token where
  kind : TokenKind
  text : String
  start : Nat
  stop : Nat
  deriving DecidableEq, Repr

/-- The classes of trivia. -/
inductive TriviaKind where
  | blank
  /-- A comment of any form that is not a doc comment. -/
  | comment
  | docComment
  deriving DecidableEq, Repr

/-- A piece of trivia: the characters from `start` up to `stop`. -/
structure Trivia where
  kind : TriviaKind
  text : String
  start : Nat
  stop : Nat
  deriving DecidableEq, Repr

namespace Token

/-- Whether the token is the given mark. -/
def isSymbol (t : Token) (text : String) : Bool :=
  t.kind == .symbol && t.text == text

end Token

end PhpTypes.Php
