import PhpTypes.Php.Lexer

/-!
# The doc comment of a declaration

A doc comment belongs to the declaration that it directly precedes. Blanks and other comments may
stand between the two; anything else means that the comment belongs to something else.
-/

namespace PhpTypes.Php

/-- Whether the text from `start` up to `stop` is white space. -/
def isGap (text : Array Char) (start stop : Nat) : Bool :=
  (text.extract start stop).all Lexer.isSpace

/-- Goes back over trivia, last first, as long as they reach up to the place `covered`, which is
where the declaration or the last passed trivia start. The first doc comment is the answer. -/
def searchBack (text : Array Char) : List Trivia → Nat → Option Trivia
  | [], _ => none
  | t :: earlier, covered =>
    if isGap text t.stop covered then
      match t.kind with
      | .docComment => some t
      | .blank => searchBack text earlier t.start
      | .comment => searchBack text earlier t.start
    else none

/-- The doc comment that directly precedes the place `start`, given all trivia of the text in
order. -/
def precedingDoc (text : Array Char) (trivia : List Trivia) (start : Nat) : Option Trivia :=
  searchBack text (trivia.takeWhile (·.start < start)).reverse start

end PhpTypes.Php
