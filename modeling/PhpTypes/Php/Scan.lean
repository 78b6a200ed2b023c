import PhpTypes.DocComment.Parse
import PhpTypes.Php.Declared
import PhpTypes.Php.Preceding
import PhpTypes.Php.Statements
import PhpTypes.Routine

/-!
# Scanning PHP text

The routines that a PHP text declares, with everything their documentation is read with.
-/

namespace PhpTypes.Php

/-- A parameter with its hint in annotation notation. -/
def ParameterDecl.toParameter (p : ParameterDecl) : Parameter :=
  { name := p.name, hint := p.hint.map Hint.toText, variadic := p.variadic }

/-- A declared routine with the doc comment that precedes it. -/
def Declared.toRoutine (text : Array Char) (trivia : List Trivia) (d : Declared) : Routine where
  name := d.head.name
  className := d.className
  parameters := d.head.parameters.map ParameterDecl.toParameter
  returnHint := d.head.returns.map Hint.toText
  doc := (precedingDoc text trivia d.head.start).map fun t => .parse t.text
  scope := d.scope

/-- The routines of a PHP text, in the order of the text. Every routine has a list of parameters,
so a text without parentheses has none. -/
def scan (source : String) : List Routine :=
  let text := source.toList
  if !text.contains '(' then []
  else
    let (tokens, trivia) := lex text
    let declared := declaredIn .empty (readProgram tokens)
    declared.map (Declared.toRoutine text.toArray trivia)

end PhpTypes.Php
