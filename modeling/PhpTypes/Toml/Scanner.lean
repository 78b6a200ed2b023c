/-!
# Words of TOML text

Readers for the smallest parts of a TOML text: blanks and comments, keys and strings. A reader
answers with what it has read and the rest of the text, or not at all if the text is wrong.
-/

namespace PhpTypes.Toml

/-- A reader of values of type `α` at the start of a text. -/
abbrev Reader (α : Type) := List Char → Option (α × List Char)

/-- The text behind a mark that has to stand at its start. -/
def mark (c : Char) (text : List Char) : Option (List Char) :=
  [c].isPrefixOf? text

/-! ## Blanks and comments -/

/-- Whether a character must not be written as it is. -/
def isControl (c : Char) : Bool :=
  (c.toNat < 0x20 && c != '\t') || c == '\x7f'

/-- The text without the spaces and tabs at its start. -/
def dropBlanks (text : List Char) : List Char :=
  text.dropWhile fun c => c == ' ' || c == '\t'

/-- The text behind blanks, line ends and comments; `inComment` tells whether the text starts
inside a comment. -/
def dropLines (inComment : Bool) : List Char → Option (List Char)
  | [] => some []
  | '\n' :: rest => dropLines false rest
  | '\r' :: '\n' :: rest => dropLines false rest
  | c :: rest =>
    if inComment then if isControl c then none else dropLines true rest
    else if c == ' ' || c == '\t' then dropLines false rest
    else if c == '#' then dropLines true rest
    else some (c :: rest)

/-- The text behind the end of a line, before which only blanks and a comment may stand. -/
def endLine (inComment : Bool) : List Char → Option (List Char)
  | [] => some []
  | '\n' :: rest => some rest
  | '\r' :: '\n' :: rest => some rest
  | c :: rest =>
    if inComment then if isControl c then none else endLine true rest
    else if c == ' ' || c == '\t' then endLine false rest
    else if c == '#' then endLine true rest
    else none

/-! ## Escapes -/

/-- The value of a hexadecimal digit. -/
def hexDigit? (c : Char) : Option Nat :=
  if c.isDigit then some (c.toNat - '0'.toNat)
  else if 'a' ≤ c && c ≤ 'f' then some (c.toNat - 'a'.toNat + 10)
  else if 'A' ≤ c && c ≤ 'F' then some (c.toNat - 'A'.toNat + 10)
  else none

/-- The character with the code point that hexadecimal digits give, if it is one. -/
def codePoint? (digits : List Char) : Option Char := do
  let n ← digits.foldlM (fun n c => return 16 * n + (← hexDigit? c)) 0
  if n.isValidChar then some (Char.ofNat n) else none

/-- The character that a letter stands for behind a backslash. -/
def escape? : Char → Option Char
  | 'b' => some '\x08'
  | 't' => some '\t'
  | 'n' => some '\n'
  | 'f' => some '\x0c'
  | 'r' => some '\r'
  | 'e' => some '\x1b'
  | '\x22' => some '\x22'
  | '\\' => some '\\'
  | _ => none

/-! ## Strings -/

/-- A basic string behind its opening quote; `done` holds what has been read, last first. -/
def basicString (done : List Char) : Reader String
  | [] => none
  | '\x22' :: rest => some (.ofList done.reverse, rest)
  | '\\' :: 'x' :: a :: b :: rest => do basicString ((← codePoint? [a, b]) :: done) rest
  | '\\' :: 'u' :: a :: b :: c :: d :: rest => do
    basicString ((← codePoint? [a, b, c, d]) :: done) rest
  | '\\' :: 'U' :: a :: b :: c :: d :: e :: f :: g :: h :: rest => do
    basicString ((← codePoint? [a, b, c, d, e, f, g, h]) :: done) rest
  | '\\' :: c :: rest => do basicString ((← escape? c) :: done) rest
  | c :: rest => if isControl c then none else basicString (c :: done) rest

/-- What has been seen of a backslash at the end of a line. -/
inductive Fold where
  /-- Nothing. -/
  | none
  /-- The backslash and blanks behind it. -/
  | pending
  /-- The end of the line; blanks and line ends are left out until something else follows. -/
  | active
  deriving DecidableEq, Repr

/-- A basic string of several lines behind its opening quotes. Line ends stay as they are written.
Two quotes more than the closing ones may stand at its end. -/
def basicLines (fold : Fold) (done : List Char) : Reader String
  | [] => .none
  | '\r' :: '\n' :: rest =>
    match fold with
    | .none => basicLines .none ('\n' :: '\r' :: done) rest
    | _ => basicLines .active done rest
  | '\n' :: rest =>
    match fold with
    | .none => basicLines .none ('\n' :: done) rest
    | _ => basicLines .active done rest
  | c :: rest =>
    if fold == .pending then
      if c == ' ' || c == '\t' then basicLines .pending done rest else .none
    else if fold == .active && (c == ' ' || c == '\t') then basicLines .active done rest
    else
      match c, rest with
      | '\x22', '\x22' :: '\x22' :: '\x22' :: '\x22' :: rest =>
        some (.ofList ('\x22' :: '\x22' :: done).reverse, rest)
      | '\x22', '\x22' :: '\x22' :: '\x22' :: rest => some (.ofList ('\x22' :: done).reverse, rest)
      | '\x22', '\x22' :: '\x22' :: rest => some (.ofList done.reverse, rest)
      | '\\', 'x' :: a :: b :: rest => do basicLines .none ((← codePoint? [a, b]) :: done) rest
      | '\\', 'u' :: a :: b :: c :: d :: rest => do
        basicLines .none ((← codePoint? [a, b, c, d]) :: done) rest
      | '\\', 'U' :: a :: b :: c :: d :: e :: f :: g :: h :: rest => do
        basicLines .none ((← codePoint? [a, b, c, d, e, f, g, h]) :: done) rest
      | '\\', d :: rest =>
        match escape? d with
        | some e => basicLines .none (e :: done) rest
        -- Not an escape, so only blanks may follow up to the end of the line.
        | none => basicLines .pending done (d :: rest)
      | c, rest => if isControl c then .none else basicLines .none (c :: done) rest

/-- A literal string behind its opening quote. -/
def literalString (done : List Char) : Reader String
  | [] => none
  | '\x27' :: rest => some (.ofList done.reverse, rest)
  | c :: rest => if isControl c then none else literalString (c :: done) rest

/-- A literal string of several lines behind its opening quotes, with its line ends as written. -/
def literalLines (done : List Char) : Reader String
  | '\x27' :: '\x27' :: '\x27' :: '\x27' :: '\x27' :: rest =>
    some (.ofList ('\x27' :: '\x27' :: done).reverse, rest)
  | '\x27' :: '\x27' :: '\x27' :: '\x27' :: rest => some (.ofList ('\x27' :: done).reverse, rest)
  | '\x27' :: '\x27' :: '\x27' :: rest => some (.ofList done.reverse, rest)
  | '\r' :: '\n' :: rest => literalLines ('\n' :: '\r' :: done) rest
  | '\n' :: rest => literalLines ('\n' :: done) rest
  | c :: rest => if isControl c then none else literalLines (c :: done) rest
  | [] => none

/-- The text without a line end at its start. -/
def dropLineEnd : List Char → List Char
  | '\n' :: rest => rest
  | '\r' :: '\n' :: rest => rest
  | text => text

/-- A string in any of its four forms. -/
def string? : Reader String
  | '\x22' :: '\x22' :: '\x22' :: rest => basicLines .none [] (dropLineEnd rest)
  | '\x22' :: rest => basicString [] rest
  | '\x27' :: '\x27' :: '\x27' :: rest => literalLines [] (dropLineEnd rest)
  | '\x27' :: rest => literalString [] rest
  | _ => none

/-! ## Keys -/

/-- Whether a character may stand in a key without quotes. -/
def isBareKeyChar (c : Char) : Bool :=
  c.isAlphanum || c == '_' || c == '-'

/-- One part of a key. -/
def keyPart : Reader String
  | '\x22' :: rest => basicString [] rest
  | '\x27' :: rest => literalString [] rest
  | text =>
    match text.takeWhile isBareKeyChar with
    | [] => none
    | word => some (.ofList word, text.drop word.length)

/-- A key of at most `n` parts with dots between them. Blanks may stand around the dots. -/
def key : Nat → Reader (List String)
  | 0, _ => none
  | n + 1, text => do
    let (part, rest) ← keyPart (dropBlanks text)
    match dropBlanks rest with
    | '.' :: rest => do
      let (parts, rest) ← key n rest
      return (part :: parts, rest)
    | rest => return ([part], rest)

end PhpTypes.Toml
