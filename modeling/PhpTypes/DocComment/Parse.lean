import PhpTypes.DocComment.Basic

/-!
# Reading doc comments

The text may come with its delimiters or without. Every line is freed of blanks and of the stars
that decorate it. A line that starts with `@` and a name opens a tag; any other line that is not
empty belongs to the tag before it, or to the summary if there is none.
-/

namespace PhpTypes.DocComment

/-! ## Lines -/

/-- A line of a doc comment that carries something. -/
inductive Line where
  /-- The start of a tag. -/
  | tag (name body : List Char)
  /-- Running text. -/
  | text (content : List Char)
  deriving DecidableEq, Repr

/-- A line without its decoration. -/
def undecorate (line : List Char) : List Char :=
  Text.trim ((Text.trim line).dropWhile (· == '*'))

/-- What an undecorated line carries; nothing if it is empty or holds `@` without a name. -/
def Line.ofText? : List Char → Option Line
  | [] => none
  | '@' :: rest =>
    match rest.takeWhile (!Text.isBlank ·) with
    | [] => none
    | name => some (.tag name (Text.trim (rest.dropWhile (!Text.isBlank ·))))
  | content => some (.text content)

/-- The text between the delimiters of a comment; delimiters may be missing. -/
def interior (comment : List Char) : List Char :=
  Text.dropEnd "*/".toList (Text.dropLead "/**".toList (Text.trim comment))

/-- The lines of a comment that carry something. -/
def lines (comment : List Char) : List Line :=
  ((interior comment).splitOn '\n').filterMap fun line => Line.ofText? (undecorate line)

/-! ## Sections -/

/-- A tag as written: its name, its body and the lines of text that continue it. -/
structure Section where
  name : List Char
  body : List Char
  more : List (List Char)
  deriving DecidableEq, Repr

/-- The lines of text before the first tag, and the tags with the lines that continue them. -/
def sections : List Line → List (List Char) × List Section
  | [] => ([], [])
  | .text content :: rest =>
    let (free, tags) := sections rest
    (content :: free, tags)
  | .tag name body :: rest =>
    let (free, tags) := sections rest
    ([], ⟨name, body, free⟩ :: tags)

/-- A text followed by the lines that continue it, with spaces between. -/
def continued (text : List Char) (more : List (List Char)) : String :=
  .ofList (Text.join ' ' (if text.isEmpty then more else text :: more))

/-! ## Tags -/

/-- The variable at the start of a text, such as `$x`, `...$x`, `&$x` or `&...$x`: its name
without sigils and without punctuation behind it, and whether it is variadic. -/
def readVariable? (text : List Char) : Option (List Char × Bool) := do
  let word := Text.dropLead ['&'] (Text.firstWord text).1
  let (word, variadic) :=
    match "...".toList.isPrefixOf? word with
    | some rest => (rest, true)
    | none => (word, false)
  let named ← ['$'].isPrefixOf? word
  match Text.dropEndWhile (fun c => c == ',' || c == '.' || c == ')') named with
  | [] => none
  | name => some (name, variadic)

/-- Reads the body of a tag `@param`: an optional type, an optional variable and a description,
which the lines `more` continue. -/
def readParam (body : List Char) (more : List (List Char)) : ParamTag :=
  -- A body that starts with the variable has no type.
  let (type, rest) := if (readVariable? body).isSome then ([], body) else TypeExpr.firstType body
  let type := if type.isEmpty then none else some (String.ofList type)
  let rest := Text.trimStart rest
  match readVariable? (rest.takeWhile (!Text.isBlank ·)) with
  | some (name, variadic) =>
    { variableName := some (.ofList name)
      type
      description := continued (Text.trim (rest.dropWhile (!Text.isBlank ·))) more
      variadic }
  | none =>
    { variableName := none
      type
      description := continued (Text.trim rest) more
      variadic := false }

/-- The tag that a section describes. -/
def Section.toTag (s : Section) : DocTag :=
  if s.name = "param".toList then .param (readParam s.body s.more)
  else .other { name := .ofList s.name, body := continued s.body s.more }

/-- Reads the text of a doc comment. -/
def parse (comment : String) : DocComment :=
  let (free, tags) := sections (lines comment.toList)
  { summary := .ofList (Text.join '\n' free)
    tags := tags.map Section.toTag }

end PhpTypes.DocComment
