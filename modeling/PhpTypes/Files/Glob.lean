/-!
# Glob patterns

A pattern describes paths with slashes between their parts. Paths are compared byte by byte. `?`
stands for one byte and `*` for any run of bytes, neither of which crosses a slash; `[a-z]` stands
for one byte of a class; `{a,b}` stands for one of several patterns; a backslash takes the next
character as it is. A part `**` stands for any number of parts.

A pattern is compiled into lists of tokens, one for each choice of alternatives in braces. Empty
alternatives do not count as a choice.
-/

namespace PhpTypes.Files.Glob

/-! ## Tokens -/

/-- A token of a compiled pattern. -/
inductive Token where
  | byte (b : UInt8)
  /-- One byte other than a slash. -/
  | anyByte
  /-- Any run of bytes other than slashes. -/
  | star
  /-- One byte that lies in one of the ranges, or in none of them if `negated`. -/
  | byteClass (negated : Bool) (ranges : List (UInt8 × UInt8))
  /-- Any number of parts at the start. -/
  | leadingParts
  /-- Any number of parts between two others. -/
  | innerParts
  /-- Everything behind a slash. -/
  | trailingParts
  /-- Everything. -/
  | everything
  deriving DecidableEq, Repr

/-! ## Classes -/

/-- The number of characters before the bracket that closes a class, if there is one. A bracket
that comes first does not close it. -/
def classLength? (first : Bool) : List Char → Option Nat
  | [] => none
  | c :: rest =>
    if c == ']' && !first then some 0 else (classLength? false rest).map (· + 1)

/-- The ranges of a class; `pending` tells whether the last character was a hyphen behind a
start. A range whose end comes before its start is an error. -/
def classRanges (first pending : Bool) (done : List (Char × Char)) :
    List Char → Option (List (Char × Char))
  | [] => some (if pending then ('-', '-') :: done else done)
  | c :: rest =>
    if c == '-' && !first && !pending then classRanges false true done rest
    else if pending then
      match done with
      | [] => none
      | (low, _) :: others =>
        if c < low then none else classRanges false false ((low, c) :: others) rest
    else classRanges false false ((c, c) :: done) rest

/-- The ranges of bytes for a range of characters. Between two characters only the last byte of
the first and the first byte of the second make up a range; their other bytes stand for
themselves. -/
def byteRanges (range : Char × Char) : List (UInt8 × UInt8) :=
  let alone (b : UInt8) : UInt8 × UInt8 := (b, b)
  let low := String.utf8EncodeChar range.1
  let high := String.utf8EncodeChar range.2
  if range.1 == range.2 then low.map alone
  else
    match low.getLast?, high with
    | some l, h :: others => low.dropLast.map alone ++ (l, h) :: others.map alone
    | _, _ => []

/-- Whether the contents of a class ask for the bytes outside of it. -/
def isNegated (text : List Char) : Bool :=
  text.head?.any fun c => c == '!' || c == '^'

/-! ## Compiling -/

/-- What has been read of a pattern, or of an alternative in braces: whether there is anything,
and the choices of tokens, each with its last token first. -/
structure Branch where
  started : Bool
  choices : List (List Token)

/-- Nothing has been read. -/
def Branch.empty : Branch where
  started := false
  choices := [[]]

/-- Braces that are open: what comes before them, and the choices of their finished
alternatives. -/
structure Braces where
  before : Branch
  finished : List (List Token)

/-- Takes in the end of an alternative. -/
def Braces.finish (braces : Braces) (alternative : Branch) : Braces :=
  { braces with finished := braces.finished ++ alternative.choices.filter (!·.isEmpty) }

/-- What has been read up to and including the closing brace. -/
def Braces.close (braces : Braces) : Branch where
  started := true
  choices :=
    if braces.finished.isEmpty then braces.before.choices
    else braces.before.choices.flatMap fun lead => braces.finished.map (· ++ lead)

/-- The state of reading a pattern: the open braces, innermost first, what has been read inside of
them, the last character, and whether a bracket turned out never to be closed. -/
structure State where
  opened : List Braces
  branch : Branch
  previous : Option Char
  unclosed : Bool

namespace State

/-- Takes in tokens for text that ends in the given character. -/
def push (s : State) (last : Char) (tokens : List Token) : State :=
  { s with
    branch := ⟨true, s.branch.choices.map (tokens.reverse ++ ·)⟩
    previous := some last }

/-- Takes in a character that stands for itself. -/
def pushChar (s : State) (c : Char) : State :=
  s.push c ((String.utf8EncodeChar c).map .byte)

/-- Puts the token for a part `**` in the place of the slash before it, unless that slash belongs
to a part `**` at the start or the end. -/
def replaceSlash (s : State) (last : Char) (token : Token) : State :=
  let replace : List Token → List Token
    | .leadingParts :: done => .leadingParts :: done
    | .trailingParts :: done => .trailingParts :: done
    | _ :: done => token :: done
    | [] => [token]
  { s with branch := ⟨true, s.branch.choices.map replace⟩, previous := some last }

/-- Takes in two stars with the given text behind them. The answer tells whether they make up a
part `**` to which the slash behind them belongs. -/
def pushStars (s : State) (rest : List Char) : State × Bool :=
  let inside := !s.opened.isEmpty
  let next := rest.head?
  let plain := (s.push '*' [.star, .star], false)
  let startsPart := s.previous == some '/' ||
    (inside && (s.previous == some ',' || s.previous == some '\x7b'))
  if !s.branch.started then
    match next with
    | none => (s.push '*' [.leadingParts], false)
    | some c => if c == '/' then (s.push '/' [.leadingParts], true) else plain
  else if !startsPart then plain
  else
    match next with
    | none => (s.replaceSlash '*' .trailingParts, false)
    | some c =>
      if inside && (c == ',' || c == '\x7d') then (s.replaceSlash '*' .trailingParts, false)
      else if c == '/' then (s.replaceSlash '/' .innerParts, true)
      else plain

/-- Takes in a mark that has to do with braces. A closing brace needs an open one; outside of
braces a comma stands for itself. -/
def pushBrace (s : State) (c : Char) : Option State :=
  if c == '\x7b' then
    some { s with opened := ⟨s.branch, []⟩ :: s.opened, branch := .empty, previous := some c }
  else
    match s.opened with
    | [] => if c == ',' then some (s.pushChar c) else none
    | top :: outer =>
      let top := top.finish s.branch
      if c == ',' then
        some { s with opened := top :: outer, branch := .empty, previous := some c }
      else some { s with opened := outer, branch := top.close, previous := some c }

/-- Takes in a single character that is not part of something longer. -/
def pushSingle (s : State) (c : Char) : Option State :=
  if c == '?' then some (s.push c [.anyByte])
  else if c == '*' then some (s.push c [.star])
  else if c == '\x7b' || c == ',' || c == '\x7d' then s.pushBrace c
  else some (s.pushChar c)

end State

/-- Reads a pattern. It must not end in a backslash or inside of braces, nor hold a wrong range. A
bracket that is never closed stands for itself, and so do those behind it. -/
def read (s : State) (text : List Char) : Option State :=
  match text with
  | [] => if s.opened.isEmpty then some s else none
  | '\\' :: [] => none
  | '\\' :: c :: rest => read (s.pushChar c) rest
  | '*' :: '*' :: rest =>
    let (s, withSlash) := s.pushStars rest
    read s (rest.drop (if withSlash then 1 else 0))
  | c :: rest =>
    if c == '[' && !s.unclosed then
      let body := rest.drop (if isNegated rest then 1 else 0)
      match classLength? true body with
      | none =>
        match classRanges true false [] body with
        | none => none
        | some _ => read ({ s with unclosed := true }.pushChar c) rest
      | some n =>
        match classRanges true false [] (body.take n) with
        | none => none
        | some ranges =>
          let token : Token := .byteClass (isNegated rest) (ranges.flatMap byteRanges)
          read (s.push ']' [token]) (body.drop (n + 1))
    else
      match s.pushSingle c with
      | none => none
      | some s => read s rest
termination_by text.length
decreasing_by
  all_goals simp only [List.length_drop, List.length_cons]
  all_goals omega

/-- A pattern: the texts that it describes are those that one of the token lists describes. -/
structure Pattern where
  choices : List (List Token)
  deriving DecidableEq, Repr

/-- Compiles a pattern, if it is well formed. -/
def compile? (text : String) : Option Pattern := do
  let s ← read ⟨[], .empty, none, false⟩ text.toList
  -- Outside of braces, a pattern that consists of parts `**` describes every path.
  if s.branch.choices == [[.leadingParts]] && !text.contains '\x7b' then
    return ⟨[[.everything]]⟩
  else return ⟨s.branch.choices.map List.reverse⟩

/-! ## Matching -/

/-- The slash between the parts of a path. -/
def slash : UInt8 :=
  0x2f

/-- Whether some tail of the text satisfies `p`, where only bytes that satisfy `skips` are left
out before it. -/
def someTail (skips : UInt8 → Bool) (p : List UInt8 → Bool) : List UInt8 → Bool
  | [] => p []
  | b :: rest => p (b :: rest) || (skips b && someTail skips p rest)

/-- Whether some tail of the text that follows a slash satisfies `p`. -/
def someTailAfterSlash (p : List UInt8 → Bool) : List UInt8 → Bool
  | [] => false
  | b :: rest => (b == slash && p rest) || someTailAfterSlash p rest

/-- Whether the first byte satisfies `p` and the text behind it satisfies `q`. -/
def headAndTail (p : UInt8 → Bool) (q : List UInt8 → Bool) : List UInt8 → Bool
  | [] => false
  | b :: rest => p b && q rest

/-- Whether tokens describe a whole text. -/
def describes : List Token → List UInt8 → Bool
  | [], text => text.isEmpty
  | .byte b :: more, text => headAndTail (· == b) (describes more) text
  | .anyByte :: more, text => headAndTail (· != slash) (describes more) text
  | .byteClass negated ranges :: more, text =>
    let fits (b : UInt8) := ranges.any (fun r => r.1 ≤ b && b ≤ r.2) != negated
    headAndTail fits (describes more) text
  | .star :: more, text => someTail (· != slash) (describes more) text
  | .leadingParts :: more, text => describes more text || someTailAfterSlash (describes more) text
  | .innerParts :: more, text =>
    headAndTail (· == slash)
      (fun rest => describes more rest || someTailAfterSlash (describes more) rest) text
  | .trailingParts :: more, text =>
    headAndTail (· == slash) (someTail (fun _ => true) (describes more)) text
  | .everything :: more, text => someTail (fun _ => true) (describes more) text

/-- Whether a pattern describes a path. -/
def Pattern.matchesPath (pattern : Pattern) (path : String) : Bool :=
  let bytes := path.toUTF8.toList
  pattern.choices.any fun choice => describes choice bytes

end PhpTypes.Files.Glob
