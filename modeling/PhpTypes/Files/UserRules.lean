import PhpTypes.Files.IgnoreRules

/-!
# The user's ignore rules

A user can have ignore rules for all repositories. They are in the file that the setting
`excludesFile` names, and without that setting in the file `git/ignore` among the user's settings.
The setting is looked for in the file `.gitconfig` of the user's home, then in the file `git/config`
among the user's settings.

The setting is a line `excludesFile = path`, in any letter case and with or without quotes. It is
read byte by byte, since the rest of its file need not be text.
-/

namespace PhpTypes.Files

namespace ExcludesFile

/-! ## Reading the setting -/

/-- Whether a byte is a blank character of ASCII. -/
def isBlankByte (b : UInt8) : Bool :=
  b == 0x20 || (0x09 ≤ b && b ≤ 0x0d)

/-- The bytes behind the blank ones at the start. -/
def dropBlankBytes (text : List UInt8) : List UInt8 :=
  text.dropWhile isBlankByte

/-- A byte with a capital letter made small. -/
def foldByte (b : UInt8) : UInt8 :=
  if 0x41 ≤ b && b ≤ 0x5a then b + 0x20 else b

/-- A quotation mark. -/
def quote : UInt8 :=
  0x22

/-- An equals sign. -/
def equals : UInt8 :=
  0x3d

/-- Whether nothing but blank bytes stands in front of the end of a line. -/
def endsLine (text : List UInt8) : Bool :=
  (text.takeWhile isBlankByte).contains lineFeed || text.all isBlankByte

/-- Whether a value can end in front of the text: a quotation mark may follow. -/
def endsValue (text : List UInt8) : Bool :=
  endsLine text ||
    match dropBlankBytes text with
    | [] => false
    | b :: rest => b == quote && endsLine rest

/-- The shortest value without blank bytes; `done` holds what has been read, last first. -/
def shortestValue (done : List UInt8) : List UInt8 → Option (List UInt8)
  | [] => none
  | b :: rest =>
    if isBlankByte b then none
    else if endsValue rest then some (b :: done).reverse
    else shortestValue (b :: done) rest

/-- The value behind the equals sign. A quotation mark in front belongs to the value only if it is
not one without it. -/
def value? (text : List UInt8) : Option (List UInt8) :=
  match dropBlankBytes text with
  | [] => none
  | b :: rest =>
    let whole := shortestValue [] (b :: rest)
    if b == quote then (shortestValue [] (dropBlankBytes rest)).orElse fun _ => whole else whole

/-- The value of the setting in the line that starts here. -/
def settingAt? (text : List UInt8) : Option (List UInt8) :=
  let name := "excludesfile".toUTF8.toList
  let text := dropBlankBytes text
  if (text.take name.length).map foldByte == name then
    match dropBlankBytes (text.drop name.length) with
    | [] => none
    | b :: rest => if b == equals then value? rest else none
  else none

/-- The value of the setting in the first line that has it; `atStart` tells whether a line starts
here. -/
def setting? (atStart : Bool) : List UInt8 → Option (List UInt8)
  | [] => none
  | b :: rest =>
    (if atStart then settingAt? (b :: rest) else none).orElse fun _ =>
      setting? (b == lineFeed) rest

/-- The path that the setting gives in a file with the given bytes, if it is text. -/
def ofBytes? (bytes : ByteArray) : Option String := do
  String.fromUTF8? ⟨(← setting? true bytes.toList).toArray⟩

end ExcludesFile

/-! ## The rules -/

namespace Environment

/-- The path with the user's home in the place of every tilde. -/
def expandHome (env : Environment) (path : String) : String :=
  let home := (absolutePath env.home.work).toList
  .ofList (path.toList.flatMap fun c => if c == '~' then home else [c])

/-- The path that the user's settings give for ignore rules. -/
def excludesFile? (env : Environment) : Option String :=
  let setting? (fs : FileSystem) (path : String) : Option String :=
    (fs.readBytes? path).bind ExcludesFile.ofBytes?
  ((setting? env.home ".gitconfig").orElse fun _ => setting? env.settings "git/config").map
    env.expandHome

/-- The user's rules for all repositories. A file that is named but does not exist is not replaced
by the usual one. -/
def userRules (env : Environment) : List IgnoreRule :=
  match env.excludesFile? with
  | some path => rulesOf (env.files.find? path)
  | none => rulesOf (env.settings.find? "git/ignore")

end Environment

end PhpTypes.Files
