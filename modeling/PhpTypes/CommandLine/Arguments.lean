/-!
# Arguments of the command line

Arguments are options and operands. An option is given by its long name, `--name`, or by one
letter, `-n`; letters may be put together. A value is given as `--name=value` or as the argument
that follows. The argument `--` makes operands of all that follow.

The options in front of a command hold for the whole program; the first operand is the command,
and what follows is read with the options of that command as well.
-/

namespace PhpTypes.CommandLine

/-! ## Options -/

/-- How often an option may be given, and whether it takes a value. -/
inductive Arity where
  /-- At most once, without a value. -/
  | flag
  /-- Any number of times, without a value. -/
  | counter
  /-- At most once, with a value, which may have to hold something. -/
  | single (allowsEmpty : Bool)
  /-- Any number of times, with a value. -/
  | repeated
  /-- Ends the reading of arguments. -/
  | stop
  deriving DecidableEq, Repr

/-- An option that can be given. -/
structure OptionSpec where
  long : String
  letter : Option Char
  arity : Arity
  deriving DecidableEq, Repr

/-- Whether an option takes a value. -/
def OptionSpec.takesValue (spec : OptionSpec) : Bool :=
  match spec.arity with
  | .single _ => true
  | .repeated => true
  | _ => false

/-- What may be given in front of the command or behind it. -/
structure ArgumentSpec where
  options : List OptionSpec
  /-- Whether an operand may be the empty text. -/
  emptyOperands : Bool
  deriving DecidableEq, Repr

/-- Why no command is run. -/
inductive Halt where
  /-- The arguments are not understood. -/
  | usage
  /-- An option that ends the reading of arguments was given. -/
  | requested (option : String)
  deriving DecidableEq, Repr

/-- The options and operands read so far, in order. -/
structure Parsed where
  /-- Options by their long names, with their values. -/
  options : List (String × String)
  operands : List String
  deriving DecidableEq, Repr

namespace Parsed

/-- No options and operands. -/
def empty : Parsed where
  options := []
  operands := []

/-- Whether an option was given. -/
def has (parsed : Parsed) (long : String) : Bool :=
  parsed.options.any (·.1 == long)

/-- Notes an option. One that may be given only once must be new. -/
def addOption (parsed : Parsed) (spec : OptionSpec) (value : String) : Except Halt Parsed :=
  let added : Parsed := { parsed with options := parsed.options ++ [(spec.long, value)] }
  match spec.arity with
  | .stop => .error (.requested spec.long)
  | .counter => .ok added
  | .repeated => .ok added
  | .flag => if parsed.has spec.long then .error .usage else .ok added
  | .single allowsEmpty =>
    if parsed.has spec.long || (value.isEmpty && !allowsEmpty) then .error .usage else .ok added

/-- Notes an operand. -/
def addOperand (parsed : Parsed) (spec : ArgumentSpec) (text : String) : Except Halt Parsed :=
  if text.isEmpty && !spec.emptyOperands then .error .usage
  else .ok { parsed with operands := parsed.operands ++ [text] }

/-- The value of an option that may be given once. -/
def value? (parsed : Parsed) (long : String) : Option String :=
  parsed.options.lookup long

/-- The values of an option, in order. -/
def values (parsed : Parsed) (long : String) : List String :=
  (parsed.options.filter (·.1 == long)).map Prod.snd

end Parsed

/-! ## Reading -/

/-- Whether an argument is an operand or a value, by its looks. A hyphen alone is. -/
def isPlain (argument : String) : Bool :=
  argument == "-" || !argument.startsWith "-"

/-- The options that single letters stand for. -/
def addLetters (specs : List OptionSpec) (parsed : Parsed) (letters : List Char) :
    Except Halt Parsed :=
  letters.foldlM (fun parsed letter =>
    match specs.find? (·.letter == some letter) with
    | some spec => parsed.addOption spec ""
    | none => .error .usage) parsed

/-- Cuts a long option at its equals sign. -/
def cutOption (text : String) : String × Option String :=
  let name := text.toList.takeWhile (· != '=')
  match text.toList.drop name.length with
  | [] => (.ofList name, none)
  | _ :: value => (.ofList name, some (.ofList value))

/-- Reads arguments one after the other, so that the first one that is wrong or asks for something
else decides. With `command`, the first operand ends the reading; the answer holds the arguments
from there on. -/
def readArguments (spec : ArgumentSpec) (command : Bool) (parsed : Parsed) :
    List String → Except Halt (Parsed × List String)
  | [] => .ok (parsed, [])
  | argument :: rest =>
    if argument == "--" then
      -- In front of the command there are no operands that could follow.
      if command then if rest.isEmpty then .ok (parsed, []) else .error .usage
      else do return (← rest.foldlM (·.addOperand spec ·) parsed, [])
    else if isPlain argument then
      if command then .ok (parsed, argument :: rest)
      else do readArguments spec command (← parsed.addOperand spec argument) rest
    else
      match argument.toList with
      | '-' :: '-' :: text =>
        let (name, value) := cutOption (.ofList text)
        match spec.options.find? (·.long == name) with
        | none => .error .usage
        | some option =>
          match option.takesValue, value, rest with
          | true, some value, rest => do
            readArguments spec command (← parsed.addOption option value) rest
          | true, none, value :: rest =>
            if isPlain value then do
              readArguments spec command (← parsed.addOption option value) rest
            else .error .usage
          | true, none, [] => .error .usage
          | false, some _, _ => .error .usage
          | false, none, rest => do
            readArguments spec command (← parsed.addOption option "") rest
      | _ => do
        let letters := argument.toList.drop 1
        readArguments spec command (← addLetters spec.options parsed letters) rest

end PhpTypes.CommandLine
