import PhpTypes.CommandLine.Arguments

/-!
# Requests

What the arguments of a run ask for: one of the two commands with its settings, or a text about the
program itself.
-/

namespace PhpTypes.CommandLine

/-- A command with its operands and its own options. -/
inductive Command where
  /-- Resolve annotations. -/
  | resolve (space : Option String) (imports : List String) (fullyQualified : Bool)
      (texts : List String)
  /-- Report on the files at paths. -/
  | scan (paths : List String)
  deriving DecidableEq, Repr

/-- A command with the options of the program. -/
structure Request where
  /-- The path of the settings to use. -/
  config : Option String
  json : Bool
  command : Command
  deriving DecidableEq, Repr

/-- The options that hold for every command. -/
def sharedOptions : List OptionSpec :=
  [⟨"config", none, .single false⟩, ⟨"verbose", some 'v', .counter⟩, ⟨"json", none, .flag⟩,
    ⟨"help", some 'h', .stop⟩]

/-- What may be given in front of the command. -/
def programArguments : ArgumentSpec where
  options := ⟨"version", some 'V', .stop⟩ :: sharedOptions
  emptyOperands := true

/-- What may be given to the command `resolve`. -/
def resolveArguments : ArgumentSpec where
  options := sharedOptions ++ [⟨"namespace", none, .single true⟩, ⟨"use", none, .repeated⟩,
    ⟨"fully-qualified", none, .flag⟩]
  emptyOperands := true

/-- What may be given to the command `scan`, whose operands are paths. -/
def scanArguments : ArgumentSpec where
  options := sharedOptions
  emptyOperands := false

/-- A command needs operands. -/
def requireOperands (parsed : Parsed) : Except Halt Unit :=
  if parsed.operands.isEmpty then .error .usage else .ok ()

/-- The request of a command, with the options in front of it and behind it. Of an option that is
given in both places the later one counts. -/
def makeRequest (before after : Parsed) (command : Command) : Request where
  config := (after.value? "config").orElse fun _ => before.value? "config"
  json := before.has "json" || after.has "json"
  command

/-- Reads the arguments of a run. -/
def readRequest (arguments : List String) : Except Halt Request := do
  let (before, rest) ← readArguments programArguments true .empty arguments
  match rest with
  | "resolve" :: rest =>
    let (after, _) ← readArguments resolveArguments false .empty rest
    requireOperands after
    return makeRequest before after (.resolve (after.value? "namespace") (after.values "use")
      (after.has "fully-qualified") after.operands)
  | "scan" :: rest =>
    let (after, _) ← readArguments scanArguments false .empty rest
    requireOperands after
    return makeRequest before after (.scan after.operands)
  | "help" :: topic =>
    if topic.isEmpty || topic == ["resolve"] || topic == ["scan"] || topic == ["help"] then
      .error (.requested "help")
    else .error .usage
  | _ => .error .usage

end PhpTypes.CommandLine
