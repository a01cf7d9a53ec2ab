import DagSelect.Command.Select

/-! # Arguments of the commands

A command line names a command, then options, each with a value behind it or none, and whatever else
the command takes. What an option may be called is a table, one for each command. Nothing may be
given twice, and nothing that is not in the table.
-/

namespace DagSelect.Command

inductive Request where
  | check (selector : String)
  | select (options : Options)
  /-- Runs all cases of some fixture files. -/
  | run (files : List String) (verbose : Bool)
  /-- Tells everything about one case of a fixture file. -/
  | debug (file : String) (index : Nat)

inductive UsageError where
  | noCommand
  | unknownCommand (name : String)
  | unknownOption (text : String)
  | noValue (option : String)
  | repeated (option : String)
  | missing (option : String)
  | notANumber (option value : String)
  | stray (argument : String)
deriving DecidableEq, Repr

def UsageError.message : UsageError → String
  | .noCommand => "a command is expected: select, check, run or debug"
  | .unknownCommand name => "unknown command " ++ name
  | .unknownOption text => "unknown option " ++ text
  | .noValue option => "--" ++ option ++ " needs a value"
  | .repeated option => "--" ++ option ++ " is given twice"
  | .missing option => "--" ++ option ++ " is required"
  | .notANumber option value => "--" ++ option ++ " needs a number, not " ++ value
  | .stray argument => "unexpected argument " ++ argument

structure Switch where
  name : String
  /-- A letter that stands for the name behind a single dash. -/
  letter : Option Char
  hasValue : Bool
deriving Repr

def Switch.isWritten (s : Switch) (argument : String) : Bool :=
  argument == "--" ++ s.name || s.letter.any fun c => argument == String.ofList ['-', c]

structure Arguments where
  values : List (String × String)
  flags : List String
  others : List String
deriving Repr

namespace Arguments

def empty : Arguments := ⟨[], [], []⟩

def has (a : Arguments) (name : String) : Bool :=
  (a.values.lookup name).isSome || a.flags.contains name

/-- Takes apart what is left of a command line. -/
def collect (known : List Switch) (a : Arguments) : List String → Except UsageError Arguments
  | [] => .ok a
  | argument :: rest =>
    match known.find? (·.isWritten argument) with
    | some s =>
      if a.has s.name then .error (.repeated s.name)
      else if s.hasValue then
        match rest with
        | [] => .error (.noValue s.name)
        | value :: rest => collect known { a with values := (s.name, value) :: a.values } rest
      else collect known { a with flags := s.name :: a.flags } rest
    | none =>
      if argument.startsWith "-" then .error (.unknownOption argument)
      else collect known { a with others := a.others ++ [argument] } rest

def required (a : Arguments) (name : String) : Except UsageError String :=
  match a.values.lookup name with
  | some value => .ok value
  | none => .error (.missing name)

/-- The number given for an option, of at most 64 bits. -/
def number? (a : Arguments) (name : String) : Except UsageError (Option Nat) :=
  match a.values.lookup name with
  | none => .ok none
  | some value =>
    match Text.toInt? value.toList with
    | some i =>
      if 0 ≤ i ∧ i < 0x10000000000000000 then .ok (some i.toNat)
      else .error (.notANumber name value)
    | none => .error (.notANumber name value)

def optionsOnly (a : Arguments) : Except UsageError Arguments :=
  match a.others with
  | [] => .ok a
  | argument :: _ => .error (.stray argument)

end Arguments

/-! ## The commands -/

def selectorSwitch : Switch := ⟨"selector", some 's', true⟩

def fileSwitch : Switch := ⟨"file", some 'f', true⟩

def selectSwitches : List Switch :=
  [selectorSwitch, fileSwitch, ⟨"links", none, true⟩, ⟨"all", none, false⟩,
    ⟨"max-nodes", none, true⟩, ⟨"max-links", none, true⟩, ⟨"once", none, false⟩]

def Options.ofArguments (a : Arguments) : Except UsageError Options := do
  let selector ← a.required "selector"
  let file ← a.required "file"
  let maxNodes ← a.number? "max-nodes"
  let maxLinks ← a.number? "max-links"
  return { selector, file, links := a.values.lookup "links", all := a.has "all", maxNodes, maxLinks,
           once := a.has "once" }

def Request.ofArguments : List String → Except UsageError Request
  | [] => .error .noCommand
  | "check" :: rest => do
    let a ← (← Arguments.collect [selectorSwitch] .empty rest).optionsOnly
    return .check (← a.required "selector")
  | "select" :: rest => do
    let a ← (← Arguments.collect selectSwitches .empty rest).optionsOnly
    return .select (← Options.ofArguments a)
  | "run" :: rest => do
    let a ← Arguments.collect [⟨"verbose", some 'v', false⟩] .empty rest
    if a.others.isEmpty then throw (.missing "file")
    return .run a.others (a.has "verbose")
  | "debug" :: rest => do
    let a ← (← Arguments.collect [fileSwitch, ⟨"case", some 'c', true⟩] .empty rest).optionsOnly
    let file ← a.required "file"
    match ← a.number? "case" with
    | some index => return .debug file index
    | none => throw (.missing "case")
  | name :: _ => .error (.unknownCommand name)

end DagSelect.Command
