import DagSelect.Command.Arguments
import DagSelect.Fixture.Report

/-! # The command line

The outer layer of the program: it reads the files that a request needs, hands them to the command
as a reader, and puts the answer on the standard streams. The blocks of a directory are read before
the walk begins, as far as links lead from the document.
-/

namespace DagSelect.Main

/-- How many links deep a walk may go. -/
def maxHops : Nat := 1000000

/-- The reason why a file cannot be read, by the number of the system's error, which may come with
its sign changed. -/
def readErrorOfCode (code : UInt32) (details : String) : ReadError :=
  let number := if code < 0x80000000 then code else 0 - code
  if number == 2 then .notFound
  else if number == 20 then .notDirectory
  else if number == 21 then .isDirectory
  else if number == 36 then .nameTooLong
  else .other (details ++ s!" (os error {number})")

def readErrorOf (e : IO.Error) : ReadError :=
  match e with
  | .noFileOrDirectory _ code details => readErrorOfCode code details
  | .inappropriateType _ code details => readErrorOfCode code details
  | .invalidArgument _ code details => readErrorOfCode code details
  | .permissionDenied _ code details => readErrorOfCode code details
  | .resourceExhausted _ code details => readErrorOfCode code details
  | other => .other (toString other)

def readFile (name : String) : IO (Except ReadError String) := do
  if name.toList.contains '\x00' then return .error .nulInName
  try
    let bytes ← IO.FS.readBinFile name
    match String.fromUTF8? bytes with
    | some text => return .ok text
    | none => return .error .notText
  catch e => return .error (readErrorOf e)

/-- Files that have been read, by their names. -/
abbrev Snapshot := List (String × Except ReadError String)

def Snapshot.reader (files : Snapshot) : Reader :=
  fun name => (files.lookup name).getD (.error .notFound)

def Snapshot.add (files : Snapshot) (name : String) : IO Snapshot := do
  if (files.lookup name).isSome then return files
  return (name, ← readFile name) :: files

def linksOf (source : String) : List Link :=
  match DagJson.decode source with
  | .ok n => n.fold fun n children => n.link?.toList ++ children.flatMap fun (_, _, links) => links
  | .error _ => []

/-- Adds the files of all blocks that links lead to. -/
partial def Snapshot.addBlocks (directory : String) (files : Snapshot) : List Link → IO Snapshot
  | [] => return files
  | link :: rest => do
    let name := BlockDirectory.fileName directory link
    if BlockDirectory.isName link && (files.lookup name).isNone then
      let source ← readFile name
      let more := match source with
        | .ok text => linksOf text
        | .error _ => []
      addBlocks directory ((name, source) :: files) (more ++ rest)
    else addBlocks directory files rest

/-- The files that a walk may come to. -/
def filesOf (o : Command.Options) : IO Snapshot := do
  let files ← Snapshot.add (← Snapshot.add [] o.selector) o.file
  match o.links, files.reader o.file with
  | some directory, .ok text => Snapshot.addBlocks directory files (linksOf text)
  | _, _ => return files

/-- Puts an answer on the standard streams and gives the exit code. -/
def finish (answer : Command.Answer) : IO UInt32 := do
  IO.print answer.output
  for complaint in answer.complaints do IO.eprintln s!"Error: {complaint}"
  match answer.status with
  | .done => return 0
  | .refused => return 1
  | .unfinished =>
    IO.eprintln "error: links are followed too deep"
    return 1
  | .failed failure =>
    IO.eprintln s!"error: {failure.message}"
    for cause in failure.causes do IO.eprintln s!"  caused by: {cause}"
    return 1

def readCases (file : String) : IO (List Fixture.Case) := do
  match ← readFile file with
  | .error e => throw (IO.userError e.message)
  | .ok source =>
    match Fixture.cases? source with
    | some cases => return cases
    | none => throw (IO.userError s!"{file} holds no fixture cases")

/-- Runs the cases of some files, until one cannot be read, and tells whether all pass. -/
def runFiles (verbose : Bool) : List String → IO Bool
  | [] => return true
  | file :: rest => do
    IO.println s!"\n=== Testing {file} ==="
    let (passed, report) := Fixture.coverage verbose maxHops (← readCases file)
    IO.print report
    let others ← runFiles verbose rest
    return passed && others

def perform : Command.Request → IO UInt32
  | .check selector => do
    let files ← Snapshot.add [] selector
    finish (Command.check files.reader selector)
  | .select options => do
    let files ← filesOf options
    finish (Command.select files.reader maxHops options)
  | .run files verbose => do
    let passed ← runFiles verbose files
    return if passed then 0 else 1
  | .debug file index => do
    let (output, complaint) := Fixture.describe maxHops (← readCases file) index
    IO.print output
    IO.eprint complaint
    return 0

end DagSelect.Main

def main (args : List String) : IO UInt32 := do
  match DagSelect.Command.Request.ofArguments args with
  | .error e =>
    IO.eprintln s!"error: {e.message}"
    return 2
  | .ok request =>
    try DagSelect.Main.perform request
    catch e =>
      IO.eprintln s!"Error: {e}"
      return 1
