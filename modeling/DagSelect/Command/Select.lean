import DagSelect.Command.BlockDirectory
import DagSelect.DagJson.Encode
import DagSelect.Selector.Compile
import DagSelect.Walk.Walker

/-! # Commands

`check` prints a selector in its canonical written form, `select` walks a document with a selector
and prints one line for each visit. Both are functions of a reader of files. What they print and
what they complain about is part of their answer, also when they fail half way. All output is
taken; `selectTo` prints to whatever may refuse it.
-/

namespace DagSelect.Command

inductive Failure where
  | read (file : String) (cause : ReadError)
  | decode (file : String)
  | walk (error : WalkError)
deriving DecidableEq, Repr

namespace Failure

def message : Failure → String
  | .read file _ => "failed to read " ++ file
  | .decode file => file ++ " could not be decoded"
  | .walk error => error.message

def causes : Failure → List String
  | .read _ cause => [cause.message]
  | .decode _ => []
  | .walk error => error.causes

end Failure

inductive Status where
  | done
  /-- The selector was refused. -/
  | refused
  | failed (failure : Failure)
  /-- The walk met the bound on how deep links are followed. -/
  | unfinished
deriving DecidableEq, Repr

structure Answer where
  status : Status
  output : String
  /-- What was wrong with the texts that were read, in order. -/
  complaints : List String
deriving DecidableEq, Repr

/-- The node in a file, or the answer of a command that stops for want of it. -/
def readNode (read : Reader) (file : String) : Except Answer Node :=
  match read file with
  | .error cause => .error ⟨.failed (.read file cause), "", []⟩
  | .ok source =>
    match DagJson.decode source with
    | .ok n => .ok n
    | .error e => .error ⟨.failed (.decode file), "", [e.message]⟩

def readSelector (read : Reader) (file : String) : Except Answer Selector := do
  match compile (← readNode read file) with
  | .ok s => .ok s
  | .error e => .error ⟨.refused, "", [e.message]⟩

def settle : Except Answer Answer → Answer
  | .ok answer => answer
  | .error answer => answer

/-- Prints the canonical written form of a selector. -/
def check (read : Reader) (selector : String) : Answer := settle do
  let s ← readSelector read selector
  return ⟨.done, DagJson.encodePretty s.toNode ++ "\n", []⟩

structure Options where
  selector : String
  file : String
  /-- The directory with the blocks; without it links are not followed. -/
  links : Option String
  /-- Whether visits to nodes that are no results are printed too. -/
  all : Bool
  maxNodes : Option Nat
  maxLinks : Option Nat
  once : Bool

/-- The settings of the walk. Either bound alone makes a budget. -/
def Options.config (o : Options) (read : Reader) : Config where
  loader := o.links.map (BlockDirectory.loader read)
  budget :=
    if o.maxNodes.isSome || o.maxLinks.isSome then some (.of o.maxNodes o.maxLinks) else none
  once := o.once

def line (v : Visit) : String :=
  (Json.Value.object [("path", .string v.progress.path.text), ("reason", .string v.reason.name),
    ("node", DagJson.toJson v.node)]).text ++ "\n"

def Options.prints (o : Options) (v : Visit) : Bool := o.all || v.reason == .matched

/-- Walks a document with a selector. -/
def select (read : Reader) (hops : Nat) (o : Options) : Answer := settle do
  let s ← readSelector read o.selector
  let root ← readNode read o.file
  let report := ((Walker.new (o.config read)).walk hops root s .onlooker ()).1
  let status := match report.outcome with
    | .done => .done
    | .failed e => .failed (.walk e)
    | .unfinished => .unfinished
  return ⟨status, String.join ((report.visits.filter o.prints).map line), []⟩

end DagSelect.Command
