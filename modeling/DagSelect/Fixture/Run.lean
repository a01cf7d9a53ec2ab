import DagSelect.Fixture.Case
import DagSelect.DagJson.Decode
import DagSelect.Selector.Compile
import DagSelect.Text.Quoted
import DagSelect.Walk.Walker

/-! # Running cases

The values of a case are written out and read again as DAG-JSON, which is how links and byte strings
get into it. A case passes when its walk fails with a message that contains the expected text, or
ends well with the expected visits.
-/

namespace DagSelect.Fixture

/-- The node that a plain value is written for. -/
def toNode (v : Json.Value) : Except String Node := (DagJson.decode v.text).mapError (·.message)

def toStore (blocks : List (String × Json.Value)) : Except String BlockStore := do
  let nodes ← blocks.mapM fun (name, v) => do return (Link.mk name, ← toNode v)
  return .ofList nodes

def Case.config (c : Case) : Except String Config := do
  let store ← c.blocks.mapM toStore
  return {
    loader := store.map (·.loader)
    budget := c.bounds.map fun b => .of b.nodes b.links
    once := c.once }

def Step.ofVisit (v : Visit) : Step := ⟨v.progress.path.text, v.reason.name⟩

def Case.records (c : Case) (v : Visit) : Bool := c.all || v.reason == .matched

/-- The visits that a case records, or the message of what stopped it. -/
def Case.execute (c : Case) (hops : Nat) : Except String (List Step) := do
  let s ← (compile (← toNode c.selector)).mapError (·.message)
  let root ← toNode c.data
  let config ← c.config
  let report := ((Walker.new config).walk hops root s .onlooker ()).1
  match report.outcome with
  | .done => return (report.visits.filter c.records).map .ofVisit
  | .failed e => throw e.message
  | .unfinished => throw "links are followed too deep"

def occursIn (part text : List Char) : Bool :=
  match text with
  | [] => part.isEmpty
  | _ :: rest => part.isPrefixOf text || occursIn part rest

def stepsText (steps : List Step) : String :=
  "[" ++ ", ".intercalate (steps.map stepText) ++ "]"
where
  stepText (s : Step) : String :=
    "Visit \x7b path: " ++ Text.quoted s.path ++ ", reason: " ++ Text.quoted s.reason ++ " \x7d"

/-- Why a case with a given execution does not pass; nothing when it passes. -/
def Case.failure? (c : Case) (execution : Except String (List Step)) : Option String :=
  match c.error, execution with
  | some expected, .error actual =>
    if occursIn expected.toList actual.toList then none
    else
      some
        ("expected an error containing " ++ Text.quoted expected ++ ", got " ++ Text.quoted actual)
  | some expected, .ok steps =>
    some ("expected an error containing " ++ Text.quoted expected ++
      s!", walk made {steps.length} visits")
  | none, .error actual => some ("unexpected error: " ++ actual)
  | none, .ok steps =>
    match c.visits with
    | some expected =>
      if expected = steps then none
      else some ("expected visits " ++ stepsText expected ++ "\n    got " ++ stepsText steps)
    | none => none

/-- Why a case does not pass; nothing when it passes. -/
def Case.run? (c : Case) (hops : Nat) : Option String := c.failure? (c.execute hops)

end DagSelect.Fixture
