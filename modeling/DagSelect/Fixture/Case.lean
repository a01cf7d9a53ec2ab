import DagSelect.Json.Read

/-! # Fixture cases

A fixture file is a list of cases, each a selector and a document with what the walk is expected to
do. Fields that a case does not have are passed over, a field that occurs twice makes the file
unreadable, and so does anything of the wrong kind. Selectors, documents and blocks are kept as
plain JSON values.
-/

namespace DagSelect.Fixture

open Json (Tree Key Value)

/-- A node reached by a walk, as cases write it. -/
structure Step where
  path : String
  reason : String
deriving DecidableEq, Repr

structure Bounds where
  nodes : Option Nat
  links : Option Nat
deriving DecidableEq, Repr

structure Case where
  description : String
  selector : Value
  data : Value
  /-- The blocks behind links, in rising order of their names; without them links are not
  followed. -/
  blocks : Option (List (String × Value))
  /-- Whether nodes that are no results are recorded too. -/
  all : Bool
  bounds : Option Bounds
  once : Bool
  /-- A part of the message that is expected. -/
  error : Option String
  /-- The visits that are expected. -/
  visits : Option (List Step)
deriving Repr

/-- How deep containers may be nested in a file. -/
def maxDepth : Nat := 127

/-! ## Reading -/

/-- The entries with the names `known`, none of which may occur twice; all others are passed
over. -/
def knownFields? (known : List String) : List (Key × Tree) → Option (List (String × Tree))
  | [] => some []
  | (key, t) :: rest => do
    let name ← Json.text? key.literal
    let fields ← knownFields? known rest
    if known.contains name then
      if (fields.lookup name).isSome then none else return (name, t) :: fields
    else if t.isSpelled then return fields
    else none

def fields? (known : List String) : Tree → Option (List (String × Tree))
  | .object entries _ => knownFields? known entries
  | _ => none

def string? : Tree → Option String
  | .atom (.string literal) _ => Json.text? literal
  | _ => none

def bool? : Tree → Option Bool
  | .atom (.bool b) _ => some b
  | _ => none

def natural? : Tree → Option Nat
  | .atom (.number text) _ =>
    let value := Text.naturalOfDigits text
    if text ≠ [] ∧ text.all Char.isDigit ∧ value < 0x10000000000000000 then some value else none
  | _ => none

/-- A field that may be missing or null. -/
def optional? {α : Type} (read : Tree → Option α) : Option Tree → Option (Option α)
  | none => some none
  | some (.atom .null _) => some none
  | some t => (read t).map some

/-- A field that may be missing, but not null. -/
def defaulted? {α : Type} (read : Tree → Option α) (value : α) : Option Tree → Option α
  | none => some value
  | some t => read t

/-- Whether all visits are recorded: a name, or the same name as the only key of an object that
holds null. -/
def mode? : Tree → Option Bool
  | .object [(key, .atom .null _)] _ => (Json.text? key.literal).bind ofName?
  | t => (string? t).bind ofName?
where
  ofName? (name : String) : Option Bool :=
    if name = "matching" then some false else if name = "all" then some true else none

def bounds? (t : Tree) : Option Bounds := do
  let fields ← fields? ["nodes", "links"] t
  let nodes ← optional? natural? (fields.lookup "nodes")
  let links ← optional? natural? (fields.lookup "links")
  return ⟨nodes, links⟩

def step? (t : Tree) : Option Step := do
  let fields ← fields? ["path", "reason"] t
  let path ← (fields.lookup "path").bind string?
  let reason ← defaulted? string? "matched" (fields.lookup "reason")
  return ⟨path, reason⟩

def list? {α : Type} (read : Tree → Option α) : Tree → Option (List α)
  | .array items _ => items.mapM read
  | _ => none

/-- The blocks in rising order of their names; of equal names the last counts. -/
def blocks? : Tree → Option (List (String × Value))
  | .object entries _ => (Json.entriesToValues? (maxDepth - 3) entries).map Json.sortEntries
  | _ => none

def case? (t : Tree) : Option Case := do
  let fields ← fields?
    ["description", "selector", "data", "blocks", "mode", "budget", "once", "error", "visits"] t
  let field (name : String) : Option Tree := fields.lookup name
  let description ← (field "description").bind string?
  let selector ← (field "selector").bind (Tree.toValue? (maxDepth - 2))
  let data ← (field "data").bind (Tree.toValue? (maxDepth - 2))
  let blocks ← optional? blocks? (field "blocks")
  let all ← defaulted? mode? false (field "mode")
  let bounds ← optional? bounds? (field "budget")
  let once ← defaulted? bool? false (field "once")
  let error ← optional? string? (field "error")
  let visits ← optional? (list? step?) (field "visits")
  return { description, selector, data, blocks, all, bounds, once, error, visits }

def cases? (source : String) : Option (List Case) := (Json.readStrict? source).bind (list? case?)

end DagSelect.Fixture
