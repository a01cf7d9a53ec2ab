import DagSelect.Json.Value
import DagSelect.Base64
import DagSelect.Node

/-! # Writing DAG-JSON

Nodes are written as plain JSON, with the key `/` reserved for the two kinds that JSON lacks: a link
is an object whose only entry holds its address, a byte string one whose only entry is an object
with its base64 text under `bytes`.
-/

namespace DagSelect.DagJson

mutual
def toJson : Node → Json.Value
  | .null => .null
  | .bool b => .bool b
  | .int i => .int i.toInt
  | .float x => .float x
  | .string s => .string s
  | .bytes b => .object [("/", .object [("bytes", .string (String.ofList (Base64.encode b)))])]
  | .link l => .object [("/", .string l.text)]
  | .map entries => .object (entriesToJson entries)
  | .list items => .array (itemsToJson items)

def entriesToJson : List (String × Node) → List (String × Json.Value)
  | [] => []
  | (k, v) :: rest => (k, toJson v) :: entriesToJson rest

def itemsToJson : List Node → List Json.Value
  | [] => []
  | v :: rest => toJson v :: itemsToJson rest
end

@[simp] theorem entriesToJson_eq_map (entries : List (String × Node)) :
    entriesToJson entries = entries.map fun e => (e.1, toJson e.2) := by
  induction entries with
  | nil => rfl
  | cons e rest ih => simp [entriesToJson, ih]

@[simp] theorem itemsToJson_eq_map (items : List Node) : itemsToJson items = items.map toJson := by
  induction items with
  | nil => rfl
  | cons v rest ih => simp [itemsToJson, ih]

def encode (n : Node) : String := (toJson n).text

/-- The text of a node with one part on each line. -/
def encodePretty (n : Node) : String := (toJson n).pretty

end DagSelect.DagJson
