import DagSelect.Selector

/-! # The written form of selectors

A selector is written as a map with one entry: the key names the kind, the value holds the parts
under keys of their own. A recursion is written as the sequence it repeats, whatever point of it has
been reached.
-/

namespace DagSelect

namespace Wire

/-! ## Keys -/

def matcher : String := "."
def all : String := "a"
def fields : String := "f"
def index : String := "i"
def range : String := "r"
def union : String := "|"
def recursive : String := "R"
def edge : String := "@"

def next : String := ">"
def selections : String := "f>"
def position : String := "i"
def start : String := "^"
def stop : String := "$"
def sequence : String := ":>"
def limit : String := "d"
/-- Read as `limit`, never written. -/
def limitAlias : String := "l"

def depth : String := "d"
/-- Read as `depth`, never written. -/
def depthAlias : String := "depth"
def unbounded : String := "none"

def keyed (key : String) (body : Node) : Node := .map [(key, body)]

def empty : Node := .map []

end Wire

/-- The written form of a limit; depths past the range of integers are cut off at its end. -/
def Limit.toNode : Limit → Node
  | .depth laps => Wire.keyed Wire.depth (.int (Int64.ofInt (min laps Int64.maxValue.toInt)))
  | .unbounded => Wire.keyed Wire.unbounded Wire.empty

namespace Selector

mutual
def toNode : Selector → Node
  | .matcher => Wire.keyed Wire.matcher Wire.empty
  | .all next => Wire.keyed Wire.all (.map [(Wire.next, toNode next)])
  | .fields selections =>
    Wire.keyed Wire.fields (.map [(Wire.selections, .map (selectionsToNode selections))])
  | .index position next =>
    Wire.keyed Wire.index (.map [(Wire.position, .int position), (Wire.next, toNode next)])
  | .range start stop next =>
    Wire.keyed Wire.range
      (.map [(Wire.start, .int start), (Wire.stop, .int stop), (Wire.next, toNode next)])
  | .union members => Wire.keyed Wire.union (.list (membersToNode members))
  | .recursive limit sequence _ =>
    Wire.keyed Wire.recursive (.map [(Wire.limit, limit.toNode), (Wire.sequence, toNode sequence)])
  | .edge => Wire.keyed Wire.edge Wire.empty

def selectionsToNode : List (String × Selector) → List (String × Node)
  | [] => []
  | (name, s) :: rest => (name, toNode s) :: selectionsToNode rest

def membersToNode : List Selector → List Node
  | [] => []
  | s :: rest => toNode s :: membersToNode rest
end

@[simp] theorem selectionsToNode_eq_map (selections : List (String × Selector)) :
    selectionsToNode selections = selections.map fun e => (e.1, toNode e.2) := by
  induction selections with
  | nil => rfl
  | cons e rest ih => simp [selectionsToNode, ih]

@[simp] theorem membersToNode_eq_map (members : List Selector) :
    membersToNode members = members.map toNode := by
  induction members with
  | nil => rfl
  | cons s rest ih => simp [membersToNode, ih]

end Selector

end DagSelect
