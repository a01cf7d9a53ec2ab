import DagSelect.Selector.Compile
import DagSelect.Path

/-! # Selector expressions

An expression is a selector as someone puts it together, before anything about it has been checked.
It has a written form of its own, `toNode`, and stands for the selector that this form compiles to,
if it compiles. The numbers in it may be any 64-bit integers; compiling refuses the ones that make
no sense.
-/

namespace DagSelect

inductive Expr where
  | matcher
  | all (next : Expr)
  | fields (selections : List (String × Expr))
  | index (position : Int64) (next : Expr)
  | range (start stop : Int64) (next : Expr)
  | union (members : List Expr)
  | recursive (limit : Limit) (sequence : Expr)
  | edge
deriving Repr, Inhabited

namespace Expr

mutual
def toNode : Expr → Node
  | .matcher => Wire.keyed Wire.matcher Wire.empty
  | .all next => Wire.keyed Wire.all (.map [(Wire.next, toNode next)])
  | .fields selections =>
    Wire.keyed Wire.fields (.map [(Wire.selections, .map (selectionsToNode selections))])
  | .index position next =>
    Wire.keyed Wire.index (.map [(Wire.position, .int position), (Wire.next, toNode next)])
  | .range start stop next =>
    Wire.keyed Wire.range
      (.map [(Wire.start, .int start), (Wire.stop, .int stop), (Wire.next, toNode next)])
  | .union members => Wire.keyed Wire.union (.list (membersToNode members))
  | .recursive limit sequence =>
    Wire.keyed Wire.recursive (.map [(Wire.limit, limit.toNode), (Wire.sequence, toNode sequence)])
  | .edge => Wire.keyed Wire.edge Wire.empty

def selectionsToNode : List (String × Expr) → List (String × Node)
  | [] => []
  | (name, e) :: rest => (name, toNode e) :: selectionsToNode rest

def membersToNode : List Expr → List Node
  | [] => []
  | e :: rest => toNode e :: membersToNode rest
end

@[simp] theorem selectionsToNode_eq_map (selections : List (String × Expr)) :
    selectionsToNode selections = selections.map fun e => (e.1, toNode e.2) := by
  induction selections with
  | nil => rfl
  | cons e rest ih => simp [selectionsToNode, ih]

@[simp] theorem membersToNode_eq_map (members : List Expr) :
    membersToNode members = members.map toNode := by
  induction members with
  | nil => rfl
  | cons e rest ih => simp [membersToNode, ih]

def compile (e : Expr) : Except CompileError Selector := DagSelect.compile e.toNode

/-! ## Stock expressions -/

def matchPoint : Expr := .matcher

/-- Enters every node that can be reached and matches none. -/
def exploreAllRecursively : Expr := .recursive .unbounded (.all .edge)

/-- Matches every node that can be reached, the first one included. -/
def matchAllRecursively : Expr := .recursive .unbounded (.union [.matcher, .all .edge])

/-- Follows segments one field at a time and applies `last` at the end. With `matchPath` every node
on the way is matched too. -/
def alongSegments (matchPath : Bool) (last : Expr) : List Segment → Expr
  | [] => last
  | s :: rest =>
    let step : Expr := .fields [(s.text, alongSegments matchPath last rest)]
    if matchPath then .union [.matcher, step] else step

/-- Follows a path and applies `last` at its end; without one the node there is matched. -/
def ofPath (p : Path) (matchPath : Bool) (last : Option Expr) : Expr :=
  alongSegments matchPath (last.getD .matcher) p.segments

end Expr

end DagSelect
