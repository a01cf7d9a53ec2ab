import DagSelect.Selector
import DagSelect.Node.Children

/-! # Exploring

`explore?` gives the selector for a child, `isMatch` tells whether the node at hand is a result, and
`interests?` lists the segments worth trying when they can be listed.

A recursion goes round when the selector for a child is an edge, or a union with an edge among its
members. Any other selector hides the edges below it, in particular those of a recursion inside. On
the last lap the edges are dropped, and what is left of the sequence goes on without the recursion
around it.
-/

namespace DagSelect.Selector

/-- A union of the given members: none is nothing, one stands for itself. -/
def collapse? : List Selector → Option Selector
  | [] => none
  | [s] => some s
  | members => some (.union members)

mutual
def hasEdge : Selector → Bool
  | .edge => true
  | .union members => anyEdge members
  | _ => false

def anyEdge : List Selector → Bool
  | [] => false
  | m :: rest => hasEdge m || anyEdge rest
end

@[simp] theorem anyEdge_eq_any (members : List Selector) :
    anyEdge members = members.any hasEdge := by
  induction members with
  | nil => rfl
  | cons m rest ih => simp [anyEdge, ih]

mutual
/-- Puts a selector in the place of every edge that `hasEdge` sees, or drops these edges. -/
def replaceEdges? (replacement : Option Selector) : Selector → Option Selector
  | .edge => replacement
  | .union members => collapse? (replaceEdgesIn replacement members)
  | s => some s

def replaceEdgesIn (replacement : Option Selector) : List Selector → List Selector
  | [] => []
  | m :: rest => (replaceEdges? replacement m).toList ++ replaceEdgesIn replacement rest
end

theorem replaceEdgesIn_eq_filterMap (replacement : Option Selector) (members : List Selector) :
    replaceEdgesIn replacement members = members.filterMap (replaceEdges? replacement) := by
  induction members with
  | nil => rfl
  | cons m rest ih => cases h : replaceEdges? replacement m <;> simp [replaceEdgesIn, ih, h]

/-- The state of a recursion whose point in the sequence has moved on to `next`. -/
def advance? (limit : Limit) (sequence next : Selector) : Option Selector :=
  if next.hasEdge then
    if limit.isLast then next.replaceEdges? none
    else (next.replaceEdges? (some sequence)).map fun current =>
      .recursive limit.decrement sequence current
  else some (.recursive limit sequence next)

mutual
/-- The selector for the child of `parent` at a segment, unless that child is of no interest. -/
def explore? (parent : Node) (s : Segment) : Selector → Option Selector
  | .matcher => none
  | .edge => none
  | .all next => some next
  | .fields selections => selections.lookup s.text
  | .index position next =>
    if parent.kind = .list ∧ s.index? = some position.toInt then some next else none
  | .range start stop next =>
    match parent.kind, s.index? with
    | .list, some i => if start.toInt ≤ i ∧ i < stop.toInt then some next else none
    | _, _ => none
  | .union members => collapse? (exploreIn parent s members)
  | .recursive limit sequence current => (explore? parent s current).bind (advance? limit sequence)

def exploreIn (parent : Node) (s : Segment) : List Selector → List Selector
  | [] => []
  | m :: rest => (explore? parent s m).toList ++ exploreIn parent s rest
end

theorem exploreIn_eq_filterMap (parent : Node) (s : Segment) (members : List Selector) :
    exploreIn parent s members = members.filterMap (explore? parent s) := by
  induction members with
  | nil => rfl
  | cons m rest ih => cases h : explore? parent s m <;> simp [exploreIn, ih, h]

mutual
def isMatch : Selector → Bool
  | .matcher => true
  | .union members => anyMatch members
  | .recursive _ _ current => isMatch current
  | _ => false

def anyMatch : List Selector → Bool
  | [] => false
  | m :: rest => isMatch m || anyMatch rest
end

@[simp] theorem anyMatch_eq_any (members : List Selector) :
    anyMatch members = members.any isMatch := by
  induction members with
  | nil => rfl
  | cons m rest ih => simp [anyMatch, ih]

/-- The indices from `start` up to but not including `stop`, cut off at the length of the list. -/
def indicesBetween (start stop : Int) (length : Nat) : List Segment :=
  (List.range (min stop length - start).toNat).map fun (i : Nat) => .index (start + i)

mutual
/-- The segments of the children worth trying in a container with `length` children; nothing when
any child may matter. A listed segment may occur twice. -/
def interests? (length : Nat) : Selector → Option (List Segment)
  | .matcher => some []
  | .edge => some []
  | .all _ => none
  | .fields selections => some (selections.map fun e => .key e.1)
  | .index position _ => some [.index position.toInt]
  | .range start stop _ => some (indicesBetween start.toInt stop.toInt length)
  | .union members => interestsIn? length members
  | .recursive _ _ current => interests? length current

def interestsIn? (length : Nat) : List Selector → Option (List Segment)
  | [] => some []
  | m :: rest => do
    let first ← interests? length m
    let others ← interestsIn? length rest
    return first ++ others
end

/-- The positions of the children worth trying, when there are fewer segments to try than
children. -/
def picks? (s : Selector) (n : Node) : Option (List Nat) :=
  match s.interests? n.length with
  | some segments =>
    if segments.length < n.length then some (segments.filterMap n.position?) else none
  | none => none

end DagSelect.Selector
