import DagSelect.Node
import DagSelect.Path
import DagSelect.Selector.Explore

/-! # Where a walk is

The place of a node in a walk: the path from the root, the link crossed last and how many were
crossed on the way. A place is handed down from a container to its children and from a link to its
block, so nothing has to be restored on the way back; `Roamer` is a walker that does restore it.
-/

namespace DagSelect

/-- A link and the path it was found at. -/
structure Crossing where
  path : Path
  link : Link
deriving DecidableEq, Repr

structure Progress where
  path : Path
  /-- The link crossed last on the way from the root. -/
  lastCrossing : Option Crossing
  /-- The number of links crossed on the way from the root. -/
  crossings : Nat
deriving DecidableEq, Repr

namespace Progress

def start : Progress := ⟨.root, none, 0⟩

def push (p : Progress) (s : Segment) : Progress := { p with path := p.path.push s }

def cross (p : Progress) (l : Link) : Progress := ⟨p.path, some ⟨p.path, l⟩, p.crossings + 1⟩

@[simp] theorem path_push (p : Progress) (s : Segment) : (p.push s).path = p.path.push s := rfl

@[simp] theorem path_cross (p : Progress) (l : Link) : (p.cross l).path = p.path := rfl

end Progress

inductive Reason where
  /-- It is a result. -/
  | matched
  /-- It lies on the way to possible results. -/
  | explored
deriving DecidableEq, Repr

def Reason.name : Reason → String
  | .matched => "matched"
  | .explored => "explored"

def Selector.reason (s : Selector) : Reason := if s.isMatch then .matched else .explored

structure Visit where
  progress : Progress
  node : Node
  reason : Reason
deriving DecidableEq, Repr

/-- What a walk does that can be seen from outside. -/
inductive Event where
  | load (link : Link) (progress : Progress)
  | visit (v : Visit)
deriving DecidableEq, Repr

def Event.visit? : Event → Option Visit
  | .visit v => some v
  | .load _ _ => none

def Event.load? : Event → Option (Link × Progress)
  | .load l p => some (l, p)
  | .visit _ => none

end DagSelect
