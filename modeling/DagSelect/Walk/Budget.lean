/-! # Budgets

A budget bounds the work of one walk: how many nodes it may visit and how many links it may load.
Spending takes one unit, and fails when none is left; nothing ever falls below zero.
-/

namespace DagSelect

inductive Resource where
  | node
  | link
deriving DecidableEq, Repr

def Resource.name : Resource → String
  | .node => "node"
  | .link => "link"

/-- How many nodes may still be visited and how many links loaded. -/
structure Budget where
  nodes : Nat
  links : Nat
deriving DecidableEq, Repr

namespace Budget

/-- The largest budget that can be written down. -/
def limitless : Nat := 0xFFFFFFFFFFFFFFFF

/-- A budget in which what is not given is limitless. -/
def of (nodes links : Option Nat) : Budget := ⟨nodes.getD limitless, links.getD limitless⟩

def spend? (b : Budget) : Resource → Option Budget
  | .node => if b.nodes = 0 then none else some { b with nodes := b.nodes - 1 }
  | .link => if b.links = 0 then none else some { b with links := b.links - 1 }

end Budget

end DagSelect
