import DagSelect.Node.Children

/-! # Recursion over the children

`fold` computes a value for a node from the node itself and from its children, each with its segment
and the value computed for it. One equation, `fold_eq`, covers maps, lists and scalars alike, so
whatever is defined by `fold` can be reasoned about through `children` alone.
-/

namespace DagSelect.Node

variable {α : Type}

mutual
/-- The value that `step` gives to a node, its children having been given theirs. -/
def fold (step : Node → List (Segment × Node × α) → α) : Node → α
  | .map entries => step (.map entries) (foldEntries step entries)
  | .list items => step (.list items) (foldItems step 0 items)
  | .null => step .null []
  | .bool b => step (.bool b) []
  | .int i => step (.int i) []
  | .float x => step (.float x) []
  | .string s => step (.string s) []
  | .bytes b => step (.bytes b) []
  | .link l => step (.link l) []

def foldEntries (step : Node → List (Segment × Node × α) → α) :
    List (String × Node) → List (Segment × Node × α)
  | [] => []
  | (k, v) :: rest => (.key k, v, fold step v) :: foldEntries step rest

def foldItems (step : Node → List (Segment × Node × α) → α) :
    Nat → List Node → List (Segment × Node × α)
  | _, [] => []
  | i, v :: rest => (.index i, v, fold step v) :: foldItems step (i + 1) rest
end

theorem foldEntries_eq (step : Node → List (Segment × Node × α) → α)
    (entries : List (String × Node)) :
    foldEntries step entries = entries.map fun e => (.key e.1, e.2, fold step e.2) := by
  induction entries with
  | nil => rfl
  | cons e rest ih => simp [foldEntries, ih]

theorem foldItems_eq (step : Node → List (Segment × Node × α) → α) (items : List Node)
    (start : Nat) :
    foldItems step start items = (items.zipIdx start).map fun e =>
      (.index e.2, e.1, fold step e.1) := by
  induction items generalizing start with
  | nil => rfl
  | cons v rest ih => simp [foldItems, ih]

/-- The value of a node from those of its children. -/
theorem fold_eq (step : Node → List (Segment × Node × α) → α) (n : Node) :
    fold step n = step n (n.children.map fun e => (e.1, e.2, fold step e.2)) := by
  cases n <;> simp [fold, children, foldEntries_eq, foldItems_eq, Function.comp_def]

end DagSelect.Node
