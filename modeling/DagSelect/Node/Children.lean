import DagSelect.Node
import DagSelect.Segment

/-! # Children of a node

The children of a map or list in their order, each under the segment that names it: keys in a map,
indices in a list. A lookup by segment also gives the position of the child in that order. In a map
it finds the first entry whose key is the text of the segment, in a list the element at its index.
-/

namespace DagSelect.Node

/-- The number of children; scalars and links have none. -/
def length : Node → Nat
  | .map entries => entries.length
  | .list items => items.length
  | _ => 0

/-- Children under their canonical segments, in order. -/
def children : Node → List (Segment × Node)
  | .map entries => entries.map fun e => (.key e.1, e.2)
  | .list items => items.zipIdx.map fun e => (.index e.2, e.1)
  | _ => []

@[simp] theorem length_children (n : Node) : n.children.length = n.length := by
  cases n <;> simp [children, length]

/-- Children are smaller than their parent, in the sense that matters to induction: they are parts
of it. -/
theorem mem_children_map {entries : List (String × Node)} {s : Segment} {c : Node} :
    (s, c) ∈ (Node.map entries).children ↔ ∃ k, s = .key k ∧ (k, c) ∈ entries := by
  simp only [children, List.mem_map, Prod.mk.injEq, Prod.exists]
  constructor
  · rintro ⟨k, v, h, rfl, rfl⟩
    exact ⟨k, rfl, h⟩
  · rintro ⟨k, rfl, h⟩
    exact ⟨k, c, h, rfl, rfl⟩

def lookup? (n : Node) (key : String) : Option Node :=
  match n with
  | .map entries => entries.lookup key
  | _ => none

/-- The position of the child that a segment addresses. -/
def position? (n : Node) (s : Segment) : Option Nat :=
  match n with
  | .map entries => entries.findIdx? fun e => e.1 == s.text
  | .list items =>
    match s.index? with
    | some i => if 0 ≤ i ∧ i.toNat < items.length then some i.toNat else none
    | none => none
  | _ => none

def child? (n : Node) (position : Nat) : Option (Segment × Node) := n.children[position]?

/-- The position and value of the child that a segment addresses. -/
def find? (n : Node) (s : Segment) : Option (Nat × Node) := do
  let position ← n.position? s
  let (_, value) ← n.child? position
  return (position, value)

def get? (n : Node) (s : Segment) : Option Node := (n.find? s).map (·.2)

theorem position?_lt {n : Node} {s : Segment} {i : Nat} (h : n.position? s = some i) :
    i < n.length := by
  cases n with
  | map entries =>
    simp only [position?] at h
    exact (List.findIdx?_eq_some_iff_getElem.1 h).1
  | list items =>
    simp only [position?] at h
    split at h
    · split at h <;> simp_all [length]
    · simp at h
  | _ => simp [position?] at h

/-- A lookup finds a child at every position that it gives. -/
theorem map_fst_find? (n : Node) (s : Segment) : (n.find? s).map Prod.fst = n.position? s := by
  rw [find?]
  cases h : n.position? s with
  | none => rfl
  | some i =>
    have hi : i < n.children.length := by simpa using position?_lt h
    simp [child?, List.getElem?_eq_getElem hi]

end DagSelect.Node
