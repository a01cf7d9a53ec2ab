import DagSelect.Text.Integer

/-! # Path segments

One step from a container to a child is named by a key or by an index. A key whose text is an
integer also addresses the list element with that index, and an index also addresses the map entry
whose key is its decimal text; `index?` and `key` are these two readings.
-/

namespace DagSelect

/-- One step of a path: a map key or a list index. -/
inductive Segment where
  | key (text : String)
  | index (position : Int)
deriving DecidableEq, Repr, Inhabited

namespace Segment

def text : Segment → String
  | .key s => s
  | .index i => String.ofList (Text.ofInt i)

/-- The segment read as an index; the text of a key counts when it is an integer of 64 bits. -/
def index? : Segment → Option Int
  | .key s => (Text.toInt64 s.toList).toOption.map Int64.toInt
  | .index i => some i

@[simp] theorem text_key (s : String) : (Segment.key s).text = s := rfl

@[simp] theorem index?_index (i : Int) : (Segment.index i).index? = some i := rfl

/-- Keys come before indices; keys are in the order of their code points, indices in the order of
numbers. -/
def le : Segment → Segment → Bool
  | .key a, .key b => decide (a ≤ b)
  | .key _, .index _ => true
  | .index _, .key _ => false
  | .index a, .index b => decide (a ≤ b)

def sort (segments : List Segment) : List Segment := segments.mergeSort le

end Segment

end DagSelect
