import DagSelect.Segment

/-! # Paths

A path is the list of segments that lead from a root to a node. Its text joins the texts of the
segments with slashes; reading a text back drops empty pieces and takes every piece for a key.
-/

namespace DagSelect

/-- A route from a root to a node. -/
structure Path where
  segments : List Segment
deriving DecidableEq, Repr, Inhabited

namespace Path

def root : Path := ⟨[]⟩

def push (p : Path) (s : Segment) : Path := ⟨p.segments ++ [s]⟩

def pop (p : Path) : Path := ⟨p.segments.dropLast⟩

/-- The last segment; the root has none. -/
def last? (p : Path) : Option Segment := p.segments.getLast?

def join (p q : Path) : Path := ⟨p.segments ++ q.segments⟩

def length (p : Path) : Nat := p.segments.length

@[simp] theorem segments_root : root.segments = [] := rfl

@[simp] theorem segments_push (p : Path) (s : Segment) :
    (p.push s).segments = p.segments ++ [s] := rfl

@[simp] theorem segments_join (p q : Path) : (p.join q).segments = p.segments ++ q.segments := rfl

@[simp] theorem join_root (p : Path) : p.join root = p := by simp [join, root]

@[simp] theorem root_join (p : Path) : root.join p = p := by simp [join, root]

theorem push_join (p : Path) (s : Segment) (q : Path) :
    (p.push s).join q = p.join ⟨s :: q.segments⟩ := by
  simp [join, push]

/-- The pieces of a text between its slashes; there is always one piece more than there are
slashes. -/
def pieces : List Char → List (List Char)
  | [] => [[]]
  | c :: rest =>
    if c = '/' then [] :: pieces rest
    else
      match pieces rest with
      | [] => [[c]]
      | piece :: more => (c :: piece) :: more

/-- The path written by a text. Empty pieces are dropped, so slashes at the ends or in a row make no
difference. -/
def ofText (text : String) : Path :=
  ⟨((pieces text.toList).filter (!·.isEmpty)).map fun piece => .key (String.ofList piece)⟩

def text (p : Path) : String := "/".intercalate (p.segments.map Segment.text)

@[simp] theorem text_root : root.text = "" := rfl

end Path

end DagSelect
