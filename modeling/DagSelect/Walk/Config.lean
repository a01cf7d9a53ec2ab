import DagSelect.Walk.Error

/-! # Settings of a walk

A loader turns a link into the block it leads to. Without one, links are nodes like any other. With
one, every link that is reached is replaced by its block, at most `budget` of them, and each
distinct link only once if so asked.
-/

namespace DagSelect

/-- What a link leads to, given the place where it was found. -/
abbrev Loader := Link → Progress → Except LoadError Node

/-- Blocks by their links; each link leads to one block. -/
structure BlockStore where
  blocks : List (Link × Node)
deriving Repr

namespace BlockStore

def empty : BlockStore := ⟨[]⟩

def get? (s : BlockStore) (l : Link) : Option Node := s.blocks.lookup l

/-- Adds a block, in place of the one its link led to before. -/
def insert (s : BlockStore) (l : Link) (n : Node) : BlockStore :=
  ⟨(l, n) :: s.blocks.filter (·.1 != l)⟩

/-- The store of a list of blocks, of which a later one replaces an earlier one. -/
def ofList (blocks : List (Link × Node)) : BlockStore :=
  blocks.foldl (fun s b => s.insert b.1 b.2) empty

def size (s : BlockStore) : Nat := s.blocks.length

@[simp] theorem get?_insert_self (s : BlockStore) (l : Link) (n : Node) :
    (s.insert l n).get? l = some n := by
  simp [insert, get?]

def loader (s : BlockStore) : Loader := fun l _ =>
  match s.get? l with
  | some n => .ok n
  | none => .error (.notFound l)

end BlockStore

structure Config where
  loader : Option Loader
  budget : Option Budget
  /-- Whether each distinct link is loaded at most once, and left out where it occurs again. -/
  once : Bool

def Config.plain : Config := ⟨none, none, false⟩

end DagSelect
