import DagSelect.Walk.Action
import DagSelect.Node.Fold

/-! # Walking

A walk visits the nodes that a selector enters, depth first and children in the order of their
container. It comes in two layers. `walkBlock` walks one block, by recursion over its nodes, and
hands every link that it comes to, with the selector that holds there, to whoever follows links.
`follow` loads what a link leads to and walks it, by recursion over how many more links deep the
walk may go.

A container of whose children only a few are worth trying need not be gone through as a whole. Which
children are tried is a parameter of both layers; the walks of a walker take it from
`Selector.picks?`.
-/

namespace DagSelect

/-- The positions of the children that are tried in a container where a selector holds; nothing
stands for all of them. -/
abbrev Pruning := Selector → Node → Option (List Nat)

/-- The elements at the picked positions in their order, or all of them. -/
def keepPicked {α : Type} (picks : Option (List Nat)) (xs : List α) : List α :=
  match picks with
  | none => xs
  | some positions => (xs.zipIdx.filter fun e => positions.contains e.2).map (·.1)

theorem keepPicked_map {α β : Type} (picks : Option (List Nat)) (f : α → β) (xs : List α) :
    keepPicked picks (xs.map f) = (keepPicked picks xs).map f := by
  cases picks with
  | none => rfl
  | some positions => simp [keepPicked, List.zipIdx_map, List.filter_map, Function.comp_def]

variable {σ : Type}

/-- What is done at a link, given its place and the selector that holds there. -/
abbrev Follow (σ : Type) := Link → Progress → Selector → Action σ Unit

/-- Visits a node that is no link to be followed, and the nodes below it. -/
def walkBlock (prune : Pruning) (visitor : Visitor σ) (follow : Follow σ) :
    Node → Progress → Selector → Action σ Unit :=
  Node.fold fun n children p s => do
    Action.visit visitor ⟨p, n, s.reason⟩
    (keepPicked (prune s n) children).forM fun (segment, child, walkChild) =>
      match s.explore? n segment with
      | none => pure ()
      | some next =>
        match child.link? with
        | some l => follow l (p.push segment) next
        | none => walkChild (p.push segment) next

def enter (prune : Pruning) (visitor : Visitor σ) (follow : Follow σ) (n : Node) (p : Progress)
    (s : Selector) :
    Action σ Unit :=
  match n.link? with
  | some l => follow l p s
  | none => walkBlock prune visitor follow n p s

/-- A node is visited, then its picked children are entered with the selectors that exploring gives
for them. -/
theorem walkBlock_eq (prune : Pruning) (visitor : Visitor σ) (follow : Follow σ) (n : Node)
    (p : Progress) (s : Selector) :
    walkBlock prune visitor follow n p s = (do
      Action.visit visitor ⟨p, n, s.reason⟩
      (keepPicked (prune s n) n.children).forM fun e =>
        match s.explore? n e.1 with
        | none => pure ()
        | some next => enter prune visitor follow e.2 (p.push e.1) next) := by
  conv => lhs; rw [walkBlock, Node.fold_eq, keepPicked_map]
  simp only [List.forM_eq_forM, List.forM_map]
  rfl

/-- Without a loader a link is visited like any other node. With one, the block it leads to is
walked in its place; a link found as the block itself is visited as it is. -/
def follow (prune : Pruning) (config : Config) (visitor : Visitor σ) : Nat → Follow σ
  | hops, l, p, s =>
    match config.loader with
    | none => walkBlock prune visitor (fun _ _ _ => pure ()) (.link l) p s
    | some loader =>
      match hops with
      | 0 => throw .outOfHops
      | hops + 1 => do
        match ← Action.load config.once loader l p with
        | none => pure ()
        | some block =>
          walkBlock prune visitor (follow prune config visitor hops) block (p.cross l) s

inductive Outcome where
  | done
  | failed (error : WalkError)
  /-- The bound on how deep links are followed was met, so the walk is not over. -/
  | unfinished
deriving DecidableEq, Repr

structure Report (σ : Type) where
  outcome : Outcome
  events : List Event
  visitor : σ

def Report.visits (r : Report σ) : List Visit := r.events.filterMap Event.visit?

def Report.loads (r : Report σ) : List (Link × Progress) := r.events.filterMap Event.load?

/-- Runs walks with the same settings one after the other. It holds what the last run left of the
budget and which links that run met; every run starts afresh. -/
structure Walker where
  config : Config
  budget : Option Budget
  seen : List Link

namespace Walker

def new (config : Config) : Walker := ⟨config, config.budget, []⟩

def reset (w : Walker) : Walker := new w.config

def begin (w : Walker) (state : σ) : Run σ := ⟨w.budget, w.seen, #[], state⟩

def leave (w : Walker) (run : Run σ) : Walker := { w with budget := run.budget, seen := run.seen }

/-- Visits every node that the selector enters, as far as pruning lets it come to them. A visitor
that has seen enough ends the walk, which then counts as done. -/
def walkPruned (w : Walker) (prune : Pruning) (hops : Nat) (root : Node) (s : Selector)
    (visitor : Visitor σ) (state : σ) : Report σ × Walker :=
  let w := w.reset
  let report (outcome : Outcome) (run : Run σ) : Report σ × Walker :=
    (⟨outcome, run.events.toList, run.visitor⟩, w.leave run)
  match (enter prune visitor (follow prune w.config visitor hops) root .start s).run
    (w.begin state) with
  | .ok _ run => report .done run
  | .error (.failed .stopped) run => report .done run
  | .error (.failed e) run => report (.failed e) run
  | .error .outOfHops run => report .unfinished run

/-- Visits every node that the selector enters, trying only the children that it lists where it
lists few. -/
def walk (w : Walker) (hops : Nat) (root : Node) (s : Selector) (visitor : Visitor σ) (state : σ) :
    Report σ × Walker :=
  w.walkPruned Selector.picks? hops root s visitor state

def walkMatches (w : Walker) (hops : Nat) (root : Node) (s : Selector) (visitor : Visitor σ)
    (state : σ) : Report σ × Walker :=
  w.walk hops root s visitor.ofMatches state

end Walker

end DagSelect
