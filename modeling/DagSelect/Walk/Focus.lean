import DagSelect.Walk.Walker

/-! # Following a path

`locate` follows a path from a root and gives the node it names, together with its place. Wherever a
link comes up, the block behind it is taken instead, and again if that block is itself a link. A
chain of such links may have no end, so it too is followed only to a bound.
-/

namespace DagSelect

variable {σ : Type}

/-- The node behind a chain of links, at most `hops` of them; a node that is no link stands for
itself. -/
def resolve (config : Config) : Nat → Progress → Node → Action σ (Progress × Node)
  | hops, p, n =>
    match config.loader, n.link? with
    | some loader, some l =>
      match hops with
      | 0 => throw .outOfHops
      | hops + 1 => do
        match ← Action.load config.once loader l p with
        | none => Action.fail (.pathNotFound p.path)
        | some block => resolve config hops (p.cross l) block
    | _, _ => pure (p, n)

def locate (config : Config) (hops : Nat) :
    Progress → Node → List Segment → Action σ (Progress × Node)
  | p, n, [] => resolve config hops p n
  | p, n, s :: rest => do
    let (p, n) ← resolve config hops p n
    match n.get? s with
    | none => Action.fail (.pathNotFound (p.push s).path)
    | some child => locate config hops (p.push s) child rest

inductive Found (α : Type) where
  | found (value : α)
  | failed (error : WalkError)
  | unfinished
deriving Repr

namespace Walker

/-- Follows a path from the root and hands the node it names to `visit`, whose answer is the result
as it is. The links loaded on the way are told in order. -/
def focus {α : Type} (w : Walker) (hops : Nat) (root : Node) (path : Path)
    (visit : Progress → Node → Except WalkError α) : Found α × List (Link × Progress) × Walker :=
  let w := w.reset
  let report (found : Found α) (run : Run Unit) : Found α × List (Link × Progress) × Walker :=
    (found, run.events.toList.filterMap Event.load?, w.leave run)
  match (locate w.config hops .start root path.segments).run (w.begin ()) with
  | .ok (p, n) run =>
    match visit p n with
    | .ok a => report (.found a) run
    | .error e => report (.failed e) run
  | .error (.failed e) run => report (.failed e) run
  | .error .outOfHops run => report .unfinished run

def get (w : Walker) (hops : Nat) (root : Node) (path : Path) :
    Found Node × List (Link × Progress) × Walker :=
  w.focus hops root path fun _ n => .ok n

end Walker

end DagSelect
