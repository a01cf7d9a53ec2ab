import DagSelect.Walk.Config

/-! # The steps of a walk

A walk is built from three steps: spend from the budget, load the block behind a link, and hand a
node to the visitor. A step changes the state of the run and may end it; the state up to that point
is kept, so everything that was done before a failure can be told from it. A visitor has a state of
its own and sees the nodes it is handed, one after the other.

A walk through links may go on for ever, so it is given a bound on how many links deep it may go. A
walk that meets this bound is not over, which is told apart from every way of ending.
-/

namespace DagSelect

/-- What is done with the nodes that are visited. -/
abbrev Visitor (σ : Type) := σ → Visit → Except WalkError σ

def Visitor.onlooker : Visitor Unit := fun _ _ => .ok ()

def Visitor.ofMatches {σ : Type} (visitor : Visitor σ) : Visitor σ := fun state v =>
  match v.reason with
  | .matched => visitor state v
  | .explored => .ok state

structure Run (σ : Type) where
  /-- What is left of the budget. -/
  budget : Option Budget
  /-- The links met so far, the latest first. -/
  seen : List Link
  /-- What has been done so far. -/
  events : Array Event
  /-- The state of the visitor. -/
  visitor : σ

inductive Halt where
  | failed (error : WalkError)
  /-- The bound on how deep links are followed was met. -/
  | outOfHops
deriving DecidableEq, Repr

/-- A step of a run. -/
abbrev Action (σ α : Type) := EStateM Halt (Run σ) α

namespace Action

variable {σ : Type}

def fail {α : Type} (e : WalkError) : Action σ α := throw (.failed e)

def record (e : Event) : Action σ Unit := modify fun run => { run with events := run.events.push e }

def spend (resource : Resource) (path : Path) (link : Option Link) : Action σ Unit := do
  match (← get).budget with
  | none => pure ()
  | some budget =>
    match budget.spend? resource with
    | some rest => modify fun run => { run with budget := some rest }
    | none => fail (.budgetExceeded resource path link)

/-- The block behind a link, unless its branch is left out. A link that is left out for being met
again costs nothing. -/
def load (once : Bool) (loader : Loader) (l : Link) (p : Progress) : Action σ (Option Node) := do
  if once then
    if (← get).seen.contains l then return none
    modify fun run => { run with seen := l :: run.seen }
  spend .link p.path (some l)
  record (.load l p)
  match loader l p with
  | .ok n => return some n
  | .error .skip => return none
  | .error e => fail (.load l p.path e)

def visit (visitor : Visitor σ) (v : Visit) : Action σ Unit := do
  spend .node v.progress.path none
  record (.visit v)
  match visitor (← get).visitor v with
  | .ok state => modify fun run => { run with visitor := state }
  | .error e => fail e

end Action

end DagSelect
