import DagSelect.Proofs.Walk.Run
import DagSelect.Proofs.Walk.Pruning

/-!
# Walks that nothing disturbs

A walk without a budget, which loads a link as often as it meets it and whose visitor only looks on,
can be brought to an early end by nobody but its loader. Such a step does one and the same thing in
every run: it adds a list of events, and `Action.Emits` says which. Sequences and loops emit what
their steps emit, one after the other.

Without a loader there is nothing left to go wrong. Then the walk of a block is over in any case,
and `blockVisits` lists what it visits, by the same recursion and with no run to carry along.
-/

namespace DagSelect

/-! ## What a step emits -/

namespace Action

variable {α : Type}

/-- In every run without a budget the step goes to its end, gives a value, adds the events and
changes nothing else. -/
def Emits (x : Action Unit α) (a : α) (events : List Event) : Prop :=
  ∀ run, run.budget = none → x run = .ok a { run with events := run.events ++ events.toArray }

theorem emits_pure (a : α) : Emits (pure a) a [] := by
  intro run _
  rw [pure_run]
  simp

theorem Emits.bind {β : Type} {x : Action Unit α} {next : α → Action Unit β} {a : α} {b : β}
    {es fs : List Event} (hx : Emits x a es) (hnext : Emits (next a) b fs) :
    Emits (x >>= next) b (es ++ fs) := by
  intro run hbudget
  have hrest := hnext { run with events := run.events ++ es.toArray } hbudget
  rw [bind_run, hx run hbudget]
  simpa [Array.append_assoc] using hrest

theorem emits_forM {xs : List α} {f : α → Action Unit Unit} {events : α → List Event}
    (h : ∀ x ∈ xs, Emits (f x) () (events x)) : Emits (forM xs f) () (xs.flatMap events) := by
  induction xs with
  | nil => exact emits_pure ()
  | cons x xs ih =>
    rw [List.forM_cons, List.flatMap_cons]
    exact (h x List.mem_cons_self).bind (ih fun y hy => h y (List.mem_cons_of_mem x hy))

theorem emits_visit (v : Visit) : Emits (visit .onlooker v) () [.visit v] := by
  intro run hbudget
  rw [visit_run, Run.spend?_of_budget_eq_none hbudget]
  simp [handed, Visitor.onlooker, Run.record]

theorem emits_load {loader : Loader} {l : Link} {p : Progress} {block : Node}
    (h : loader l p = .ok block) : Emits (load false loader l p) (some block) [.load l p] := by
  intro run hbudget
  rw [load_false_run, Run.spend?_of_budget_eq_none hbudget]
  simp [asked, h, Run.record]

end Action

theorem Walker.walkPruned_of_emits {w : Walker} {prune : Pruning} {hops : Nat} {root : Node}
    {s : Selector} {events : List Event} (hbudget : w.config.budget = none)
    (h : Action.Emits
      (enter prune .onlooker (follow prune w.config .onlooker hops) root .start s) () events) :
    (w.walkPruned prune hops root s .onlooker ()).1 = ⟨.done, events, ()⟩ := by
  rw [walkPruned_fst, h ((new w.config).begin ()) hbudget]
  simp [begin]

/-! ## Without a loader -/

def blockVisits (prune : Pruning) : Node → Progress → Selector → List Visit :=
  Node.fold fun n children p s =>
    ⟨p, n, s.reason⟩ :: (keepPicked (prune s n) children).flatMap fun (segment, _, below) =>
      match s.explore? n segment with
      | none => []
      | some next => below (p.push segment) next

theorem blockVisits_eq (prune : Pruning) (n : Node) (p : Progress) (s : Selector) :
    blockVisits prune n p s =
      ⟨p, n, s.reason⟩ :: (keepPicked (prune s n) n.children).flatMap fun e =>
        match s.explore? n e.1 with
        | none => []
        | some next => blockVisits prune e.2 (p.push e.1) next := by
  conv => lhs; rw [blockVisits, Node.fold_eq, keepPicked_map]
  rw [List.flatMap_map]
  rfl

theorem blockVisits_link (prune : Pruning) (l : Link) (p : Progress) (s : Selector) :
    blockVisits prune (.link l) p s = [⟨p, .link l, s.reason⟩] := by
  rw [blockVisits_eq]
  cases prune s (.link l) <;> rfl

theorem emits_walkBlock {prune : Pruning} {f : Follow Unit}
    (hf : ∀ l p s, Action.Emits (f l p s) () [.visit ⟨p, .link l, s.reason⟩]) (n : Node)
    (p : Progress) (s : Selector) :
    Action.Emits (walkBlock prune .onlooker f n p s) () ((blockVisits prune n p s).map .visit) := by
  suffices step : n.Everywhere fun n => ∀ p s,
      Action.Emits (walkBlock prune .onlooker f n p s) ()
        ((blockVisits prune n p s).map .visit) from
    step.here p s
  refine Node.everywhere_of_step (fun n below p s => ?_) n
  rw [walkBlock_eq, blockVisits_eq, List.map_cons, List.map_flatMap]
  refine (Action.emits_visit _).bind (Action.emits_forM fun e he => ?_)
  have hchild := (below e (mem_of_mem_keepPicked he)).here
  cases s.explore? n e.1 with
  | none => exact Action.emits_pure ()
  | some next =>
    simp only [enter]
    cases hlink : e.2.link? with
    | none => exact hchild _ _
    | some l =>
      obtain ⟨segment, c⟩ := e
      obtain rfl := Node.link?_eq_some_iff.1 hlink
      rw [blockVisits_link]
      exact hf l _ _

theorem walkBlock_link {σ : Type} (prune : Pruning) (visitor : Visitor σ) (f : Follow σ) (l : Link)
    (p : Progress) (s : Selector) :
    walkBlock prune visitor f (.link l) p s = Action.visit visitor ⟨p, .link l, s.reason⟩ := by
  rw [walkBlock_eq]
  have hnone : keepPicked (prune s (.link l)) (Node.link l).children = [] := by
    cases prune s (.link l) <;> rfl
  rw [hnone]
  exact bind_pure _

theorem follow_of_loader_eq_none {σ : Type} {prune : Pruning} {config : Config}
    {visitor : Visitor σ}
    (h : config.loader = none) (hops : Nat) (l : Link) (p : Progress) (s : Selector) :
    follow prune config visitor hops l p s = Action.visit visitor ⟨p, .link l, s.reason⟩ := by
  unfold follow
  rw [h]
  exact walkBlock_link prune visitor _ l p s

theorem follow_zero_of_loader {σ : Type} {prune : Pruning} {config : Config} {visitor : Visitor σ}
    {loader : Loader} (h : config.loader = some loader) (l : Link) (p : Progress) (s : Selector) :
    follow prune config visitor 0 l p s = throw .outOfHops := by
  unfold follow
  rw [h]

theorem follow_succ_of_loader {σ : Type} {prune : Pruning} {config : Config} {visitor : Visitor σ}
    {loader : Loader} (h : config.loader = some loader) (hops : Nat) (l : Link) (p : Progress)
    (s : Selector) :
    follow prune config visitor (hops + 1) l p s =
      Action.load config.once loader l p >>= fun found =>
        match found with
        | none => pure ()
        | some block =>
          walkBlock prune visitor (follow prune config visitor hops) block (p.cross l) s := by
  obtain ⟨_, budget, once⟩ := config
  cases h
  rfl

theorem emits_follow {prune : Pruning} {config : Config} (h : config.loader = none) (hops : Nat)
    (l : Link) (p : Progress) (s : Selector) :
    Action.Emits (follow prune config .onlooker hops l p s) () [.visit ⟨p, .link l, s.reason⟩] := by
  rw [follow_of_loader_eq_none h]
  exact Action.emits_visit _

theorem emits_enter {prune : Pruning} {config : Config} (h : config.loader = none) (hops : Nat)
    (n : Node) (p : Progress) (s : Selector) :
    Action.Emits (enter prune .onlooker (follow prune config .onlooker hops) n p s) ()
      ((blockVisits prune n p s).map .visit) := by
  rw [enter]
  split
  · next l hl =>
    obtain rfl := Node.link?_eq_some_iff.1 hl
    rw [blockVisits_link]
    exact emits_follow h hops l p s
  · exact emits_walkBlock (emits_follow h hops) n p s

/-- Without a loader and a budget a walk is always done, and has visited what there is to visit. -/
theorem Walker.walkPruned_of_loader_eq_none {w : Walker} (hloader : w.config.loader = none)
    (hbudget : w.config.budget = none) (prune : Pruning) (hops : Nat) (root : Node) (s : Selector) :
    (w.walkPruned prune hops root s .onlooker ()).1 =
      ⟨.done, (blockVisits prune root .start s).map .visit, ()⟩ :=
  walkPruned_of_emits hbudget (emits_enter hloader hops root .start s)

theorem Report.visits_map_visit {σ : Type} (outcome : Outcome) (visits : List Visit) (state : σ) :
    (⟨outcome, visits.map .visit, state⟩ : Report σ).visits = visits := by
  rw [Report.visits, List.filterMap_map]
  exact List.filterMap_some

end DagSelect
