import DagSelect.Proofs.Walk.Hops
import DagSelect.Proofs.Walk.Truncation

/-!
# Budgets

A budget is spent on nothing but events: a visit costs one unit of the one resource, a load one unit
of the other. So what is left and what was used make up the budget at every point of a run
(`Run.Balanced`), and a run that is refused an event has used up the resource it would have cost.

A walk that has a budget for links needs no more hops than that (`maintains_follow_of_links_lt`). It
ends in any case, however the links go round. A larger budget only lets it go on where it was
refused something (`walk_of_budget_le`).
-/

namespace DagSelect

variable {σ : Type}

def Report.uses (r : Report σ) : Resource → Nat
  | .node => r.visits.length
  | .link => r.loads.length

theorem Report.count_resource (r : Report σ) (resource : Resource) :
    (r.events.map Event.resource).count resource = r.uses resource := by
  obtain ⟨outcome, events, state⟩ := r
  induction events with
  | nil => cases resource <;> rfl
  | cons e events ih =>
    rw [List.map_cons, List.count_cons, ih]
    cases e <;> cases resource <;> rfl

/-- The visitor does not pass off as its own a failure that only a walk can have. -/
def Visitor.FailsAsItself (visitor : Visitor σ) : Prop :=
  ∀ state v e, visitor state v = .error e → e = .stopped ∨ ∃ message, e = .visitor message

theorem Visitor.FailsAsItself.ne_budgetExceeded {visitor : Visitor σ} (h : visitor.FailsAsItself)
    {state : σ} {v : Visit} {e : WalkError} (he : visitor state v = .error e) (resource : Resource)
    (p : Path) (l : Option Link) : e ≠ .budgetExceeded resource p l := by
  rcases h state v e he with rfl | ⟨message, rfl⟩
  · rintro ⟨⟩
  · rintro ⟨⟩

theorem Visitor.failsAsItself_onlooker : Visitor.onlooker.FailsAsItself := by
  intro state v e h
  cases h

namespace Run

/-- What is left of each resource and what was used of it make up the budget. -/
def Balanced (b : Budget) (run : Run σ) : Prop :=
  ∀ resource, ∃ k ∈ run.left? resource,
    k + (run.log.map Event.resource).count resource = b.left resource

namespace Balanced

variable {b : Budget} {run run' : Run σ}

theorem meet (h : run.Balanced b) (once : Bool) (l : Link) : (run.meet once l).Balanced b := by
  cases once <;> exact h

/-- Nothing is left of a resource once as much of it has been used as there was, and not before. -/
theorem count_of_left? (h : run.Balanced b) {resource : Resource}
    (hleft : run.left? resource = some 0) :
    (run.log.map Event.resource).count resource = b.left resource := by
  obtain ⟨k, hk, hsum⟩ := h resource
  obtain rfl : 0 = k := Option.some.inj (hleft.symm.trans hk)
  rw [← hsum, Nat.zero_add]

theorem exists_budget (h : run.Balanced b) :
    ∃ rest, run.budget = some rest ∧
      ∀ resource,
        rest.left resource + (run.log.map Event.resource).count resource = b.left resource := by
  cases hbudget : run.budget with
  | none =>
    obtain ⟨k, hk, -⟩ := h .node
    rw [left?, hbudget] at hk
    cases hk
  | some rest =>
    refine ⟨rest, rfl, fun resource => ?_⟩
    obtain ⟨k, hk, hsum⟩ := h resource
    rw [left?, hbudget] at hk
    cases hk
    exact hsum

/-- An event that is paid for moves one unit from what is left to what was used. -/
theorem record (h : run.Balanced b) {e : Event} (hspend : run.spend? e.resource = some run') :
    (run'.record e).Balanced b := by
  intro resource
  obtain ⟨k, hk, hsum⟩ := h resource
  have hleft : run'.left? resource = some (if resource = e.resource then k - 1 else k) := by
    rw [left?_of_spend? hspend, hk]
    rfl
  have hlog : run'.log = run.log := log_of_spend? hspend
  refine ⟨_, hleft, ?_⟩
  rw [log_record, hlog, List.map_append, List.map_singleton, List.count_append,
    List.count_singleton]
  by_cases hresource : resource = e.resource
  · subst hresource
    have hpos : 0 < k := pos_of_spend? hspend hk
    rw [if_pos rfl, if_pos (beq_self_eq_true _)]
    omega
  · rw [if_neg hresource, if_neg (by simpa using Ne.symm hresource)]
    exact hsum

end Balanced

end Run

open DagSelect.Action

/-! ## What a run has used when it is over -/

/-- A run that was ended has used no more than its budget, and if it was refused something it has
used up the resource. -/
structure Settled (b : Budget) (halt : Halt) (run : Run σ) : Prop where
  balanced : run.Balanced b
  refused : ∀ resource p l, halt = .failed (.budgetExceeded resource p l) →
    run.left? resource = some 0

section

variable {once : Bool} {b : Budget} {visitor : Visitor σ}

theorem maintains_balanced_visit (hvisitor : visitor.FailsAsItself) (v : Visit) :
    Maintains (Run.Balanced b) (Settled b) (visit visitor v) := by
  refine triple_visit (fun run h hspend => ⟨h, ?_⟩) fun run run' h hspend => ?_
  · rintro _ _ _ ⟨⟩
    exact Run.spend?_eq_none_iff.1 hspend
  · have hpaid : (run'.record (.visit v)).Balanced b := h.record hspend
    refine ⟨fun _ _ => hpaid, fun e he => ⟨hpaid, fun resource p l hrefused => ?_⟩⟩
    exact absurd (Halt.failed.inj hrefused) (hvisitor.ne_budgetExceeded he resource p l)

theorem maintains_balanced_load (loader : Loader) (l : Link) (p : Progress) :
    Maintains (σ := σ) (Run.Balanced b) (Settled b) (load once loader l p) := by
  refine maintains_load (fun run h hspend => ⟨h.meet once l, ?_⟩) fun run run' h _ hspend => ?_
  · rintro _ _ _ ⟨⟩
    exact Run.spend?_eq_none_iff.1 hspend
  · have hpaid : (run'.record (.load l p)).Balanced b := (h.meet once l).record hspend
    exact ⟨hpaid, fun e _ => ⟨hpaid, by rintro _ _ _ ⟨⟩⟩⟩

theorem maintains_balanced (prune : Pruning) (hvisitor : visitor.FailsAsItself) (config : Config)
    (hops : Nat) (n : Node) (p : Progress) (s : Selector) :
    Maintains (Run.Balanced b) (Settled b)
      (enter prune visitor (follow prune config visitor hops) n p s) :=
  maintains_enter (maintains_balanced_visit hvisitor)
    (fun loader _ l p => maintains_balanced_load loader l p)
    (fun _ h => ⟨h, by rintro _ _ _ ⟨⟩⟩) hops n p s

theorem maintains_budget_eq_none (prune : Pruning) (hvisitor : visitor.FailsAsItself)
    (config : Config) (hops : Nat) (n : Node) (p : Progress) (s : Selector) :
    Maintains (fun run => run.budget = none)
      (fun halt _ => ∀ resource p l, halt ≠ .failed (.budgetExceeded resource p l))
      (enter prune visitor (follow prune config visitor hops) n p s) := by
  refine maintains_enter (fun v => triple_visit (fun run h hspend => ?_)
    fun run run' h hspend => ?_)
    (fun loader _ l p => maintains_load (fun run h hspend => ?_) fun run run' h _ hspend => ?_)
    (fun _ _ => by rintro _ _ _ ⟨⟩) hops n p s
  · rw [Run.spend?_of_budget_eq_none h] at hspend
    cases hspend
  · rw [Run.spend?_of_budget_eq_none h] at hspend
    cases hspend
    refine ⟨fun _ _ => h, fun e he resource p l hrefused => ?_⟩
    exact hvisitor.ne_budgetExceeded he resource p l (Halt.failed.inj hrefused)
  · rw [Run.spend?_of_budget_eq_none ((Run.budget_meet _ _ _).trans h)] at hspend
    cases hspend
  · rw [Run.spend?_of_budget_eq_none ((Run.budget_meet _ _ _).trans h)] at hspend
    cases hspend
    exact ⟨(Run.budget_meet _ _ _).trans h, fun e _ => by rintro _ _ _ ⟨⟩⟩

/-! ## Hops enough -/

/-- Fewer links may still be loaded than followed into one another. -/
def Run.LinksLeftBelow (hops : Nat) (run : Run σ) : Prop := ∃ k ∈ run.left? .link, k < hops

namespace Run.LinksLeftBelow

variable {hops : Nat} {run run' : Run σ}

theorem mono (h : run.LinksLeftBelow hops) : run.LinksLeftBelow (hops + 1) := by
  obtain ⟨k, hk, hlt⟩ := h
  exact ⟨k, hk, Nat.lt_succ_of_lt hlt⟩

theorem meet (h : run.LinksLeftBelow hops) (once : Bool) (l : Link) :
    (run.meet once l).LinksLeftBelow hops := by
  cases once <;> exact h

theorem record (h : run.LinksLeftBelow hops) (e : Event) : (run.record e).LinksLeftBelow hops := h

theorem of_spend? (h : run.LinksLeftBelow (hops + 1)) (hspend : run.spend? .link = some run') :
    run'.LinksLeftBelow hops := by
  obtain ⟨k, hk, hlt⟩ := h
  have hleft : run'.left? .link = some (k - 1) := by
    rw [left?_of_spend? hspend, hk]
    rfl
  have hpos : 0 < k := pos_of_spend? hspend hk
  exact ⟨k - 1, hleft, by omega⟩

end Run.LinksLeftBelow

theorem maintains_links_visit (hops : Nat) (v : Visit) :
    Maintains (Run.LinksLeftBelow hops) (fun halt _ => halt ≠ .outOfHops) (visit visitor v) := by
  refine triple_visit (fun _ _ _ => by rintro ⟨⟩) fun run run' h hspend => ?_
  obtain ⟨k, hk, hlt⟩ := h
  have hleft : run'.left? .link = some k := by
    rw [Run.left?_of_spend? hspend, hk]
    rfl
  exact ⟨fun _ _ => ⟨k, hleft, hlt⟩, fun _ _ => by rintro ⟨⟩⟩

/-- A load that gives a block leaves one link less to be loaded. -/
theorem triple_load_of_links_lt (once : Bool) (loader : Loader) (hops : Nat) (l : Link)
    (p : Progress) :
    Triple (σ := σ) (Run.LinksLeftBelow (hops + 1)) (load once loader l p)
      (fun found => Run.LinksLeftBelow (if found.isSome then hops else hops + 1))
      (fun halt _ => halt ≠ .outOfHops) := by
  refine triple_load (fun run h _ _ => h) (fun _ _ _ => by rintro ⟨⟩) fun run run' h _ hspend => ?_
  have hless : run'.LinksLeftBelow hops := (h.meet once l).of_spend? hspend
  exact ⟨fun _ _ => hless.record _, fun _ => hless.mono.record _, fun _ _ => by rintro ⟨⟩⟩

/-- With more hops than a walk may load links, it does not run out of hops. -/
theorem maintains_follow_of_links_lt (prune : Pruning) (config : Config) (hops : Nat) (l : Link)
    (p : Progress) (s : Selector) :
    Maintains (Run.LinksLeftBelow hops) (fun halt _ => halt ≠ .outOfHops)
      (follow prune config visitor hops l p s) := by
  apply maintains_follow_of_counted
  · rintro run ⟨k, hk, hlt⟩
    exact Nat.not_lt_zero k hlt
  · intro hops run h
    exact h.mono
  · exact maintains_links_visit
  · intro loader _ hops l p
    exact triple_load_of_links_lt config.once loader hops l p

theorem maintains_enter_of_links_lt (prune : Pruning) (config : Config) (hops : Nat) (n : Node)
    (p : Progress) (s : Selector) :
    Maintains (Run.LinksLeftBelow hops) (fun halt _ => halt ≠ .outOfHops)
      (enter prune visitor (follow prune config visitor hops) n p s) :=
  maintains_enter_of_follow (fun v _ => maintains_links_visit hops v)
    (maintains_follow_of_links_lt prune config hops) n p s

end

/-! ## Walks with a budget -/

namespace Walker

variable {w : Walker} {b : Budget} (prune : Pruning) {hops : Nat} (root : Node) (s : Selector)
  {visitor : Visitor σ} (state : σ)

theorem outcome_ne_budgetExceeded (hbudget : w.config.budget = none)
    (hvisitor : visitor.FailsAsItself)
    (hops : Nat) (resource : Resource) (p : Path) (l : Option Link) :
    (w.walkPruned prune hops root s visitor state).1.outcome ≠
      .failed (.budgetExceeded resource p l) := by
  have hbegin : ((new w.config).begin state).budget = none := hbudget
  obtain ⟨outcome, run, heq, hend⟩ := exists_run_of_maintains
    (maintains_budget_eq_none prune hvisitor w.config hops root .start s) hbegin
  rw [heq]
  rcases hend with ⟨-, rfl⟩ | ⟨halt, hhalt, rfl⟩
  · rintro ⟨⟩
  · intro hrefused
    exact hhalt resource p l (Halt.eq_failed_of_outcome hrefused)

variable (hbudget : w.config.budget = some b)

include hbudget

theorem outcome_ne_unfinished_of_links_lt (hhops : b.links < hops) :
    (w.walkPruned prune hops root s visitor state).1.outcome ≠ .unfinished := by
  have hbegin : ((new w.config).begin state).LinksLeftBelow hops :=
    ⟨b.links, by rw [Run.left?, begin, new, hbudget]; rfl, hhops⟩
  exact outcome_ne_unfinished (maintains_enter_of_links_lt prune w.config hops root .start s) hbegin

theorem balanced_begin : ((new w.config).begin state).Balanced b := by
  intro resource
  exact ⟨b.left resource, by rw [Run.left?, begin, new, hbudget]; rfl, rfl⟩

/-- What a walk leaves of its budget and what it has used make up the budget. If it was refused
something, it has used up the resource. -/
theorem exists_budget_of_walkPruned (hvisitor : visitor.FailsAsItself) (hops : Nat) :
    let walk := w.walkPruned prune hops root s visitor state
    (∃ rest, walk.2.budget = some rest ∧
      ∀ resource, rest.left resource + walk.1.uses resource = b.left resource) ∧
    ∀ resource p l, walk.1.outcome = .failed (.budgetExceeded resource p l) →
      walk.1.uses resource = b.left resource := by
  intro walk
  obtain ⟨outcome, run, heq, hend⟩ := exists_run_of_maintains
    (maintains_balanced prune hvisitor w.config hops root .start s) (balanced_begin state hbudget)
  have huses : ∀ resource, walk.1.uses resource = (run.log.map Event.resource).count resource := by
    intro resource
    rw [← Report.count_resource, show walk = _ from heq]
  have hrest : walk.2.budget = run.budget := by
    rw [show walk = _ from heq]
    rfl
  have houtcome : walk.1.outcome = outcome := by rw [show walk = _ from heq]
  simp only [huses, hrest, houtcome]
  rcases hend with ⟨h, rfl⟩ | ⟨halt, h, rfl⟩
  · exact ⟨h.exists_budget, by rintro _ _ _ ⟨⟩⟩
  · refine ⟨h.balanced.exists_budget, fun resource p l hrefused => ?_⟩
    exact h.balanced.count_of_left? (h.refused resource p l (Halt.eq_failed_of_outcome hrefused))

/-- As long as there are enough of them, it makes no difference how many hops there are. -/
theorem walkPruned_eq_of_links_lt (hhops : b.links < hops) {hops' : Nat} (hle : hops ≤ hops') :
    w.walkPruned prune hops' root s visitor state = w.walkPruned prune hops root s visitor state :=
  walkPruned_eq_of_hops_le hle
    (outcome_ne_unfinished_of_links_lt prune root s state hbudget hhops)

/-- What a walk is refused is what it would go on with if it had no budget. -/
theorem exists_event_of_refused {free : Walker} (hvisitor : visitor.FailsAsItself)
    (hhops : b.links < hops) (hfree : free.config = { w.config with budget := none })
    {resource : Resource} {p : Path} {l : Option Link}
    (hrefused : (w.walkPruned prune hops root s visitor state).1.outcome =
      .failed (.budgetExceeded resource p l)) :
    ∃ e, e.refusal = .budgetExceeded resource p l ∧
      (w.walkPruned prune hops root s visitor state).1.events ++ [e] <+:
        (free.walkPruned prune hops root s visitor state).1.events := by
  have hfreer : w.config.SameButRicher free.config := by
    rw [hfree]
    exact ⟨rfl, rfl, by rintro _ ⟨⟩⟩
  rcases walkPruned_of_richer hfreer (Nat.le_refl hops) rfl rfl prune root s visitor state
    (outcome_ne_unfinished_of_links_lt prune root s state hbudget hhops) with
    heq | ⟨e, houtcome, hmore⟩
  · have hnone : free.config.budget = none := congrArg Config.budget hfree
    exact absurd ((congrArg Report.outcome heq).trans hrefused)
      (outcome_ne_budgetExceeded prune root s state hnone hvisitor hops resource p l)
  · exact ⟨e, Outcome.failed.inj (houtcome.symm.trans hrefused), hmore⟩

/-- A larger budget lets a walk go on where it was refused something, and changes nothing else. -/
theorem walkPruned_of_budget_le {w' : Walker} (hconfig : w.config.SameButRicher w'.config)
    (hhops : b.links < hops) {b' : Budget} (hbudget' : w'.config.budget = some b') {hops' : Nat}
    (hhops' : b'.links < hops') :
    let walk := (w.walkPruned prune hops root s visitor state).1
    let longer := (w'.walkPruned prune hops' root s visitor state).1
    longer = walk ∨ ∃ e, walk.outcome = .failed e.refusal ∧
      walk.events ++ [e] <+: longer.events := by
  intro walk longer
  -- The hops of the longer walk are as many as those of the other, or more without making a
  -- difference.
  have hlonger : longer = (w'.walkPruned prune (max hops hops') root s visitor state).1 :=
    congrArg Prod.fst
      (walkPruned_eq_of_links_lt prune root s state hbudget' hhops'
        (Nat.le_max_right hops hops')).symm
  rw [hlonger]
  exact walkPruned_of_richer hconfig (Nat.le_max_left hops hops') rfl rfl prune root s visitor state
    (outcome_ne_unfinished_of_links_lt prune root s state hbudget hhops)

end Walker

theorem Config.sameButRicher_of_le (loader : Option Loader) (once : Bool) {b b' : Budget}
    (hnodes : b.nodes ≤ b'.nodes) (hlinks : b.links ≤ b'.links) :
    Config.SameButRicher ⟨loader, some b, once⟩ ⟨loader, some b', once⟩ := by
  refine ⟨rfl, rfl, ?_⟩
  rintro _ ⟨⟩
  refine ⟨b, rfl, fun resource => ?_⟩
  cases resource with
  | node => exact hnodes
  | link => exact hlinks

/-- A budget only cuts a walk short. Whatever the walk with the smaller budget does, the walk with
the larger one does as well, in the same order. If nothing was refused the walks are the same, else
the resource was used up and the failure names the event that comes next when there is no budget. -/
theorem walk_of_budget_le {loader : Option Loader} {once : Bool} {b b' : Budget}
    (hnodes : b.nodes ≤ b'.nodes) (hlinks : b.links ≤ b'.links) (w w' free : Walker)
    (hw : w.config = ⟨loader, some b, once⟩) (hw' : w'.config = ⟨loader, some b', once⟩)
    (hfree : free.config = ⟨loader, none, once⟩) {visitor : Visitor σ}
    (hvisitor : visitor.FailsAsItself) (hops hops' : Nat) (hhops : b.links < hops)
    (hhops' : b'.links < hops') (root : Node) (s : Selector) (state : σ) :
    let walk := w.walk hops root s visitor state
    let longer := w'.walk hops' root s visitor state
    walk.1.outcome ≠ .unfinished ∧ longer.1.outcome ≠ .unfinished ∧
      walk.1.events <+: longer.1.events ∧
      ((∀ resource p l, walk.1.outcome ≠ .failed (.budgetExceeded resource p l)) →
        longer.1 = walk.1) ∧
      (∀ resource p l, walk.1.outcome = .failed (.budgetExceeded resource p l) →
        walk.1.uses resource = b.left resource ∧
          ∃ e, e.refusal = .budgetExceeded resource p l ∧
            walk.1.events ++ [e] <+: (free.walk hops root s visitor state).1.events) ∧
      ∃ rest, walk.2.budget = some rest ∧
        ∀ resource, rest.left resource + walk.1.uses resource = b.left resource := by
  intro walk longer
  have hbudget : w.config.budget = some b := congrArg Config.budget hw
  have hbudget' : w'.config.budget = some b' := congrArg Config.budget hw'
  have hrich : w.config.SameButRicher w'.config := by
    rw [hw, hw']
    exact Config.sameButRicher_of_le loader once hnodes hlinks
  have hends : walk.1.outcome ≠ .unfinished :=
    Walker.outcome_ne_unfinished_of_links_lt Selector.picks? root s state hbudget hhops
  have hends' : longer.1.outcome ≠ .unfinished :=
    Walker.outcome_ne_unfinished_of_links_lt Selector.picks? root s state hbudget' hhops'
  have hcompare : longer.1 = walk.1 ∨
      ∃ e, walk.1.outcome = .failed e.refusal ∧ walk.1.events ++ [e] <+: longer.1.events :=
    Walker.walkPruned_of_budget_le Selector.picks? root s state hbudget hrich hhops hbudget' hhops'
  obtain ⟨hrest, hused⟩ :=
    Walker.exists_budget_of_walkPruned Selector.picks? root s state hbudget hvisitor hops
  refine ⟨hends, hends', ?_, fun hafforded => ?_, fun resource p l hrefused =>
    ⟨hused resource p l hrefused, ?_⟩, hrest⟩
  · rcases hcompare with heq | ⟨e, -, hmore⟩
    · exact ⟨[], by rw [List.append_nil, heq]⟩
    · exact (List.prefix_append _ _).trans hmore
  · rcases hcompare with heq | ⟨e, houtcome, -⟩
    · exact heq
    · obtain ⟨p, l, hrefusal⟩ := e.exists_refusal_eq
      exact absurd (houtcome.trans (congrArg Outcome.failed hrefusal)) (hafforded _ p l)
  · exact Walker.exists_event_of_refused Selector.picks? root s state hbudget hvisitor hhops
      (by rw [hfree, hw]) hrefused

/-- A block that links to itself is walked as far as the budget goes, and then its link is
refused. -/
theorem walk_of_budget_le_cyclic :
    let loader : Loader := (BlockStore.ofList [(⟨"x"⟩, .list [.link ⟨"x"⟩])]).loader
    let selector : Selector := .recursion .unbounded (.union [.matcher, .all .edge])
    let walk (budget : Option Budget) :=
      ((Walker.new ⟨some loader, budget, false⟩).walk 5 (.link ⟨"x"⟩) selector .onlooker ()).1
    let refused : WalkError := .budgetExceeded .link ⟨[.index 0, .index 0]⟩ (some ⟨"x"⟩)
    (walk (some ⟨5, 2⟩)).outcome = .failed refused ∧
      (walk (some ⟨5, 2⟩)).events <+: (walk (some ⟨9, 4⟩)).events ∧
      (walk (some ⟨5, 2⟩)).uses .link = 2 ∧
      ∃ e, e.refusal = refused ∧ (walk (some ⟨5, 2⟩)).events ++ [e] <+: (walk none).events := by
  intro loader selector walk refused
  have hrefused : (walk (some ⟨5, 2⟩)).outcome = .failed refused := rfl
  obtain ⟨-, -, hprefix, -, hused, -⟩ := walk_of_budget_le (Nat.le_add_right 5 4)
    (Nat.le_add_right 2 2) (.new ⟨some loader, some ⟨5, 2⟩, false⟩)
    (.new ⟨some loader, some ⟨9, 4⟩, false⟩)
    (.new ⟨some loader, none, false⟩) rfl rfl rfl Visitor.failsAsItself_onlooker 5 5 (by decide)
    (by decide) (.link ⟨"x"⟩) selector ()
  exact ⟨hrefused, hprefix, hused _ _ _ hrefused⟩

end DagSelect
