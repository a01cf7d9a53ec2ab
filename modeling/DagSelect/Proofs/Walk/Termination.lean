import DagSelect.Proofs.Walk.Budgets
import DagSelect.Proofs.Walk.Once
import Mathlib.Data.List.Perm.Subperm

/-!
# Walks that have to end

An unbounded recursion goes as deep as the data, and links that lead back make the data as deep as
one likes. Two settings bring every walk to its end all the same.

If each link is loaded once, every block that is walked takes one link from those of the store that
have not been met (`BlockStore.unmet`). Only the last load of a walk can be of a link without a
block, since it ends the walk. If there is a budget, every block takes one unit of it. Within a
block a walk ends because the block is a finite tree.
-/

namespace DagSelect

variable {σ : Type}

namespace BlockStore

variable {store : BlockStore} {seen : List Link} {l : Link} {p : Progress}

def links (store : BlockStore) : List Link := store.blocks.map Prod.fst

def unmet (store : BlockStore) (seen : List Link) : List Link :=
  store.links.filter fun l => l ∉ seen

theorem length_links (store : BlockStore) : store.links.length = store.size := List.length_map _

theorem length_unmet_nil (store : BlockStore) : (store.unmet []).length = store.size := by
  have hall : store.unmet [] = store.links :=
    List.filter_eq_self.2 fun l _ => decide_eq_true List.not_mem_nil
  rw [hall, length_links]

theorem mem_links_of_loader {block : Node} (h : store.loader l p = .ok block) :
    l ∈ store.links := by
  unfold loader at h
  split at h
  · next n hn =>
    obtain ⟨_, _, hblocks, -⟩ := List.lookup_eq_some_iff.1 hn
    simp [links, hblocks]
  · cases h

theorem loader_ne_skip : store.loader l p ≠ .error .skip := by
  unfold loader
  split <;> rintro ⟨⟩

/-- Of the links that lead to a block, one that is met for the first time is not unmet any more. -/
theorem length_unmet_cons_lt (hl : l ∈ store.links) (hnew : l ∉ seen) :
    (store.unmet (l :: seen)).length < (store.unmet seen).length := by
  have hless : store.unmet (l :: seen) = (store.unmet seen).filter fun l' => l' ≠ l := by
    rw [unmet, unmet, List.filter_filter]
    apply List.filter_congr
    intro l' _
    simp
  rw [hless, List.length_filter_lt_length_iff_exists]
  exact ⟨l, List.mem_filter.2 ⟨hl, decide_eq_true hnew⟩, by simp⟩

end BlockStore

open DagSelect.Action

/-! ## Each link once -/

/-- Fewer links of the store have not been met than links are followed into one another. -/
def Run.UnmetBelow (store : BlockStore) (hops : Nat) (run : Run σ) : Prop :=
  (store.unmet run.seen).length < hops

section

variable {store : BlockStore} {visitor : Visitor σ} {config : Config}

theorem maintains_unmet_visit (store : BlockStore) (hops : Nat) (v : Visit) :
    Maintains (Run.UnmetBelow store hops) (fun halt _ => halt ≠ .outOfHops) (visit visitor v) := by
  refine triple_visit (fun _ _ _ => by rintro ⟨⟩) fun run run' h hspend => ?_
  have hless : run'.UnmetBelow store hops := by
    rw [Run.UnmetBelow, Run.seen_of_spend? hspend]
    exact h
  exact ⟨fun _ _ => hless, fun _ _ => by rintro ⟨⟩⟩

/-- A load that gives a block leaves one link less that has not been met. -/
theorem triple_load_of_unmet_lt (store : BlockStore) (hops : Nat) (l : Link) (p : Progress) :
    Triple (σ := σ) (Run.UnmetBelow store (hops + 1)) (load true store.loader l p)
      (fun found => Run.UnmetBelow store (if found.isSome then hops else hops + 1))
      (fun halt _ => halt ≠ .outOfHops) := by
  refine triple_load (fun run h _ _ => h) (fun _ _ _ => by rintro ⟨⟩)
    fun run run' h hmet hspend => ?_
  have hnew : l ∉ run.seen := fun hl => hmet ⟨rfl, hl⟩
  have hseen : run'.seen = l :: run.seen := Run.seen_of_spend? hspend
  refine ⟨fun block hblock => ?_, fun hskip => absurd hskip BlockStore.loader_ne_skip,
    fun _ _ => by rintro ⟨⟩⟩
  have hless := BlockStore.length_unmet_cons_lt (BlockStore.mem_links_of_loader hblock) hnew
  show (store.unmet run'.seen).length < hops
  rw [hseen]
  exact Nat.lt_of_lt_of_le hless (Nat.le_of_lt_succ h)

theorem maintains_enter_of_unmet_lt (hloader : config.loader = some store.loader)
    (honce : config.once = true) (prune : Pruning) (hops : Nat) (n : Node) (p : Progress)
    (s : Selector) :
    Maintains (Run.UnmetBelow store hops) (fun halt _ => halt ≠ .outOfHops)
      (enter prune visitor (follow prune config visitor hops) n p s) := by
  refine maintains_enter_of_follow (fun v _ => maintains_unmet_visit store hops v) ?_ n p s
  apply maintains_follow_of_counted
  · intro run
    exact Nat.not_lt_zero _
  · intro hops run h
    exact Nat.lt_succ_of_lt h
  · exact maintains_unmet_visit store
  · intro loader hsome hops l p
    obtain rfl := Option.some.inj (hloader.symm.trans hsome)
    rw [honce]
    exact triple_load_of_unmet_lt store hops l p

/-- All links that are loaded lead to a block, but for the one whose load ends the walk. -/
theorem maintains_links_of_store (hloader : config.loader = some store.loader) (prune : Pruning)
    (hops : Nat) (n : Node) (p : Progress) (s : Selector) :
    Maintains (fun run => linksOf run.log ⊆ store.links)
      (fun _ run => ∃ last, linksOf run.log ⊆ last :: store.links)
      (enter prune visitor (follow prune config visitor hops) n p s) := by
  have hended : ∀ {links : List Link}, links ⊆ store.links → ∃ last, links ⊆ last :: store.links :=
    fun h => ⟨default, List.subset_cons_of_subset _ h⟩
  refine maintains_enter (fun v => triple_visit (fun _ h _ => hended h) fun run run' h hspend => ?_)
    (fun loader hsome l p => triple_load (fun _ h _ _ => h) (fun run h _ => ?_)
      fun run run' h _ hspend => ?_) (fun _ h => hended h) hops n p s
  · rw [← Run.log_of_spend? hspend, ← Run.linksOf_record_visit run' v] at h
    exact ⟨fun _ _ => h, fun _ _ => hended h⟩
  · rw [Run.log_meet]
    exact hended h
  · obtain rfl := Option.some.inj (hloader.symm.trans hsome)
    rw [Run.linksOf_record_load, Run.log_of_spend? hspend, Run.log_meet]
    refine ⟨fun block hblock => ?_, fun hskip => absurd hskip BlockStore.loader_ne_skip,
      fun e _ => ?_⟩
    · have hl := BlockStore.mem_links_of_loader hblock
      exact List.append_subset.2 ⟨h, List.cons_subset.2 ⟨hl, List.nil_subset _⟩⟩
    · exact ⟨l, List.append_subset.2 ⟨List.subset_cons_of_subset l h, by simp⟩⟩

end

namespace Walker

variable {w : Walker} (prune : Pruning) {hops : Nat} (root : Node) (s : Selector)
  (visitor : Visitor σ) (state : σ)

section

variable {store : BlockStore} (hloader : w.config.loader = some store.loader)
  (honce : w.config.once = true)

include hloader honce

theorem outcome_ne_unfinished_of_size_lt (hhops : store.size < hops) :
    (w.walkPruned prune hops root s visitor state).1.outcome ≠ .unfinished := by
  have hbegin : ((new w.config).begin state).UnmetBelow store hops := by
    rw [Run.UnmetBelow, begin, new, BlockStore.length_unmet_nil]
    exact hhops
  exact outcome_ne_unfinished (maintains_enter_of_unmet_lt hloader honce prune hops root .start s)
    hbegin

theorem length_loads_le_of_once :
    (w.walkPruned prune hops root s visitor state).1.loads.length ≤ store.size + 1 := by
  have hnodup := nodup_loads_of_once honce prune hops root s visitor state
  have hbegin : linksOf ((new w.config).begin state).log ⊆ store.links := List.nil_subset _
  obtain ⟨outcome, run, heq, hend⟩ := exists_run_of_maintains
    (maintains_links_of_store hloader prune hops root .start s) hbegin
  obtain ⟨last, hlinks⟩ : ∃ last, linksOf run.log ⊆ last :: store.links := by
    rcases hend with ⟨h, -⟩ | ⟨-, h, -⟩
    · exact ⟨default, List.subset_cons_of_subset _ h⟩
    · exact h
  rw [heq] at hnodup ⊢
  have hle := (List.subperm_of_subset hnodup hlinks).length_le
  rwa [List.length_map, List.length_cons, BlockStore.length_links] at hle

end

/-! ## With a budget -/

/-- No walk uses more of a resource than its budget has of it, whatever its visitor does. -/
theorem uses_le_of_budget {b : Budget} (hbudget : w.config.budget = some b) (resource : Resource) :
    (w.walkPruned prune hops root s visitor state).1.uses resource ≤ b.left resource := by
  have hvisit (v : Visit) :
      Maintains (Run.Balanced b) (fun _ => Run.Balanced b) (visit visitor v) := by
    refine triple_visit (fun _ h _ => h) fun run run' h hspend => ?_
    have hpaid : (run'.record (.visit v)).Balanced b := h.record hspend
    exact ⟨fun _ _ => hpaid, fun _ _ => hpaid⟩
  have hload (loader : Loader) (_ : w.config.loader = some loader) (l : Link) (p : Progress) :
      Maintains (σ := σ) (Run.Balanced b) (fun _ => Run.Balanced b)
        (load w.config.once loader l p) := by
    refine maintains_load (fun run h _ => h.meet _ l) fun run run' h _ hspend => ?_
    have hpaid : (run'.record (.load l p)).Balanced b := (h.meet _ l).record hspend
    exact ⟨hpaid, fun _ _ => hpaid⟩
  obtain ⟨outcome, run, heq, hend⟩ := exists_run_of_maintains
    (maintains_enter hvisit hload (fun _ h => h) hops root .start s) (balanced_begin state hbudget)
  have hbalanced : run.Balanced b := by
    rcases hend with ⟨h, -⟩ | ⟨-, h, -⟩
    · exact h
    · exact h
  obtain ⟨k, -, hsum⟩ := hbalanced resource
  rw [heq, ← Report.count_resource, ← hsum]
  exact Nat.le_add_left _ _

end Walker

/-! ## The two settings -/

/-- A walk that loads each link of a store once comes to its end, and so does a walk that has a
budget, whatever the selector and wherever the links lead. The one makes no more loads than there
are blocks, and one more; the other makes no more loads and visits than its budget has room for.
That a walk has more hops than it takes makes no difference. -/
theorem walk_ends_of_once_or_budget :
    (∀ (σ : Type) (store : BlockStore) (budget : Option Budget) (w : Walker) (root : Node)
      (s : Selector) (visitor : Visitor σ) (state : σ),
        w.config = ⟨some store.loader, budget, true⟩ →
      ∀ hops, store.size < hops →
        let walk := w.walk hops root s visitor state
        walk.1.outcome ≠ .unfinished ∧ walk = w.walk (store.size + 1) root s visitor state ∧
          (walk.1.loads.map Prod.fst).Nodup ∧ walk.1.loads.length ≤ store.size + 1) ∧
    ∀ (σ : Type) (b : Budget) (w : Walker) (root : Node) (s : Selector) (visitor : Visitor σ)
      (state : σ), w.config.budget = some b →
      ∀ hops, b.links < hops →
        let walk := w.walk hops root s visitor state
        walk.1.outcome ≠ .unfinished ∧ walk = w.walk (b.links + 1) root s visitor state ∧
          walk.1.loads.length ≤ b.links ∧ walk.1.visits.length ≤ b.nodes := by
  constructor
  · intro σ store budget w root s visitor state hw hops hhops walk
    have hloader : w.config.loader = some store.loader := congrArg Config.loader hw
    have honce : w.config.once = true := congrArg Config.once hw
    have hends : (w.walk (store.size + 1) root s visitor state).1.outcome ≠ .unfinished :=
      Walker.outcome_ne_unfinished_of_size_lt _ root s visitor state hloader honce
        (Nat.lt_succ_self _)
    have hsame : walk = w.walk (store.size + 1) root s visitor state :=
      Walker.walkPruned_eq_of_hops_le hhops hends
    refine ⟨by rwa [hsame], hsame, ?_, ?_⟩
    · exact Walker.nodup_loads_of_once honce _ hops root s visitor state
    · exact Walker.length_loads_le_of_once _ root s visitor state hloader honce
  · intro σ b w root s visitor state hbudget hops hhops walk
    have hends : (w.walk (b.links + 1) root s visitor state).1.outcome ≠ .unfinished :=
      Walker.outcome_ne_unfinished_of_links_lt _ root s state hbudget (Nat.lt_succ_self _)
    have hsame : walk = w.walk (b.links + 1) root s visitor state :=
      Walker.walkPruned_eq_of_hops_le hhops hends
    refine ⟨by rwa [hsame], hsame, ?_, ?_⟩
    · exact Walker.uses_le_of_budget _ root s visitor state hbudget .link
    · exact Walker.uses_le_of_budget _ root s visitor state hbudget .node

/-- Two blocks lead to each other and on to one that is not there. With each link loaded once all
three links are loaded, the last one in vain; without, the budget is used up. -/
theorem walk_ends_of_once_or_budget_cyclic :
    let store :=
      BlockStore.ofList [(⟨"x"⟩, .list [.link ⟨"y"⟩, .link ⟨"z"⟩]), (⟨"y"⟩, .list [.link ⟨"x"⟩])]
    let selector : Selector := .recursion .unbounded (.union [.matcher, .all .edge])
    let walk (budget : Option Budget) (once : Bool) :=
      ((Walker.new ⟨some store.loader, budget, once⟩).walk 8 (.link ⟨"x"⟩) selector .onlooker ()).1
    (walk none true).outcome = .failed (.load ⟨"z"⟩ ⟨[.index 1]⟩ (.notFound ⟨"z"⟩)) ∧
      ((walk none true).loads.map Prod.fst).Nodup ∧
      (walk none true).loads.length = 3 ∧ (walk none true).loads.length ≤ store.size + 1 ∧
      (walk (some ⟨9, 7⟩) false).outcome ≠ .unfinished ∧
      (walk (some ⟨9, 7⟩) false).loads.length = 7 ∧ (walk (some ⟨9, 7⟩) false).loads.length ≤ 7 ∧
      (walk (some ⟨9, 7⟩) false).visits.length ≤ 9 := by
  intro store selector walk
  have hfailed : (walk none true).outcome =
      .failed (.load ⟨"z"⟩ ⟨[.index 1]⟩ (.notFound ⟨"z"⟩)) := by
    decide +kernel
  have hloads : (walk none true).loads.length = 3 := by decide +kernel
  have hspent : (walk (some ⟨9, 7⟩) false).loads.length = 7 := by decide +kernel
  obtain ⟨-, -, hnodup, hlength⟩ := walk_ends_of_once_or_budget.1 Unit store none
    (.new ⟨some store.loader, none, true⟩) (.link ⟨"x"⟩) selector .onlooker () rfl 8 (by decide)
  obtain ⟨hends, -, hlinks, hnodes⟩ := walk_ends_of_once_or_budget.2 Unit ⟨9, 7⟩
    (.new ⟨some store.loader, some ⟨9, 7⟩, false⟩) (.link ⟨"x"⟩) selector .onlooker () rfl 8
    (by decide)
  exact ⟨hfailed, hnodup, hloads, hlength, hends, hspent, hlinks, hnodes⟩

end DagSelect
