import DagSelect.Proofs.Node.Everywhere
import DagSelect.Proofs.Walk.Maintains
import DagSelect.Proofs.Walk.Spending

/-!
# The nodes that a walk visits

A walk makes no nodes: what it visits is a part of its root or of a block, or a link that is not
followed. So a property of data that is true throughout the root and throughout every block is true
throughout every node that is visited.
-/

namespace DagSelect

variable {σ : Type}

open DagSelect.Action

def Run.Visited (P : Node → Prop) (run : Run σ) : Prop := ∀ v ∈ run.visits, v.node.Everywhere P

section

variable {P : Node → Prop} {visitor : Visitor σ} {prune : Pruning}

theorem maintains_visited_visit {v : Visit} (hv : v.node.Everywhere P) :
    Maintains (Run.Visited P) (fun _ => Run.Visited P) (visit visitor v) := by
  refine triple_visit (fun _ h _ => h) fun run run' h hspend => ?_
  have hmore : (run'.record (.visit v)).Visited P := by
    intro u hu
    rw [Run.visits_record_visit, Run.visits_of_spend? hspend, List.mem_append,
      List.mem_singleton] at hu
    rcases hu with hu | rfl
    · exact h u hu
    · exact hv
  exact ⟨fun _ _ => hmore, fun _ _ => hmore⟩

theorem triple_visited_load (once : Bool) {loader : Loader} {l : Link} {p : Progress}
    (hblock : ∀ block, loader l p = .ok block → block.Everywhere P) :
    Triple (σ := σ) (Run.Visited P) (load once loader l p)
      (fun found run => run.Visited P ∧ ∀ block ∈ found, block.Everywhere P)
      (fun _ => Run.Visited P) := by
  refine triple_load (fun run h _ _ => ⟨h, by rintro _ ⟨⟩⟩) (fun run h _ => ?_)
    fun run run' h _ hspend => ?_
  · rwa [Run.Visited, Run.visits_meet]
  · have hsame : (run'.record (.load l p)).Visited P := by
      rwa [Run.Visited, Run.visits_record_load, Run.visits_of_spend? hspend, Run.visits_meet]
    refine ⟨fun block hok => ⟨hsame, ?_⟩, fun _ => ⟨hsame, by rintro _ ⟨⟩⟩, fun _ _ => hsame⟩
    rintro _ ⟨⟩
    exact hblock block hok

theorem maintains_visited_walkBlock {follow : Follow σ}
    (hfollow : ∀ l p s, Maintains (Run.Visited P) (fun _ => Run.Visited P) (follow l p s))
    {n : Node} (hn : n.Everywhere P) (p : Progress) (s : Selector) :
    Maintains (Run.Visited P) (fun _ => Run.Visited P) (walkBlock prune visitor follow n p s) := by
  induction hn generalizing p s with
  | intro here below ih =>
    rw [walkBlock_eq]
    refine (maintains_visited_visit (.intro here below)).bind fun _ => maintains_forM fun e he => ?_
    cases s.explore? _ e.1 with
    | none => exact maintains_pure ()
    | some next =>
      simp only [enter]
      cases e.2.link? with
      | some l => exact hfollow l _ _
      | none => exact ih e (mem_of_mem_keepPicked he) _ _

theorem maintains_visited_follow (hlink : ∀ l, P (.link l)) {config : Config}
    (hserves : config.Serves fun block => block.Everywhere P) (hops : Nat) (l : Link) (p : Progress)
    (s : Selector) :
    Maintains (Run.Visited P) (fun _ => Run.Visited P)
      (follow prune config visitor hops l p s) := by
  cases hloader : config.loader with
  | none =>
    rw [follow_of_loader_eq_none hloader]
    exact maintains_visited_visit (.leaf rfl (hlink l))
  | some loader =>
    induction hops generalizing l p s with
    | zero =>
      rw [follow_zero_of_loader hloader]
      exact maintains_throw fun _ h => h
    | succ hops ih =>
      rw [follow_succ_of_loader hloader]
      refine Triple.bind (triple_visited_load _ (hserves loader hloader l p)) fun found => ?_
      cases found with
      | none => exact fun run h => h.1
      | some block =>
        intro run h
        exact maintains_visited_walkBlock ih (h.2 block rfl) (p.cross l) s run h.1

/-- What is true throughout the root and the blocks, and of links, is true throughout the nodes that
a walk visits. -/
theorem Walker.everywhere_of_mem_visits (hlink : ∀ l, P (.link l)) {w : Walker}
    (hserves : w.config.Serves fun block => block.Everywhere P) {root : Node}
    (hroot : root.Everywhere P) {hops : Nat} {s : Selector} {state : σ} {v : Visit}
    (hv : v ∈ (w.walkPruned prune hops root s visitor state).1.visits) : v.node.Everywhere P := by
  have hwalk : Maintains (Run.Visited P) (fun _ => Run.Visited P)
      (enter prune visitor (follow prune w.config visitor hops) root .start s) := by
    unfold enter
    cases root.link? with
    | some l => exact maintains_visited_follow hlink hserves hops l .start s
    | none =>
      exact maintains_visited_walkBlock (maintains_visited_follow hlink hserves hops) hroot .start s
  have hbegin : ((new w.config).begin state).Visited P := by
    rintro _ ⟨⟩
  obtain ⟨outcome, run, heq, hend⟩ := exists_run_of_maintains hwalk hbegin
  rw [heq] at hv
  rcases hend with ⟨h, -⟩ | ⟨-, h, -⟩
  · exact h v hv
  · exact h v hv

end

end DagSelect
