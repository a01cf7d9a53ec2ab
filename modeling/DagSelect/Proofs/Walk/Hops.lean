import DagSelect.Proofs.Walk.Locate
import DagSelect.Proofs.Walk.Maintains

/-!
# How many hops a walk needs

The bound on how deep links are followed is no part of what a walk does. A walk that does not meet
it is the same walk with every larger bound (`Walker.walkPruned_eq_of_hops_le`), so a walk that ends
with some bound is over.

A walk never meets its bound when every block it comes to costs something of which there is less
than that many (`maintains_follow_of_counted`): a unit of a budget, or a link that had not been met
before. What is counted is a parameter.
-/

namespace DagSelect

variable {σ α β : Type}

/-! ## More hops -/

/-- Unless the first runs out of hops, the second does the same. -/
def Action.Completes (x y : Action σ α) : Prop :=
  ∀ run, (∃ run', x run = .error .outOfHops run') ∨ y run = x run

namespace Action

theorem completes_refl (x : Action σ α) : Completes x x := fun _ => .inr rfl

theorem Completes.bind {x y : Action σ α} {f g : α → Action σ β}
    (h : Completes x y) (hnext : ∀ a, Completes (f a) (g a)) : Completes (x >>= f) (y >>= g) := by
  intro run
  rcases h run with ⟨run', hends⟩ | hsame
  · exact .inl ⟨run', bind_run_of_error hends⟩
  · rw [bind_run, bind_run, hsame]
    cases x run with
    | ok a run' => exact hnext a run'
    | error halt run' => exact .inr rfl

theorem completes_forM {xs : List α} {f g : α → Action σ Unit}
    (h : ∀ x ∈ xs, Completes (f x) (g x)) : Completes (forM xs f) (forM xs g) := by
  induction xs with
  | nil => exact completes_refl _
  | cons x xs ih =>
    rw [List.forM_cons, List.forM_cons]
    exact (h x List.mem_cons_self).bind fun _ => ih fun y hy => h y (List.mem_cons_of_mem x hy)

end Action

open DagSelect.Action

section

variable {prune : Pruning} {visitor : Visitor σ}

theorem completes_walkBlock {f g : Follow σ} (h : ∀ l p s, Completes (f l p s) (g l p s)) (n : Node)
    (p : Progress) (s : Selector) :
    Completes (walkBlock prune visitor f n p s) (walkBlock prune visitor g n p s) := by
  suffices step : n.Everywhere fun n => ∀ p s,
      Completes (walkBlock prune visitor f n p s) (walkBlock prune visitor g n p s)
        from step.here p s
  refine Node.everywhere_of_step (fun n below p s => ?_) n
  rw [walkBlock_eq, walkBlock_eq]
  refine (completes_refl _).bind fun _ => completes_forM fun e he => ?_
  have hchild := (below e (mem_of_mem_keepPicked he)).here
  cases s.explore? n e.1 with
  | none => exact completes_refl _
  | some next =>
    simp only [enter]
    cases e.2.link? with
    | none => exact hchild _ _
    | some l => exact h l _ _

variable {config : Config} {hops hops' : Nat} (hhops : hops ≤ hops')

include hhops

theorem completes_follow (l : Link) (p : Progress) (s : Selector) :
    Completes (follow prune config visitor hops l p s)
      (follow prune config visitor hops' l p s) := by
  cases hloader : config.loader with
  | none =>
    rw [follow_of_loader_eq_none hloader, follow_of_loader_eq_none hloader]
    exact completes_refl _
  | some loader =>
    induction hops generalizing hops' l p s with
    | zero =>
      rw [follow_zero_of_loader hloader]
      exact fun run => .inl ⟨run, rfl⟩
    | succ hops ih =>
      obtain ⟨hops', rfl⟩ := Nat.exists_eq_add_one_of_ne_zero (Nat.ne_zero_of_lt hhops)
      rw [follow_succ_of_loader hloader, follow_succ_of_loader hloader]
      refine (completes_refl _).bind fun found => ?_
      cases found with
      | none => exact completes_refl _
      | some block =>
        exact completes_walkBlock (ih (Nat.le_of_succ_le_succ hhops)) block (p.cross l) s

/-- Unless it runs out of hops, a walk does the same with more of them. -/
theorem completes_enter (n : Node) (p : Progress) (s : Selector) :
    Completes (enter prune visitor (follow prune config visitor hops) n p s)
      (enter prune visitor (follow prune config visitor hops') n p s) := by
  unfold enter
  cases n.link? with
  | some l => exact completes_follow hhops l p s
  | none => exact completes_walkBlock (completes_follow hhops) n p s

end

section

variable {config : Config} {hops hops' : Nat} (hhops : hops ≤ hops')

include hhops

theorem completes_resolve (p : Progress) (n : Node) :
    Completes (σ := σ) (resolve config hops p n) (resolve config hops' p n) := by
  refine resolve_rec (P := fun hops p n x => ∀ hops', hops ≤ hops' →
    Completes x (resolve config hops' p n)) ?_ ?_ ?_ hops p n hops' hhops
  · intro hops p n h hops' _
    rw [resolve_of_stands h]
    exact completes_refl _
  · exact fun loader p l _ hops' _ run => .inl ⟨run, rfl⟩
  · intro loader hops p l hloader ih hops' hle
    obtain ⟨hops', rfl⟩ := Nat.exists_eq_add_one_of_ne_zero (Nat.ne_zero_of_lt hle)
    rw [resolve_succ_link hloader]
    refine (completes_refl _).bind fun found => ?_
    cases found with
    | none => exact completes_refl _
    | some block => exact ih block hops' (Nat.le_of_succ_le_succ hle)

/-- Unless it runs out of hops, following a path does the same with more of them. -/
theorem completes_locate (p : Progress) (n : Node) (segments : List Segment) :
    Completes (σ := σ) (locate config hops p n segments) (locate config hops' p n segments) := by
  induction segments generalizing p n with
  | nil => exact completes_resolve hhops p n
  | cons s rest ih =>
    rw [locate_cons, locate_cons]
    refine (completes_resolve hhops p n).bind fun found => ?_
    cases found.2.get? s with
    | none => exact completes_refl _
    | some child => exact ih (found.1.push s) child

end

/-- A walk that ends is the same walk with every larger bound on the hops. -/
theorem Walker.walkPruned_eq_of_hops_le {w : Walker} {prune : Pruning} {hops hops' : Nat}
    (hhops : hops ≤ hops') {root : Node} {s : Selector} {visitor : Visitor σ} {state : σ}
    (hends : (w.walkPruned prune hops root s visitor state).1.outcome ≠ .unfinished) :
    w.walkPruned prune hops' root s visitor state =
      w.walkPruned prune hops root s visitor state := by
  rw [walkPruned_eq] at hends
  rw [walkPruned_eq, walkPruned_eq]
  rcases completes_enter hhops root .start s ((new w.config).begin state) with ⟨run, hout⟩ | hsame
  · rw [hout] at hends
    exact absurd rfl hends
  · rw [hsame]

/-! ## Hops enough -/

section

variable {config : Config} {prune : Pruning} {visitor : Visitor σ} {I : Nat → Run σ → Prop}

/-- Something of which there is less than hops, and of which every block costs some, runs out before
the hops do. -/
theorem maintains_follow_of_counted (hzero : ∀ run, ¬ I 0 run)
    (hmono : ∀ hops run, I hops run → I (hops + 1) run)
    (hvisit : ∀ hops v, Maintains (I hops) (fun halt _ => halt ≠ .outOfHops) (visit visitor v))
    (hload : ∀ loader, config.loader = some loader → ∀ hops l p,
      Triple (I (hops + 1)) (load config.once loader l p)
        (fun found => I (if found.isSome then hops else hops + 1))
        (fun halt _ => halt ≠ .outOfHops))
    (hops : Nat) (l : Link) (p : Progress) (s : Selector) :
    Maintains (I hops) (fun halt _ => halt ≠ .outOfHops)
      (follow prune config visitor hops l p s) := by
  cases hloader : config.loader with
  | none =>
    rw [follow_of_loader_eq_none hloader]
    exact hvisit hops _
  | some loader =>
    induction hops generalizing l p s with
    | zero => exact fun run hrun => absurd hrun (hzero run)
    | succ hops ih =>
      rw [follow_succ_of_loader hloader]
      refine (hload loader hloader hops l p).bind fun found => ?_
      cases found with
      | none => exact maintains_pure ()
      | some block =>
        exact (maintains_walkBlock_of_visits (hvisit hops) ih block (p.cross l) s).of_imp
          fun _ run h => hmono hops run h

end

/-- A walk of which it is known that it does not run out of hops is over. -/
theorem Walker.outcome_ne_unfinished {I : Run σ → Prop} {w : Walker} {prune : Pruning} {hops : Nat}
    {root : Node} {s : Selector} {visitor : Visitor σ} {state : σ}
    (h : Maintains I (fun halt _ => halt ≠ .outOfHops)
      (enter prune visitor (follow prune w.config visitor hops) root .start s))
    (hbegin : I ((new w.config).begin state)) :
    (w.walkPruned prune hops root s visitor state).1.outcome ≠ .unfinished := by
  obtain ⟨outcome, run, heq, hend⟩ := exists_run_of_maintains h hbegin
  rw [heq]
  rcases hend with ⟨-, rfl⟩ | ⟨halt, hhalt, rfl⟩
  · rintro ⟨⟩
  · cases halt with
    | outOfHops => exact absurd rfl hhalt
    | failed e => cases e <;> rintro ⟨⟩

end DagSelect
