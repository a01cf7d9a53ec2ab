import DagSelect.Proofs.Walk.Maintains
import DagSelect.Proofs.Walk.Spending

/-!
# Two walks side by side

Walks of one document with one selector under different settings, or with different visitors, come
to the same places in the same order for as long as both go on. `Action.Tracks` compares two steps
taken side by side. It is closed under everything that walks are made of, so that two walks are
compared by comparing their visits and their loads.

The relation between the two runs is a parameter, and so is what becomes of the second walk where it
goes on beyond the end of the first.
-/

namespace DagSelect

variable {σ τ α β : Type}

namespace Action

def left : EStateM.Result Halt (Run σ) α → Run σ
  | .ok _ run => run
  | .error _ run => run

/-- What has been done stays done. -/
def Extends (x : Action σ α) : Prop :=
  ∀ es, Maintains (fun run => es <+: run.log) (fun _ run => es <+: run.log) x

theorem Extends.log_prefix {x : Action σ α} (h : Extends x) (run : Run σ) :
    run.log <+: (left (x run)).log := by
  have hx := h run.log run List.prefix_rfl
  cases hstep : x run with
  | ok a run' =>
    rw [hstep] at hx
    exact hx
  | error halt run' =>
    rw [hstep] at hx
    exact hx

theorem extends_pure (a : α) : Extends (σ := σ) (pure a) := fun _ => maintains_pure a

theorem extends_throw (halt : Halt) : Extends (σ := σ) (α := α) (throw halt) :=
  fun _ => maintains_throw fun _ h => h

theorem Extends.bind {x : Action σ α} {next : α → Action σ β} (hx : Extends x)
    (hnext : ∀ a, Extends (next a)) : Extends (x >>= next) :=
  fun es => (hx es).bind fun a => hnext a es

theorem extends_visit (visitor : Visitor σ) (v : Visit) : Extends (visit visitor v) := by
  refine fun es => triple_visit (fun _ h _ => h) fun run run' h hspend => ?_
  obtain ⟨budget, rfl⟩ := Run.exists_budget_of_spend? hspend
  have hmore : es <+: (run.record (.visit v)).log := by
    rw [Run.log_record]
    exact h.trans (List.prefix_append _ _)
  exact ⟨fun _ _ => hmore, fun _ _ => hmore⟩

theorem extends_load (once : Bool) (loader : Loader) (l : Link) (p : Progress) :
    Extends (σ := σ) (load once loader l p) := by
  refine fun es => maintains_load (fun run h _ => ?_) fun run run' h _ hspend => ?_
  · rwa [Run.log_meet]
  · obtain ⟨budget, rfl⟩ := Run.exists_budget_of_spend? hspend
    have hmore : es <+: ((run.meet once l).record (.load l p)).log := by
      rw [Run.log_record, Run.log_meet]
      exact h.trans (List.prefix_append _ _)
    exact ⟨hmore, fun _ _ => hmore⟩

theorem extends_follow (prune : Pruning) (config : Config) (visitor : Visitor σ) (hops : Nat)
    (l : Link) (p : Progress) (s : Selector) : Extends (follow prune config visitor hops l p s) :=
  fun es => maintains_follow (fun v => extends_visit visitor v es)
    (fun loader _ l p => extends_load config.once loader l p es) (fun _ h => h) hops l p s

/-- Taken in runs that `R` relates, the second step does what the first does: it goes on to the same
value, or ends its run for the same reason, and the runs are related again. Or the first ends its
run and the second need not: then `Cut` is true of the reason and of what has been done in
either. -/
structure Tracks (R : Run σ → Run τ → Prop) (Cut : Halt → List Event → List Event → Prop)
    (x : Action σ α) (y : Action τ α) : Prop where
  grows : Extends y
  step : ∀ run run', R run run' → match x run with
    | .ok a next => ∃ next', y run' = .ok a next' ∧ R next next'
    | .error halt last => (∃ last', y run' = .error halt last' ∧ R last last') ∨
        Cut halt last.log (left (y run')).log

/-- What is true of a walk that was cut short and of another one stays true as the other goes on. -/
def Lasting (Cut : Halt → List Event → List Event → Prop) : Prop :=
  ∀ ⦃halt es fs gs⦄, Cut halt es fs → fs <+: gs → Cut halt es gs

section

variable {R : Run σ → Run τ → Prop} {Cut : Halt → List Event → List Event → Prop}

theorem tracks_pure (a : α) : Tracks R Cut (pure a) (pure a) where
  grows := extends_pure a
  step _ run' h := ⟨run', rfl, h⟩

theorem tracks_throw (halt : Halt) : Tracks (α := α) R Cut (throw halt) (throw halt) where
  grows := extends_throw halt
  step _ run' h := .inl ⟨run', rfl, h⟩

variable (hcut : Lasting Cut)

include hcut

theorem Tracks.bind {x : Action σ α} {y : Action τ α} {f : α → Action σ β} {g : α → Action τ β}
    (hx : Tracks R Cut x y) (hnext : ∀ a, Tracks R Cut (f a) (g a)) :
    Tracks R Cut (x >>= f) (y >>= g) where
  grows := hx.grows.bind fun a => (hnext a).grows
  step run run' h := by
    have hxy := hx.step run run' h
    rw [bind_run]
    cases hstep : x run with
    | ok a next =>
      rw [hstep] at hxy
      obtain ⟨next', hy, hR⟩ := hxy
      rw [bind_run_of_ok hy]
      exact (hnext a).step next next' hR
    | error halt last =>
      rw [hstep] at hxy
      rcases hxy with ⟨last', hy, hR⟩ | hlog
      · exact .inl ⟨last', bind_run_of_error hy, hR⟩
      · refine .inr (hcut hlog ?_)
        -- What the second does from here on is added to what it has done.
        rw [bind_run]
        cases y run' with
        | ok a next' => exact (hnext a).grows.log_prefix next'
        | error halt' last' => exact List.prefix_rfl

theorem tracks_forM {xs : List α} {f : α → Action σ Unit} {g : α → Action τ Unit}
    (h : ∀ x ∈ xs, Tracks R Cut (f x) (g x)) : Tracks R Cut (forM xs f) (forM xs g) := by
  induction xs with
  | nil => exact tracks_pure ()
  | cons x xs ih =>
    rw [List.forM_cons, List.forM_cons]
    exact (h x List.mem_cons_self).bind hcut fun _ => ih fun y hy => h y (List.mem_cons_of_mem x hy)

variable {prune : Pruning} {visitor : Visitor σ} {visitor' : Visitor τ}
  (hvisit : ∀ v, Tracks R Cut (Action.visit visitor v) (Action.visit visitor' v))
  {f : Follow σ} {g : Follow τ} (hfollow : ∀ l p s, Tracks R Cut (f l p s) (g l p s))

include hvisit hfollow

theorem tracks_walkBlock (n : Node) (p : Progress) (s : Selector) :
    Tracks R Cut (walkBlock prune visitor f n p s) (walkBlock prune visitor' g n p s) := by
  suffices step : n.Everywhere fun n => ∀ p s,
      Tracks R Cut (walkBlock prune visitor f n p s) (walkBlock prune visitor' g n p s) from
    step.here p s
  refine Node.everywhere_of_step (fun n below p s => ?_) n
  rw [walkBlock_eq, walkBlock_eq]
  refine (hvisit _).bind hcut fun _ => tracks_forM hcut fun e he => ?_
  have hchild := (below e (mem_of_mem_keepPicked he)).here
  cases s.explore? n e.1 with
  | none => exact tracks_pure ()
  | some next =>
    simp only [enter]
    cases e.2.link? with
    | none => exact hchild _ _
    | some l => exact hfollow l _ _

theorem tracks_enter (n : Node) (p : Progress) (s : Selector) :
    Tracks R Cut (enter prune visitor f n p s) (enter prune visitor' g n p s) := by
  unfold enter
  split
  · exact hfollow _ p s
  · exact tracks_walkBlock hcut hvisit hfollow n p s

end

/-- Links are followed side by side as long as they are loaded so. The second walk may have more
hops. -/
theorem tracks_follow (hcut : Lasting Cut) {prune : Pruning} {visitor : Visitor σ}
    {visitor' : Visitor τ} (hvisit : ∀ v, Tracks R Cut (visit visitor v) (visit visitor' v))
    {config config' : Config} (hloader : config'.loader = config.loader)
    (hload : ∀ loader, config.loader = some loader → ∀ l p,
      Tracks R Cut (load config.once loader l p) (load config'.once loader l p))
    {hops hops' : Nat} (hhops : hops ≤ hops')
    (hmore : hops < hops' → ∀ y : Action τ Unit, Extends y → Tracks R Cut (throw .outOfHops) y)
    (l : Link) (p : Progress) (s : Selector) :
    Tracks R Cut (follow prune config visitor hops l p s)
      (follow prune config' visitor' hops' l p s) := by
  cases hconfig : config.loader with
  | none =>
    rw [follow_of_loader_eq_none hconfig, follow_of_loader_eq_none (hloader.trans hconfig)]
    exact hvisit _
  | some loader =>
    have hconfig' : config'.loader = some loader := hloader.trans hconfig
    induction hops generalizing hops' l p s with
    | zero =>
      rw [follow_zero_of_loader hconfig]
      rcases Nat.eq_zero_or_pos hops' with rfl | hpos
      · rw [follow_zero_of_loader hconfig']
        exact tracks_throw _
      · exact hmore hpos _ (extends_follow prune config' visitor' hops' l p s)
    | succ hops ih =>
      obtain ⟨hops', rfl⟩ := Nat.exists_eq_add_one_of_ne_zero (Nat.ne_zero_of_lt hhops)
      rw [follow_succ_of_loader hconfig, follow_succ_of_loader hconfig']
      refine (hload loader hconfig l p).bind hcut fun found => ?_
      cases found with
      | none => exact tracks_pure ()
      | some block =>
        refine tracks_walkBlock hcut hvisit (ih (Nat.le_of_succ_le_succ hhops) ?_) block _ s
        exact fun hless => hmore (Nat.succ_lt_succ hless)

end Action

/-! ## The runs of two whole walks -/

namespace Walker

/-- Two walks side by side either end alike, in runs that are related, or the first is cut short. -/
theorem exists_runs_of_tracks {R : Run σ → Run τ → Prop}
    {Cut : Halt → List Event → List Event → Prop} (w w' : Walker) {prune : Pruning}
    {hops hops' : Nat} {root : Node} {s : Selector} {visitor : Visitor σ} {visitor' : Visitor τ}
    {state : σ} {state' : τ}
    (h : Action.Tracks R Cut
      (enter prune visitor (follow prune w.config visitor hops) root .start s)
      (enter prune visitor' (follow prune w'.config visitor' hops') root .start s))
    (hbegin : R ((new w.config).begin state) ((new w'.config).begin state')) :
    ∃ outcome outcome' run run',
      (w.walkPruned prune hops root s visitor state).1 = ⟨outcome, run.log, run.visitor⟩ ∧
      (w'.walkPruned prune hops' root s visitor' state').1 = ⟨outcome', run'.log, run'.visitor⟩ ∧
      ((outcome' = outcome ∧ R run run') ∨
        ∃ halt, outcome = halt.outcome ∧ Cut halt run.log run'.log) := by
  have hends := h.step _ _ hbegin
  rw [walkPruned_eq, walkPruned_eq]
  split at hends
  · next run heq =>
    obtain ⟨run', heq', hR⟩ := hends
    rw [heq, heq']
    exact ⟨_, _, run, run', rfl, rfl, .inl ⟨rfl, hR⟩⟩
  · next halt run heq =>
    simp only [heq]
    rcases hends with ⟨run', heq', hR⟩ | hlog
    · rw [heq']
      exact ⟨_, _, run, run', rfl, rfl, .inl ⟨rfl, hR⟩⟩
    · split <;>
      · next run' heq' =>
        rw [heq'] at hlog
        exact ⟨_, _, run, run', rfl, rfl, .inr ⟨halt, rfl, hlog⟩⟩

end Walker

end DagSelect
