import DagSelect.Proofs.Walk.Ensures
import DagSelect.Proofs.Walk.Undisturbed

/-!
# What a walk maintains

A walk does nothing but visit and load. So what is maintained by every visit and by every load is
maintained by every walk (`maintains_enter`), whatever the selector and wherever the links lead, and
no fact about whole walks needs an induction of its own.

A walk may be over before its time. `Action.Triple` therefore also says what is known where a step
ends the run: the reason is at hand there, other than in `Action.Ensures`.
-/

namespace DagSelect

variable {σ α β : Type}

namespace Action

/-- Taken in a run of which `pre` is true, the step gives a value and leaves a run of which `post`
is true, or it ends the run, and then `ended` is true of the reason and of the run. -/
def Triple (pre : Run σ → Prop) (x : Action σ α) (post : α → Run σ → Prop)
    (ended : Halt → Run σ → Prop) : Prop :=
  ∀ run, pre run → match x run with
    | .ok a run' => post a run'
    | .error halt run' => ended halt run'

/-- What is true of a run stays true of it as long as the step goes on. -/
def Maintains (I : Run σ → Prop) (ended : Halt → Run σ → Prop) (x : Action σ α) : Prop :=
  Triple I x (fun _ => I) ended

variable {I : Run σ → Prop} {ended : Halt → Run σ → Prop}

theorem Triple.bind {pre : Run σ → Prop} {mid : α → Run σ → Prop} {post : β → Run σ → Prop}
    {x : Action σ α} {next : α → Action σ β} (hx : Triple pre x mid ended)
    (hnext : ∀ a, Triple (mid a) (next a) post ended) : Triple pre (x >>= next) post ended := by
  intro run hrun
  have h := hx run hrun
  rw [bind_run]
  cases hstep : x run with
  | ok a run' =>
    rw [hstep] at h
    exact hnext a run' h
  | error halt run' =>
    rw [hstep] at h
    exact h

theorem Triple.of_imp {pre : Run σ → Prop} {post post' : α → Run σ → Prop} {x : Action σ α}
    (h : Triple pre x post ended) (himp : ∀ a run, post a run → post' a run) :
    Triple pre x post' ended := by
  intro run hrun
  have hx := h run hrun
  cases hstep : x run with
  | ok a run' =>
    rw [hstep] at hx
    exact himp a run' hx
  | error halt run' =>
    rw [hstep] at hx
    exact hx

theorem maintains_pure (a : α) : Maintains I ended (pure a) := fun _ hrun => hrun

theorem maintains_throw {halt : Halt} (h : ∀ run, I run → ended halt run) :
    Maintains (α := α) I ended (throw halt) := h

theorem Maintains.bind {x : Action σ α} {next : α → Action σ β} (hx : Maintains I ended x)
    (hnext : ∀ a, Maintains I ended (next a)) : Maintains I ended (x >>= next) :=
  Triple.bind hx hnext

theorem maintains_forM {xs : List α} {f : α → Action σ Unit}
    (h : ∀ x ∈ xs, Maintains I ended (f x)) : Maintains I ended (forM xs f) := by
  induction xs with
  | nil => exact maintains_pure ()
  | cons x xs ih =>
    rw [List.forM_cons]
    exact (h x List.mem_cons_self).bind fun _ => ih fun y hy => h y (List.mem_cons_of_mem x hy)

/-- A visit that cannot be afforded changes nothing; one that can is an event. -/
theorem triple_visit {pre post : Run σ → Prop} {visitor : Visitor σ} {v : Visit}
    (hrefused : ∀ run, pre run → run.spend? .node = none →
      ended (.failed (.budgetExceeded .node v.progress.path none)) run)
    (hvisit : ∀ run run', pre run → run.spend? .node = some run' →
      (∀ state, visitor run'.visitor v = .ok state →
        post { run'.record (.visit v) with visitor := state }) ∧
      ∀ e, visitor run'.visitor v = .error e → ended (.failed e) (run'.record (.visit v))) :
    Triple pre (visit visitor v) (fun _ => post) ended := by
  intro run hrun
  rw [visit_run]
  cases hspend : run.spend? .node with
  | none => exact hrefused run hrun hspend
  | some run' =>
    obtain ⟨hok, herror⟩ := hvisit run run' hrun hspend
    simp only [handed]
    cases hvisitor : visitor run'.visitor v with
    | ok state => exact hok state hvisitor
    | error e => exact herror e hvisitor

/-- So is a load that can be afforded, whatever comes of it. -/
theorem triple_load {pre : Run σ → Prop} {post : Option Node → Run σ → Prop} {once : Bool}
    {loader : Loader} {l : Link} {p : Progress}
    (hmet : ∀ run, pre run → once = true → l ∈ run.seen → post none run)
    (hrefused : ∀ run, pre run → (run.meet once l).spend? .link = none →
      ended (.failed (.budgetExceeded .link p.path (some l))) (run.meet once l))
    (hload : ∀ run run', pre run → ¬(once = true ∧ l ∈ run.seen) →
      (run.meet once l).spend? .link = some run' →
      (∀ block, loader l p = .ok block → post (some block) (run'.record (.load l p))) ∧
      (loader l p = .error .skip → post none (run'.record (.load l p))) ∧
      ∀ e, loader l p = .error e → ended (.failed (.load l p.path e)) (run'.record (.load l p))) :
    Triple pre (load once loader l p) post ended := by
  intro run hrun
  rw [load_run]
  by_cases hseen : once = true ∧ l ∈ run.seen
  · rw [if_pos hseen]
    exact hmet run hrun hseen.1 hseen.2
  · rw [if_neg hseen]
    cases hspend : (run.meet once l).spend? .link with
    | none => exact hrefused run hrun hspend
    | some run' =>
      obtain ⟨hok, hskip, herror⟩ := hload run run' hrun hseen hspend
      simp only [asked]
      cases hblock : loader l p with
      | ok block => exact hok block hblock
      | error e =>
        cases e with
        | skip => exact hskip hblock
        | _ => exact herror _ hblock

theorem maintains_load {once : Bool} {loader : Loader} {l : Link} {p : Progress}
    (hrefused : ∀ run, I run → (run.meet once l).spend? .link = none →
      ended (.failed (.budgetExceeded .link p.path (some l))) (run.meet once l))
    (hload : ∀ run run', I run → ¬(once = true ∧ l ∈ run.seen) →
      (run.meet once l).spend? .link = some run' →
      I (run'.record (.load l p)) ∧
      ∀ e, loader l p = .error e → ended (.failed (.load l p.path e)) (run'.record (.load l p))) :
    Maintains I ended (load once loader l p) :=
  triple_load (fun _ h _ _ => h) hrefused fun run run' h hmet hspend =>
    have ⟨hok, herror⟩ := hload run run' h hmet hspend
    ⟨fun _ _ => hok, fun _ => hok, herror⟩

end Action

/-! ## Walks -/

open DagSelect.Action

section

variable {I : Run σ → Prop} {ended : Halt → Run σ → Prop} {prune : Pruning} {visitor : Visitor σ}

/-- In the walk of a node that is no link only such nodes are visited, since a link is left to
whoever follows links. -/
theorem maintains_walkBlock {follow : Follow σ}
    (hvisit : ∀ v, v.node.link? = none → Maintains I ended (Action.visit visitor v))
    (hfollow : ∀ l p s, Maintains I ended (follow l p s)) {n : Node} (hn : n.link? = none)
    (p : Progress) (s : Selector) : Maintains I ended (walkBlock prune visitor follow n p s) := by
  suffices step : n.Everywhere fun n => n.link? = none → ∀ p s,
      Maintains I ended (walkBlock prune visitor follow n p s) from step.here hn p s
  refine Node.everywhere_of_step (fun n below hn p s => ?_) n
  rw [walkBlock_eq]
  refine (hvisit _ hn).bind fun _ => maintains_forM fun e he => ?_
  have hchild := (below e (mem_of_mem_keepPicked he)).here
  cases s.explore? n e.1 with
  | none => exact maintains_pure ()
  | some next =>
    simp only [enter]
    cases hlink : e.2.link? with
    | none => exact hchild hlink _ _
    | some l => exact hfollow l _ _

theorem maintains_enter_of_follow {follow : Follow σ}
    (hvisit : ∀ v, v.node.link? = none → Maintains I ended (Action.visit visitor v))
    (hfollow : ∀ l p s, Maintains I ended (follow l p s)) (n : Node) (p : Progress) (s : Selector) :
    Maintains I ended (enter prune visitor follow n p s) := by
  unfold enter
  cases hlink : n.link? with
  | some l => exact hfollow l p s
  | none => exact maintains_walkBlock hvisit hfollow hlink p s

section

variable {config : Config} (hvisit : ∀ v, Maintains I ended (Action.visit visitor v))

include hvisit

theorem maintains_walkBlock_of_visits {follow : Follow σ}
    (hfollow : ∀ l p s, Maintains I ended (follow l p s)) (n : Node) (p : Progress) (s : Selector) :
    Maintains I ended (walkBlock prune visitor follow n p s) := by
  cases hlink : n.link? with
  | none => exact maintains_walkBlock (fun v _ => hvisit v) hfollow hlink p s
  | some l =>
    rw [Node.link?_eq_some_iff.1 hlink, walkBlock_link]
    exact hvisit _

variable (hload : ∀ loader, config.loader = some loader → ∀ l p,
    Maintains I ended (load config.once loader l p))
  (hhops : ∀ run, I run → ended .outOfHops run)

include hload hhops

theorem maintains_follow (hops : Nat) (l : Link) (p : Progress) (s : Selector) :
    Maintains I ended (follow prune config visitor hops l p s) := by
  cases hloader : config.loader with
  | none =>
    rw [follow_of_loader_eq_none hloader]
    exact hvisit _
  | some loader =>
    induction hops generalizing l p s with
    | zero =>
      rw [follow_zero_of_loader hloader]
      exact maintains_throw hhops
    | succ hops ih =>
      rw [follow_succ_of_loader hloader]
      refine (hload loader hloader l p).bind fun found => ?_
      cases found with
      | none => exact maintains_pure ()
      | some block => exact maintains_walkBlock_of_visits hvisit ih block (p.cross l) s

/-- What visits and loads maintain, walks maintain. -/
theorem maintains_enter (hops : Nat) (n : Node) (p : Progress) (s : Selector) :
    Maintains I ended (enter prune visitor (follow prune config visitor hops) n p s) :=
  maintains_enter_of_follow (fun v _ => hvisit v) (maintains_follow hvisit hload hhops hops) n p s

end

end

/-! ## The run of a whole walk -/

namespace Walker

variable {w : Walker} {prune : Pruning} {hops : Nat} {root : Node} {s : Selector}
  {visitor : Visitor σ} {state : σ}

/-- What is maintained is true of the run in the end, if it is true when the run begins. -/
theorem exists_run_of_maintains {I : Run σ → Prop} {ended : Halt → Run σ → Prop}
    (h : Maintains I ended (enter prune visitor (follow prune w.config visitor hops) root .start s))
    (hbegin : I ((new w.config).begin state)) :
    ∃ outcome run, w.walkPruned prune hops root s visitor state =
        (⟨outcome, run.log, run.visitor⟩, (new w.config).leave run) ∧
      ((I run ∧ outcome = .done) ∨ ∃ halt, ended halt run ∧ outcome = halt.outcome) := by
  have hend := h _ hbegin
  rw [walkPruned_eq]
  split at hend
  · next run heq =>
    rw [heq]
    exact ⟨.done, run, rfl, .inl ⟨hend, rfl⟩⟩
  · next halt run heq =>
    rw [heq]
    exact ⟨halt.outcome, run, rfl, .inr ⟨halt, hend, rfl⟩⟩

end Walker

end DagSelect
