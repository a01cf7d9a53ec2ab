import DagSelect.Proofs.Walk.Run

/-!
# What is true before and behind a step

`Action.Ensures` is the rule by which facts about the state are followed through a walk: what is
true of the run before a step, what is true of it and of the value of the step behind it, and what
is true where the step ends the run for good. The events are no exception from this, so what an
ended run has done is spoken of in the same way as what the run goes on from.

A fact that every step keeps, `Action.Keeps`, is kept by sequences and loops, and in the end it is
true of the run that a walk reports.
-/

namespace DagSelect

variable {σ α β : Type}

namespace Action

/-- Taken in a run of which `pre` is true, the step gives a value and leaves a run of which `post`
is true, or it ends the run, and then `halted` is true of it. -/
def Ensures (pre : Run σ → Prop) (x : Action σ α) (post : α → Run σ → Prop)
    (halted : Run σ → Prop) : Prop :=
  ∀ run, pre run → match x run with
    | .ok a run' => post a run'
    | .error _ run' => halted run'

/-- What is true of a run stays true of it, also where the step ends it. -/
def Keeps (I : Run σ → Prop) (x : Action σ α) : Prop := Ensures I x (fun _ => I) I

variable {pre I J halted : Run σ → Prop}

theorem Ensures.of_imp {post post' : α → Run σ → Prop} {x : Action σ α}
    (h : Ensures pre x post halted) (hpost : ∀ a run, post a run → post' a run)
    (hhalted : ∀ run, halted run → J run) : Ensures pre x post' J := by
  intro run hrun
  have hx := h run hrun
  cases hstep : x run with
  | ok a run' =>
    rw [hstep] at hx
    exact hpost a run' hx
  | error halt run' =>
    rw [hstep] at hx
    exact hhalted run' hx

theorem Ensures.bind {mid : α → Run σ → Prop} {post : β → Run σ → Prop} {x : Action σ α}
    {next : α → Action σ β} (hx : Ensures pre x mid halted)
    (hnext : ∀ a, Ensures (mid a) (next a) post halted) : Ensures pre (x >>= next) post halted := by
  intro run hrun
  have h := hx run hrun
  rw [bind_run]
  cases hstep : x run with
  | ok a run' =>
    rw [hstep] at h
    exact hnext a run' h
  | error halt run' =>
    rw [hstep] at h
    exact h

theorem Ensures.and {post post' : α → Run σ → Prop} {pre' halted' : Run σ → Prop}
    {x : Action σ α} (h : Ensures pre x post halted) (h' : Ensures pre' x post' halted') :
    Ensures (fun run => pre run ∧ pre' run) x (fun a run => post a run ∧ post' a run)
      (fun run => halted run ∧ halted' run) := by
  intro run hrun
  have hx := h run hrun.1
  have hx' := h' run hrun.2
  cases hstep : x run with
  | ok a run' =>
    rw [hstep] at hx hx'
    exact ⟨hx, hx'⟩
  | error halt run' =>
    rw [hstep] at hx hx'
    exact ⟨hx, hx'⟩

theorem keeps_pure (a : α) : Keeps I (pure a) := fun _ hrun => hrun

theorem keeps_throw (halt : Halt) : Keeps (α := α) I (throw halt) := fun _ hrun => hrun

theorem Keeps.bind {x : Action σ α} {next : α → Action σ β} (hx : Keeps I x)
    (hnext : ∀ a, Keeps I (next a)) : Keeps I (x >>= next) :=
  Ensures.bind hx hnext

theorem keeps_forM {xs : List α} {f : α → Action σ Unit} (h : ∀ x ∈ xs, Keeps I (f x)) :
    Keeps I (forM xs f) := by
  induction xs with
  | nil => exact keeps_pure ()
  | cons x xs ih =>
    rw [List.forM_cons]
    exact (h x List.mem_cons_self).bind fun _ => ih fun y hy => h y (List.mem_cons_of_mem x hy)

/-- What is true of everything that a step adds to the events is kept true of all events. -/
theorem Logs.keeps {Q : Event → Prop} {x : Action σ α} (h : Logs Q (fun _ => True) x) :
    Keeps (fun run => ∀ e ∈ run.events, Q e) x := by
  intro run hrun
  have hx := h run hrun
  cases hstep : x run with
  | ok a run' =>
    rw [hstep] at hx
    exact hx
  | error halt run' =>
    rw [hstep] at hx
    exact hx.2

end Action

/-- What is true of a run when it begins and is kept by all of its steps is true of it in the
end. -/
theorem Walker.exists_run_of_keeps {I : Run σ → Prop} {w : Walker} {prune : Pruning} {hops : Nat}
    {root : Node} {s : Selector} {visitor : Visitor σ} {state : σ}
    (h : Action.Keeps I (enter prune visitor (follow prune w.config visitor hops) root .start s))
    (hbegin : I ((Walker.new w.config).begin state)) :
    ∃ run, I run ∧
      (w.walkPruned prune hops root s visitor state).1.events = run.events.toList := by
  have hend := h _ hbegin
  rw [walkPruned_fst]
  split at hend
  · next run heq =>
    rw [heq]
    exact ⟨run, hend, rfl⟩
  · next halt run heq =>
    rw [heq]
    exact ⟨run, hend, rfl⟩

end DagSelect
