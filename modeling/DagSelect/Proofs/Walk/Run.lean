import DagSelect.Proofs.Walk.Steps

/-!
# What the steps do to a run

Each step of a walk as a function of the run it is taken in. Spending is the only thing a step does
before it leaves a mark on the run, so a step that is refused for want of budget is told apart by
`Run.spend?` alone. Everything that is proved about the states that a walk passes through starts
from `Action.visit_run` and `Action.load_run`.
-/

namespace DagSelect

variable {σ α β : Type}

namespace Run

def spend? (run : Run σ) (resource : Resource) : Option (Run σ) :=
  match run.budget with
  | none => some run
  | some budget => (budget.spend? resource).map fun rest => { run with budget := some rest }

def record (run : Run σ) (e : Event) : Run σ := { run with events := run.events.push e }

def meet (run : Run σ) (once : Bool) (l : Link) : Run σ :=
  if once then { run with seen := l :: run.seen } else run

def log (run : Run σ) : List Event := run.events.toList

@[simp] theorem log_record (run : Run σ) (e : Event) : (run.record e).log = run.log ++ [e] := by
  simp [log, record]

@[simp] theorem log_meet (run : Run σ) (once : Bool) (l : Link) :
    (run.meet once l).log = run.log := by
  cases once <;> rfl

def visits (run : Run σ) : List Visit := run.log.filterMap Event.visit?

@[simp] theorem visits_record_visit (run : Run σ) (v : Visit) :
    (run.record (.visit v)).visits = run.visits ++ [v] := by
  simp [visits, Event.visit?]

@[simp] theorem visits_record_load (run : Run σ) (l : Link) (p : Progress) :
    (run.record (.load l p)).visits = run.visits := by
  simp [visits, Event.visit?]

@[simp] theorem visits_meet (run : Run σ) (once : Bool) (l : Link) :
    (run.meet once l).visits = run.visits := by
  rw [visits, log_meet, visits]

def loads (run : Run σ) : List (Link × Progress) := run.log.filterMap Event.load?

@[simp] theorem loads_record_load (run : Run σ) (l : Link) (p : Progress) :
    (run.record (.load l p)).loads = run.loads ++ [(l, p)] := by
  simp [loads, Event.load?]

@[simp] theorem loads_meet (run : Run σ) (once : Bool) (l : Link) :
    (run.meet once l).loads = run.loads := by
  rw [loads, log_meet, loads]

@[simp] theorem budget_meet (run : Run σ) (once : Bool) (l : Link) :
    (run.meet once l).budget = run.budget := by
  cases once <;> rfl

theorem spend?_of_budget_eq_none {run : Run σ} (h : run.budget = none) (resource : Resource) :
    run.spend? resource = some run := by
  rw [spend?, h]

end Run

namespace Action

theorem bind_run (x : Action σ α) (next : α → Action σ β) (run : Run σ) :
    (x >>= next) run = match x run with
      | .ok a run' => next a run'
      | .error halt run' => .error halt run' := by
  show EStateM.bind x next run = _
  rw [EStateM.bind]
  cases x run <;> rfl

theorem bind_run_of_ok {x : Action σ α} {next : α → Action σ β} {run run' : Run σ} {a : α}
    (h : x run = .ok a run') : (x >>= next) run = next a run' := by
  rw [bind_run, h]

theorem bind_run_of_error {x : Action σ α} {next : α → Action σ β} {run run' : Run σ} {halt : Halt}
    (h : x run = .error halt run') : (x >>= next) run = .error halt run' := by
  rw [bind_run, h]

theorem pure_run (a : α) (run : Run σ) : (pure a : Action σ α) run = .ok a run := rfl

theorem get_run (run : Run σ) : (get : Action σ (Run σ)) run = .ok run run := rfl

theorem modify_run (f : Run σ → Run σ) (run : Run σ) :
    (modify f : Action σ Unit) run = .ok () (f run) := rfl

theorem fail_run (e : WalkError) (run : Run σ) :
    (fail e : Action σ α) run = .error (.failed e) run := rfl

theorem record_run (e : Event) (run : Run σ) : record e run = .ok () (run.record e) := rfl

theorem spend_run (resource : Resource) (path : Path) (link : Option Link) (run : Run σ) :
    spend resource path link run = match run.spend? resource with
      | none => .error (.failed (.budgetExceeded resource path link)) run
      | some run' => .ok () run' := by
  obtain ⟨budget, seen, events, state⟩ := run
  simp only [spend, bind_run, get_run, Run.spend?]
  cases budget with
  | none => rfl
  | some budget => cases hspend : budget.spend? resource <;> simp [hspend, fail_run, modify_run]

def handed (visitor : Visitor σ) (v : Visit) (run : Run σ) : EStateM.Result Halt (Run σ) Unit :=
  match visitor run.visitor v with
  | .ok state => .ok () { run.record (.visit v) with visitor := state }
  | .error e => .error (.failed e) (run.record (.visit v))

theorem visit_run (visitor : Visitor σ) (v : Visit) (run : Run σ) :
    visit visitor v run = match run.spend? .node with
      | none => .error (.failed (.budgetExceeded .node v.progress.path none)) run
      | some run' => handed visitor v run' := by
  simp only [visit, bind_run, spend_run, handed]
  cases run.spend? .node with
  | none => rfl
  | some run' =>
    simp only [record_run, get_run, Run.record]
    cases visitor run'.visitor v <;> rfl

def asked (loader : Loader) (l : Link) (p : Progress) (run : Run σ) :
    EStateM.Result Halt (Run σ) (Option Node) :=
  match loader l p with
  | .ok block => .ok (some block) (run.record (.load l p))
  | .error .skip => .ok none (run.record (.load l p))
  | .error e => .error (.failed (.load l p.path e)) (run.record (.load l p))

theorem load_false_run (loader : Loader) (l : Link) (p : Progress) (run : Run σ) :
    load false loader l p run = match run.spend? .link with
      | none => .error (.failed (.budgetExceeded .link p.path (some l))) run
      | some run' => asked loader l p run' := by
  simp only [load, Bool.false_eq_true, if_false, bind_run, spend_run]
  cases run.spend? .link with
  | none => rfl
  | some run' =>
    simp only [record_run, asked]
    rcases loader l p with (_ | _ | _ | _) | _ <;> rfl

theorem load_run (once : Bool) (loader : Loader) (l : Link) (p : Progress) (run : Run σ) :
    load once loader l p run =
      if once ∧ l ∈ run.seen then .ok none run
      else match (run.meet once l).spend? .link with
        | none => .error (.failed (.budgetExceeded .link p.path (some l))) (run.meet once l)
        | some run' => asked loader l p run' := by
  cases once with
  | false =>
    rw [load_false_run, if_neg (by simp)]
    rfl
  | true =>
    by_cases hl : l ∈ run.seen
    · rw [if_pos ⟨rfl, hl⟩]
      simp [load, bind_run, get_run, hl, pure_run]
    · rw [if_neg (by simp [hl])]
      have hnote : load true loader l p run = load false loader l p (run.meet true l) := by
        simp [load, bind_run, get_run, hl, modify_run, Run.meet]
      rw [hnote, load_false_run]

end Action

/-! ## The run of a whole walk -/

def Halt.outcome : Halt → Outcome
  | .failed .stopped => .done
  | .failed e => .failed e
  | .outOfHops => .unfinished

theorem Halt.eq_failed_of_outcome {halt : Halt} {e : WalkError} (h : halt.outcome = .failed e) :
    halt = .failed e := by
  cases halt with
  | outOfHops => cases h
  | failed e => cases e <;> cases h <;> rfl

theorem Halt.eq_stopped_of_outcome {halt : Halt} (h : halt.outcome = .done) :
    halt = .failed .stopped := by
  cases halt with
  | outOfHops => cases h
  | failed e =>
    cases e <;> cases h
    rfl

/-- The report of a walk is read off the end of its run. -/
theorem Walker.walkPruned_eq (w : Walker) (prune : Pruning) (hops : Nat) (root : Node)
    (s : Selector) (visitor : Visitor σ) (state : σ) :
    w.walkPruned prune hops root s visitor state =
      match enter prune visitor (follow prune w.config visitor hops) root .start s
        ((new w.config).begin state) with
      | .ok _ run => (⟨.done, run.log, run.visitor⟩, (new w.config).leave run)
      | .error halt run => (⟨halt.outcome, run.log, run.visitor⟩, (new w.config).leave run) := by
  simp only [walkPruned, reset, new, EStateM.run, Run.log]
  split
  · next run heq => rw [heq]
  · next run heq =>
    rw [heq]
    rfl
  · next e run hstopped heq =>
    rw [heq]
    cases e with
    | stopped => exact absurd rfl hstopped
    | _ => rfl
  · next run heq =>
    rw [heq]
    rfl

theorem Walker.walkPruned_fst (w : Walker) (prune : Pruning) (hops : Nat) (root : Node)
    (s : Selector) (visitor : Visitor σ) (state : σ) :
    (w.walkPruned prune hops root s visitor state).1 =
      match enter prune visitor (follow prune w.config visitor hops) root .start s
        ((new w.config).begin state) with
      | .ok _ run => ⟨.done, run.events.toList, run.visitor⟩
      | .error halt run => ⟨halt.outcome, run.events.toList, run.visitor⟩ := by
  rw [walkPruned_eq]
  cases enter prune visitor (follow prune w.config visitor hops) root .start s
    ((new w.config).begin state) <;> rfl

end DagSelect
