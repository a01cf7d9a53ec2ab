import Mathlib.Data.List.Induction
import DagSelect.Proofs.Walk.Hops
import DagSelect.Proofs.Walk.Once

/-!
# Walks that are interrupted

A visitor that fails ends the walk with the node that it was handed. What has been done by then is
what would have been done with any other visitor, so the walk is compared with the one whose visitor
lets it go on. Both are the same as long as the visitor accepts what it is handed (`Run.Accepts`),
and after that the one is over and the other only adds to what both have done.

The visitor itself is left with what it has made of the visits that it accepted, which are all but
perhaps the last (`Walker.fedButLast_walkPruned`).

An interrupted run leaves its walker in the middle of things: links have been met, and some of the
budget is spent. Since every run starts afresh, nobody ever finds out (`Walker.Used`).
-/

namespace DagSelect

variable {σ τ : Type}

/-! ## A visitor and what it is handed -/

namespace Visitor

def counting (visitor : Visitor σ) : Nat × σ → Visit → Except (Nat × WalkError) (Nat × σ) :=
  fun (accepted, state) v =>
    match visitor state v with
    | .ok next => .ok (accepted + 1, next)
    | .error e => .error (accepted, e)

/-- What becomes of a visitor that is handed visits one after the other. If it fails, it is told how
many it had accepted. -/
def feed (visitor : Visitor σ) (state : σ) (visits : List Visit) :
    Except (Nat × WalkError) (Nat × σ) :=
  visits.foldlM visitor.counting (0, state)

variable {visitor : Visitor σ} {state : σ} {visits : List Visit}

theorem feed_append_singleton {accepted : Nat × σ} (h : visitor.feed state visits = .ok accepted)
    (v : Visit) : visitor.feed state (visits ++ [v]) = visitor.counting accepted v := by
  rw [feed] at h
  rw [feed, List.foldlM_append, h]
  exact bind_pure (visitor.counting accepted v)

theorem feed_append_of_error {failed : Nat × WalkError}
    (h : visitor.feed state visits = .error failed)
    (more : List Visit) : visitor.feed state (visits ++ more) = .error failed := by
  rw [feed] at h
  rw [feed, List.foldlM_append, h]
  rfl

/-- What is fed to a visitor fails as the visitor does. -/
theorem exists_of_feed_eq_error {accepted : Nat} {e : WalkError}
    (h : visitor.feed state visits = .error (accepted, e)) : ∃ s v, visitor s v = .error e := by
  induction visits using List.reverseRecOn with
  | nil => cases h
  | append_singleton visits v ih =>
    cases hfeed : visitor.feed state visits with
    | error failed =>
      rw [feed_append_of_error hfeed] at h
      cases h
      exact ih hfeed
    | ok fed =>
      rw [feed_append_singleton hfeed, counting] at h
      split at h
      · cases h
      · next e' he =>
        cases h
        exact ⟨fed.2, v, he⟩

end Visitor

open DagSelect.Action

/-! ## What becomes of the visitor of a walk -/

namespace Run

variable {visitor : Visitor σ} {state : σ} {run : Run σ}

def Fed (visitor : Visitor σ) (state : σ) (run : Run σ) : Prop :=
  visitor.feed state run.visits = .ok (run.visits.length, run.visitor)

/-- The visitor has accepted all visits, or all but the last one. -/
def FedButLast (visitor : Visitor σ) (state : σ) (run : Run σ) : Prop :=
  ∃ accepted, accepted <+: run.visits ∧ run.visits.length ≤ accepted.length + 1 ∧
    visitor.feed state accepted = .ok (accepted.length, run.visitor)

theorem Fed.butLast (h : run.Fed visitor state) : run.FedButLast visitor state :=
  ⟨run.visits, List.prefix_rfl, Nat.le_succ _, h⟩

theorem Fed.meet (h : run.Fed visitor state) (once : Bool) (l : Link) :
    (run.meet once l).Fed visitor state := by
  cases once <;> exact h

theorem Fed.spend? (h : run.Fed visitor state) {resource : Resource} {run' : Run σ}
    (hspend : run.spend? resource = some run') : run'.Fed visitor state := by
  obtain ⟨budget, rfl⟩ := exists_budget_of_spend? hspend
  exact h

theorem Fed.record_load (h : run.Fed visitor state) (l : Link) (p : Progress) :
    (run.record (.load l p)).Fed visitor state := by
  rw [Fed, visits_record_load]
  exact h

theorem Fed.record_visit (h : run.Fed visitor state) {v : Visit} {next : σ}
    (hnext : visitor run.visitor v = .ok next) :
    Fed visitor state { run.record (.visit v) with visitor := next } := by
  have hfeed := Visitor.feed_append_singleton h v
  simp only [Visitor.counting, hnext] at hfeed
  show visitor.feed state (run.record (.visit v)).visits =
    .ok ((run.record (.visit v)).visits.length, next)
  rw [visits_record_visit, hfeed, List.length_append]
  rfl

theorem Fed.record_refused (h : run.Fed visitor state) (v : Visit) :
    (run.record (.visit v)).FedButLast visitor state := by
  refine ⟨run.visits, ?_, ?_, h⟩
  · rw [visits_record_visit]
    exact List.prefix_append _ _
  · rw [visits_record_visit, List.length_append]
    exact Nat.le_refl _

end Run

/-- However a walk ends, its visitor is what it becomes of all visits, or of all but the last one if
that is the one it has refused. -/
theorem Walker.fedButLast_walkPruned (w : Walker) (prune : Pruning) (hops : Nat) (root : Node)
    (s : Selector) (visitor : Visitor σ) (state : σ) :
    let report := (w.walkPruned prune hops root s visitor state).1
    ∃ accepted, accepted <+: report.visits ∧ report.visits.length ≤ accepted.length + 1 ∧
      visitor.feed state accepted = .ok (accepted.length, report.visitor) := by
  let I : Run σ → Prop := Run.Fed visitor state
  let ended : Halt → Run σ → Prop := fun _ => Run.FedButLast visitor state
  have hvisit (v : Visit) : Maintains I ended (visit visitor v) := by
    refine triple_visit (fun run h _ => h.butLast) fun run run' h hspend => ?_
    have hfed := h.spend? hspend
    exact ⟨fun next hnext => hfed.record_visit hnext, fun e _ => hfed.record_refused v⟩
  have hload (loader : Loader) (_ : w.config.loader = some loader) (l : Link) (p : Progress) :
      Maintains I ended (load w.config.once loader l p) := by
    refine maintains_load (fun run h _ => (h.meet _ l).butLast) fun run run' h _ hspend => ?_
    have hfed := ((h.meet _ l).spend? hspend).record_load l p
    exact ⟨hfed, fun _ _ => hfed.butLast⟩
  have henter : Maintains I ended
      (enter prune visitor (follow prune w.config visitor hops) root .start s) :=
    maintains_enter hvisit hload (fun run h => h.butLast) hops root .start s
  obtain ⟨outcome, run, hreport, hend⟩ :=
    exists_run_of_maintains henter (show I ((new w.config).begin state) from rfl)
  intro report
  simp only [report, hreport]
  rcases hend with ⟨h, -⟩ | ⟨halt, h, -⟩
  · exact h.butLast
  · exact h

/-! ## Two runs side by side -/

/-- Both runs have done the same, and the visitor of the first has accepted all that it was
handed. -/
structure Run.Accepts (visitor : Visitor τ) (state : τ) (run : Run τ) (other : Run σ) : Prop where
  budget : other.budget = run.budget
  seen : other.seen = run.seen
  log : other.log = run.log
  fed : visitor.feed state run.visits = .ok (run.visits.length, run.visitor)

/-- The visitor fails at the node that it is handed last, and the other walk goes on from there. -/
inductive Interrupted (visitor : Visitor τ) (state : τ) : Halt → List Event → List Event → Prop
  | at {before after : List Event} {v : Visit} {e : WalkError}
      (fed : visitor.feed state ((before ++ [Event.visit v]).filterMap Event.visit?) =
        .error ((before.filterMap Event.visit?).length, e))
      (beginning : before ++ [Event.visit v] <+: after) :
      Interrupted visitor state (.failed e) (before ++ [Event.visit v]) after

theorem lasting_interrupted (visitor : Visitor τ) (state : τ) :
    Lasting (Interrupted visitor state) := by
  rintro _ _ _ gs ⟨fed, beginning⟩ hmore
  exact .at fed (beginning.trans hmore)

theorem Run.spend?_of_budget_eq {run : Run τ} {other : Run σ} (h : other.budget = run.budget)
    (resource : Resource) :
    other.spend? resource =
      (run.spend? resource).map fun run' => { other with budget := run'.budget } := by
  unfold spend?
  rw [h]
  cases hbudget : run.budget with
  | none =>
    rw [hbudget] at h
    simp [← h, hbudget]
  | some budget => simp [Option.map_map, Function.comp_def]

namespace Run.Accepts

variable {visitor : Visitor τ} {state : τ} {run run' : Run τ} {other : Run σ}

theorem meet (h : run.Accepts visitor state other) (once : Bool) (l : Link) :
    (run.meet once l).Accepts visitor state (other.meet once l) := by
  cases once with
  | false => exact h
  | true => exact ⟨h.budget, congrArg (l :: ·) h.seen, h.log, h.fed⟩

theorem spend? (h : run.Accepts visitor state other) {resource : Resource}
    (hspend : run.spend? resource = some run') :
    ∃ other', other.spend? resource = some other' ∧ run'.Accepts visitor state other' := by
  refine ⟨_, by rw [spend?_of_budget_eq h.budget, hspend]; rfl, ?_⟩
  obtain ⟨budget, rfl⟩ := exists_budget_of_spend? hspend
  exact ⟨rfl, h.seen, h.log, h.fed⟩

theorem record_load (h : run.Accepts visitor state other) (l : Link) (p : Progress) :
    (run.record (.load l p)).Accepts visitor state (other.record (.load l p)) := by
  refine ⟨h.budget, h.seen, by simp [h.log], ?_⟩
  rw [visits_record_load]
  exact h.fed

end Run.Accepts

section

variable {calm : Visitor σ} (hcalm : calm.AlwaysSucceeds) (visitor : Visitor τ) (state : τ)

include hcalm

theorem tracks_visit_of_accepts (v : Visit) :
    Tracks (Run.Accepts visitor state) (Interrupted visitor state) (visit visitor v)
      (visit calm v) where
  grows := extends_visit calm v
  step run other h := by
    rw [visit_run, visit_run]
    cases hspend : run.spend? .node with
    | none =>
      rw [Run.spend?_of_budget_eq h.budget, hspend]
      exact .inl ⟨other, rfl, h⟩
    | some run' =>
      obtain ⟨other', hspend', h'⟩ := h.spend? hspend
      obtain ⟨calmed, hok⟩ := hcalm other'.visitor v
      rw [hspend']
      simp only [handed, hok]
      cases hvisitor : visitor run'.visitor v with
      | ok next =>
        refine ⟨_, rfl, h'.budget, h'.seen, ?_, Run.Fed.record_visit h'.fed hvisitor⟩
        show (other'.record (.visit v)).log = (run'.record (.visit v)).log
        rw [Run.log_record, Run.log_record, h'.log]
      | error e =>
        have hfeed := Visitor.feed_append_singleton h'.fed v
        simp only [Visitor.counting, hvisitor] at hfeed
        refine .inr ?_
        rw [Run.log_record]
        refine .at ?_ ?_
        · rw [List.filterMap_append]
          exact hfeed
        · have hlog : (other'.record (.visit v)).log = run'.log ++ [.visit v] := by
            rw [Run.log_record, h'.log]
          exact hlog ▸ List.prefix_rfl

omit hcalm in
theorem tracks_load_of_accepts (once : Bool) (loader : Loader) (l : Link) (p : Progress) :
    Tracks (Run.Accepts (σ := σ) visitor state) (Interrupted visitor state) (load once loader l p)
      (load once loader l p) where
  grows := extends_load once loader l p
  step run other h := by
    rw [load_run, load_run, h.seen]
    by_cases hmet : once = true ∧ l ∈ run.seen
    · rw [if_pos hmet, if_pos hmet]
      exact ⟨other, rfl, h⟩
    · rw [if_neg hmet, if_neg hmet]
      have hmeet := h.meet once l
      cases hspend : (run.meet once l).spend? .link with
      | none =>
        rw [Run.spend?_of_budget_eq hmeet.budget, hspend]
        exact .inl ⟨_, rfl, hmeet⟩
      | some run' =>
        obtain ⟨other', hspend', h'⟩ := hmeet.spend? hspend
        have hrecord := h'.record_load l p
        rw [hspend']
        simp only [asked]
        cases loader l p with
        | ok block => exact ⟨_, rfl, hrecord⟩
        | error e =>
          cases e with
          | skip => exact ⟨_, rfl, hrecord⟩
          | _ => exact .inl ⟨_, rfl, hrecord⟩

theorem tracks_enter_of_accepts (config : Config) (prune : Pruning) (hops : Nat) (root : Node)
    (s : Selector) :
    Tracks (Run.Accepts visitor state) (Interrupted visitor state)
      (enter prune visitor (follow prune config visitor hops) root .start s)
      (enter prune calm (follow prune config calm hops) root .start s) := by
  have hlasting := lasting_interrupted visitor state
  have hvisit := tracks_visit_of_accepts hcalm visitor state
  refine tracks_enter hlasting hvisit (tracks_follow hlasting hvisit rfl (fun loader _ l p => ?_)
    (Nat.le_refl hops) fun hless => absurd hless (Nat.lt_irrefl hops)) root .start s
  exact tracks_load_of_accepts visitor state config.once loader l p

/-- A walk whose visitor accepts everything does what the walk with a visitor that never fails
does. -/
theorem Walker.walkPruned_accepted (w : Walker) (prune : Pruning) (hops : Nat) (root : Node)
    (s : Selector) (start : σ) {accepted : Nat} {next : τ}
    (hfeed : visitor.feed state (w.walkPruned prune hops root s calm start).1.visits =
      .ok (accepted, next)) :
    (w.walkPruned prune hops root s visitor state).1 =
      ⟨(w.walkPruned prune hops root s calm start).1.outcome,
        (w.walkPruned prune hops root s calm start).1.events, next⟩ := by
  obtain ⟨outcome, outcome', run, run', hreport, hwhole, hboth⟩ := exists_runs_of_tracks w w
    (tracks_enter_of_accepts hcalm visitor state w.config prune hops root s)
    (show ((new w.config).begin state).Accepts visitor state ((new w.config).begin start) from
      ⟨rfl, rfl, rfl, rfl⟩)
  simp only [hreport, hwhole, Report.visits] at hfeed ⊢
  rcases hboth with ⟨rfl, h⟩ | ⟨halt, rfl, hcut⟩
  · rw [h.log, show run.log.filterMap Event.visit? = run.visits from rfl, h.fed] at hfeed
    obtain ⟨-, rfl⟩ := Prod.mk.inj (Except.ok.inj hfeed)
    rw [h.log]
  · -- The visitor would have failed at the visit that was the last one.
    generalize run.log = events at hcut
    obtain ⟨hfed, rest, hrest⟩ := hcut
    rw [← hrest, List.filterMap_append, Visitor.feed_append_of_error hfed] at hfeed
    cases hfeed

/-- A walk whose visitor fails has done what the walk with a visitor that never fails does up to
this visit, and that is how it ends. Of the visits before, the visitor has accepted all. -/
theorem Walker.walkPruned_interrupted (w : Walker) (prune : Pruning) (hops : Nat) (root : Node)
    (s : Selector) (start : σ) {accepted : Nat} {e : WalkError}
    (hfeed : visitor.feed state (w.walkPruned prune hops root s calm start).1.visits =
      .error (accepted, e)) :
    let report := (w.walkPruned prune hops root s visitor state).1
    report.outcome = (Halt.failed e).outcome ∧
      ∃ before v, (before.filterMap Event.visit?).length = accepted ∧
        report.events = before ++ [Event.visit v] ∧
        before ++ [Event.visit v] <+: (w.walkPruned prune hops root s calm start).1.events ∧
        visitor.feed state (before.filterMap Event.visit?) = .ok (accepted, report.visitor) := by
  intro report
  obtain ⟨outcome, outcome', run, run', hreport, hwhole, hboth⟩ := exists_runs_of_tracks w w
    (tracks_enter_of_accepts hcalm visitor state w.config prune hops root s)
    (show ((new w.config).begin state).Accepts visitor state ((new w.config).begin start) from
      ⟨rfl, rfl, rfl, rfl⟩)
  obtain ⟨visits, hprefix, hlast, hvisits⟩ :=
    w.fedButLast_walkPruned prune hops root s visitor state
  simp only [report, hreport, hwhole, Report.visits] at hfeed hprefix hlast hvisits ⊢
  rcases hboth with ⟨-, h⟩ | ⟨halt, rfl, hcut⟩
  · -- The visitor would have accepted everything.
    rw [h.log, show run.log.filterMap Event.visit? = run.visits from rfl, h.fed] at hfeed
    cases hfeed
  · generalize run.log = events at hcut hprefix hlast ⊢
    obtain ⟨hfed, rest, hrest⟩ := hcut
    next before v e' =>
    rw [← hrest, List.filterMap_append, Visitor.feed_append_of_error hfed] at hfeed
    obtain ⟨hlength, rfl⟩ := Prod.mk.inj (Except.error.inj hfeed)
    refine ⟨rfl, before, v, hlength, rfl, ⟨rest, hrest⟩, ?_⟩
    -- The last visit is the one that was refused.
    have hvisited : (before ++ [Event.visit v]).filterMap Event.visit? =
        before.filterMap Event.visit? ++ [v] := List.filterMap_append
    rw [hvisited] at hfed hprefix hlast
    rcases List.prefix_concat_iff.1 hprefix with rfl | hbefore
    · rw [hvisits] at hfed
      cases hfed
    · rw [List.length_append, List.length_singleton, Nat.add_le_add_iff_right] at hlast
      rw [← hlength, ← hbefore.eq_of_length_le hlast, hvisits]

end

/-! ## Searches -/

namespace Walker

section

variable {α : Type} {w : Walker} {hops hops' : Nat} {root : Node} {path : Path} {p : Progress}
  {n : Node}

theorem focus_of_locate {run : Run Unit}
    (h : locate w.config hops .start root path.segments ((new w.config).begin ()) = .ok (p, n) run)
    (visit : Progress → Node → Except WalkError α) :
    w.focus hops root path visit =
      (.ofAnswer (visit p n), run.log.filterMap Event.load?, (new w.config).leave run) := by
  simp only [focus, reset, new, EStateM.run] at h ⊢
  rw [h]
  simp only
  cases visit p n <;> rfl

theorem locate_of_found
    (h : (w.focus hops root path fun p n => .ok (p, n)).1 = .found (p, n)) :
    ∃ run, locate w.config hops .start root path.segments ((new w.config).begin ()) =
      .ok (p, n) run := by
  rw [focus_eq] at h
  split at h
  · next found run heq =>
    cases h
    exact ⟨run, heq⟩
  · cases h
  · cases h

/-- What comes of a search that finds a node is up to whoever is handed the node. -/
theorem focus_eq_of_found (hhops : hops ≤ hops')
    (h : (w.focus hops root path fun p n => .ok (p, n)).1 = .found (p, n))
    (visit : Progress → Node → Except WalkError α) :
    w.focus hops' root path visit =
      (.ofAnswer (visit p n), (w.focus hops root path fun p n => .ok (p, n)).2) := by
  obtain ⟨run, hlocate⟩ := locate_of_found h
  have hmore : locate w.config hops' .start root path.segments ((new w.config).begin ()) =
      .ok (p, n) run := by
    rcases completes_locate hhops .start root path.segments ((new w.config).begin ())
      with ⟨run', hout⟩ | hsame
    · rw [hout] at hlocate
      cases hlocate
    · rw [hsame, hlocate]
  rw [focus_of_locate hmore, focus_of_locate hlocate]

end

/-! ## One call after another -/

/-- A walker that has been called any number of times, whatever came of it. -/
inductive Used (config : Config) : Walker → Prop
  | new : Used config (new config)
  | walk {w : Walker} (used : Used config w) {σ : Type} (hops : Nat) (root : Node) (s : Selector)
      (visitor : Visitor σ) (state : σ) : Used config (w.walk hops root s visitor state).2
  | walkMatches {w : Walker} (used : Used config w) {σ : Type} (hops : Nat) (root : Node)
      (s : Selector) (visitor : Visitor σ) (state : σ) :
      Used config (w.walkMatches hops root s visitor state).2
  | focus {w : Walker} (used : Used config w) {α : Type} (hops : Nat) (root : Node) (path : Path)
      (visit : Progress → Node → Except WalkError α) :
      Used config (w.focus hops root path visit).2.2
  | get {w : Walker} (used : Used config w) (hops : Nat) (root : Node) (path : Path) :
      Used config (w.get hops root path).2.2

theorem config_walkPruned (w : Walker) (prune : Pruning) (hops : Nat) (root : Node) (s : Selector)
    (visitor : Visitor σ) (state : σ) :
    (w.walkPruned prune hops root s visitor state).2.config = w.config := by
  rw [walkPruned_eq]
  split <;> rfl

theorem config_focus {α : Type} (w : Walker) (hops : Nat) (root : Node) (path : Path)
    (visit : Progress → Node → Except WalkError α) :
    (w.focus hops root path visit).2.2.config = w.config := by
  simp only [focus]
  split
  · next p n run _ => cases visit p n <;> rfl
  · rfl
  · rfl

/-- Nothing that a walker is used for changes its settings, and these are all that a call starts
from. -/
theorem Used.reset_eq {config : Config} {w : Walker} (h : Used config w) :
    w.reset = Walker.new config := by
  suffices hconfig : w.config = config by rw [reset, hconfig]
  induction h with
  | new => rfl
  | walk _ hops root s visitor state ih =>
    exact (config_walkPruned _ _ hops root s visitor state).trans ih
  | walkMatches _ hops root s visitor state ih =>
    exact (config_walkPruned _ _ hops root s visitor.ofMatches state).trans ih
  | focus _ hops root path visit ih => exact (config_focus _ hops root path visit).trans ih
  | get _ hops root path ih => exact (config_focus _ hops root path _).trans ih

theorem Used.walkPruned_eq {config : Config} {w : Walker} (h : Used config w) (prune : Pruning)
    (hops : Nat) (root : Node) (s : Selector) (visitor : Visitor σ) (state : σ) :
    w.walkPruned prune hops root s visitor state =
      (Walker.new config).walkPruned prune hops root s visitor state := by
  unfold walkPruned
  rw [h.reset_eq]
  rfl

theorem Used.focus_eq {config : Config} {w : Walker} (h : Used config w) {α : Type} (hops : Nat)
    (root : Node) (path : Path) (visit : Progress → Node → Except WalkError α) :
    w.focus hops root path visit = (Walker.new config).focus hops root path visit := by
  unfold Walker.focus
  rw [h.reset_eq]
  rfl

end Walker

theorem Halt.outcome_failed (e : WalkError) :
    (Halt.failed e).outcome = if e = .stopped then .done else .failed e := by
  cases e <;> rfl

/-! ## The visitor that fails -/

/-- A walk whose visitor fails at some visit makes the calls that it would make with a visitor that
never fails, up to this one, and no more; it is done if the visitor has seen enough, and otherwise
the failure is the visitor's. A search hands its visitor's failure back, whatever it is. No call,
however it ends, makes a difference to the calls after it. -/
theorem calls_end_with_failure :
    (∀ (σ τ : Type) (w : Walker) (hops : Nat) (root : Node) (s : Selector) (calm : Visitor σ)
      (start : σ) (visitor : Visitor τ) (state : τ) (accepted : Nat) (e : WalkError),
      calm.AlwaysSucceeds →
      let whole := (w.walk hops root s calm start).1
      visitor.feed state whole.visits = .error (accepted, e) →
      ∀ hops', hops ≤ hops' →
        let report := (w.walk hops' root s visitor state).1
        report.outcome = (if e = .stopped then .done else .failed e) ∧
          ∃ before v, (before.filterMap Event.visit?).length = accepted ∧
            report.events = before ++ [.visit v] ∧ report.events <+: whole.events) ∧
    (∀ (α : Type) (w : Walker) (hops : Nat) (root : Node) (path : Path) (p : Progress) (n : Node),
      let whole := w.focus hops root path fun p n => .ok (p, n)
      whole.1 = .found (p, n) →
      ∀ (visit : Progress → Node → Except WalkError α) (e : WalkError), visit p n = .error e →
        ∀ hops', hops ≤ hops' → w.focus hops' root path visit = (.failed e, whole.2)) ∧
    ∀ (config : Config) (w : Walker), w.Used config →
      (∀ (σ : Type) (hops : Nat) (root : Node) (s : Selector) (visitor : Visitor σ) (state : σ),
        w.walk hops root s visitor state = (Walker.new config).walk hops root s visitor state ∧
        w.walkMatches hops root s visitor state =
          (Walker.new config).walkMatches hops root s visitor state) ∧
      ∀ (hops : Nat) (root : Node) (path : Path),
        w.get hops root path = (Walker.new config).get hops root path ∧
        ∀ (α : Type) (visit : Progress → Node → Except WalkError α),
          w.focus hops root path visit = (Walker.new config).focus hops root path visit := by
  refine ⟨?_, ?_, ?_⟩
  · intro σ τ w hops root s calm start visitor state accepted e hcalm whole hfeed hops' hhops report
    obtain ⟨houtcome, before, v, hlength, hevents, hbegins, -⟩ :=
      Walker.walkPruned_interrupted hcalm visitor state w Selector.picks? hops root s start hfeed
    have hsame : report = (w.walk hops root s visitor state).1 := by
      refine congrArg Prod.fst (Walker.walkPruned_eq_of_hops_le hhops ?_)
      rw [houtcome]
      cases e <;> rintro ⟨⟩
    rw [hsame, ← Halt.outcome_failed]
    refine ⟨houtcome, before, v, hlength, hevents, ?_⟩
    rw [Walker.walk, hevents]
    exact hbegins
  · intro α w hops root path p n whole hfound visit e hvisit hops' hhops
    rw [Walker.focus_eq_of_found hhops hfound, hvisit]
    rfl
  · intro config w hused
    refine ⟨fun σ hops root s visitor state => ⟨?_, ?_⟩,
      fun hops root path => ⟨?_, fun α visit => ?_⟩⟩
    · exact hused.walkPruned_eq Selector.picks? hops root s visitor state
    · exact hused.walkPruned_eq Selector.picks? hops root s visitor.ofMatches state
    · exact hused.focus_eq hops root path fun _ n => .ok n
    · exact hused.focus_eq hops root path visit

/-- Of seven calls only those up to the third visit are made, and a walk after that makes all of
them. A search is stopped where it ends. -/
theorem calls_end_with_failure_third_visit :
    let store := BlockStore.ofList [(⟨"x"⟩, .list [.int 1, .link ⟨"y"⟩]), (⟨"y"⟩, .int 2)]
    let root : Node := .list [.link ⟨"x"⟩, .int 3]
    let selector : Selector := .recursion .unbounded (.union [.matcher, .all .edge])
    let stop : Visitor Nat :=
      fun accepted _ => if accepted = 2 then .error .stopped else .ok (accepted + 1)
    let w := Walker.new ⟨some store.loader, some ⟨9, 9⟩, true⟩
    let whole := (w.walk 3 root selector .onlooker ()).1
    let stopped := w.walk 5 root selector stop 0
    let path : Path := ⟨[.index 0, .index 1]⟩
    whole.events.length = 7 ∧ stopped.1.outcome = .done ∧ stopped.1.events.length = 4 ∧
      stopped.1.events <+: whole.events ∧ stopped.2.seen = [⟨"x"⟩] ∧
      (stopped.2.walk 3 root selector .onlooker ()).1.events = whole.events ∧
      (∃ found,
        w.focus 5 root path (fun _ _ => .error .stopped) =
          ((.failed .stopped : Found Unit), found) ∧
        found.1.map Prod.fst = [⟨"x"⟩, ⟨"y"⟩]) := by
  intro store root selector stop w whole stopped path
  have hlength : whole.events.length = 7 := by decide +kernel
  have hevents : stopped.1.events.length = 4 := by decide +kernel
  have hseen : stopped.2.seen = [⟨"x"⟩] := by decide +kernel
  have hfeed : stop.feed 0 whole.visits = .error (2, .stopped) := by rfl
  have hloads : ((w.focus 3 root path fun p n => .ok (p, n)).2.1.map Prod.fst) =
      [⟨"x"⟩, ⟨"y"⟩] := by
    decide +kernel
  obtain ⟨hwalk, hsearch, hlater⟩ := calls_end_with_failure
  obtain ⟨hdone, -, -, -, -, hbegins⟩ :=
    hwalk Unit Nat w 3 root selector .onlooker () stop 0 2 .stopped
    Visitor.alwaysSucceeds_onlooker hfeed 5 (by decide)
  have hused : stopped.2.Used w.config := .walk .new 5 root selector stop 0
  have hagain := ((hlater w.config stopped.2 hused).1 Unit 3 root selector .onlooker ()).1
  have hstop := hsearch Unit w 3 root path
    ⟨path, some ⟨path, ⟨"y"⟩⟩, 2⟩ (.int 2) rfl (fun _ _ => .error .stopped) .stopped rfl 5
    (by decide)
  exact ⟨hlength, hdone, hevents, hbegins, hseen, congrArg (·.1.events) hagain, _, hstop, hloads⟩

end DagSelect
