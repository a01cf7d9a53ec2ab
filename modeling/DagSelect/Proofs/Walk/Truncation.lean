import DagSelect.Proofs.Walk.Locate
import DagSelect.Proofs.Walk.SideBySide

/-!
# Less of everything only cuts short

A walk with a smaller budget, or with fewer hops, does what the walk with more of them does, up to
the point where something is refused it. There it is over, and what it has done is the beginning of
what the other does; if nothing is refused the two are one and the same walk.

A refusal names the event that could not be afforded (`Event.refusal`), and where the other walk can
afford it, that is the event that it goes on with.
-/

namespace DagSelect

variable {σ α : Type}

def Event.resource : Event → Resource
  | .visit _ => .node
  | .load _ _ => .link

def Event.refusal : Event → WalkError
  | .load l p => .budgetExceeded .link p.path (some l)
  | .visit v => .budgetExceeded .node v.progress.path none

theorem Event.exists_refusal_eq (e : Event) :
    ∃ p l, e.refusal = .budgetExceeded e.resource p l := by
  cases e with
  | load l p => exact ⟨p.path, some l, rfl⟩
  | visit v => exact ⟨v.progress.path, none, rfl⟩

/-- A walk is cut short, for want of hops somewhere on the way, or for want of budget right before
an event, and the other walk is not. -/
inductive CutShort : Halt → List Event → List Event → Prop
  | outOfHops {es fs : List Event} (beginning : es <+: fs) : CutShort .outOfHops es fs
  | refused {es fs : List Event} (e : Event) (beginning : es ++ [e] <+: fs) :
      CutShort (.failed e.refusal) es fs

theorem lasting_cutShort : Action.Lasting CutShort := by
  intro halt es fs gs h hmore
  cases h with
  | outOfHops beginning => exact .outOfHops (beginning.trans hmore)
  | refused e beginning => exact .refused e (beginning.trans hmore)

namespace Run

/-- The other run is the same but for its budget, of which it has no less left. -/
structure SameButRicher (run other : Run σ) : Prop where
  seen : other.seen = run.seen
  log : other.log = run.log
  visitor : other.visitor = run.visitor
  rich : other.AsRich run

namespace SameButRicher

variable {run other run' : Run σ}

theorem meet (h : run.SameButRicher other) (once : Bool) (l : Link) :
    (run.meet once l).SameButRicher (other.meet once l) := by
  cases once with
  | false => exact h
  | true =>
    refine ⟨?_, h.log, h.visitor, h.rich⟩
    simp [Run.meet, h.seen]

theorem record (h : run.SameButRicher other) (e : Event) :
    (run.record e).SameButRicher (other.record e) :=
  ⟨h.seen, by simp [h.log], h.visitor, h.rich⟩

theorem spend? (h : run.SameButRicher other) {resource : Resource}
    (hspend : run.spend? resource = some run') :
    ∃ other', other.spend? resource = some other' ∧ run'.SameButRicher other' := by
  obtain ⟨other', hspend', hrich⟩ := h.rich.spend? hspend
  refine ⟨other', hspend', ?_⟩
  obtain ⟨budget, rfl⟩ := exists_budget_of_spend? hspend
  obtain ⟨budget', rfl⟩ := exists_budget_of_spend? hspend'
  exact ⟨h.seen, h.log, h.visitor, hrich⟩

end SameButRicher

end Run

namespace Action

/-! ## Steps with less and with more -/

theorem log_left_handed (visitor : Visitor σ) (v : Visit) (run : Run σ) :
    (left (handed visitor v run)).log = run.log ++ [.visit v] := by
  rw [← Run.log_record]
  unfold handed
  cases visitor run.visitor v <;> rfl

theorem log_left_asked (loader : Loader) (l : Link) (p : Progress) (run : Run σ) :
    (left (asked loader l p run)).log = run.log ++ [.load l p] := by
  rw [← Run.log_record]
  unfold asked
  rcases loader l p with (_ | _ | _ | _) | _ <;> rfl

/-- A visit that is afforded either way is the same either way. -/
theorem tracks_visit_of_richer (visitor : Visitor σ) (v : Visit) :
    Tracks Run.SameButRicher CutShort (visit visitor v) (visit visitor v) where
  grows := extends_visit visitor v
  step run other h := by
    rw [visit_run, visit_run]
    cases hspend : run.spend? .node with
    | none =>
      cases hspend' : other.spend? .node with
      | none => exact .inl ⟨other, rfl, h⟩
      | some other' =>
        refine .inr (.refused (.visit v) ?_)
        simp only [log_left_handed, Run.log_of_spend? hspend', h.log]
        exact List.prefix_rfl
    | some run' =>
      obtain ⟨other', hspend', h'⟩ := h.spend? hspend
      have hrecord := h'.record (.visit v)
      rw [hspend']
      simp only [handed, h'.visitor]
      cases visitor run'.visitor v with
      | ok state => exact ⟨_, rfl, hrecord.seen, hrecord.log, rfl, hrecord.rich⟩
      | error e => exact .inl ⟨_, rfl, hrecord⟩

theorem tracks_load_of_richer (once : Bool) (loader : Loader) (l : Link) (p : Progress) :
    Tracks (Run.SameButRicher (σ := σ)) CutShort (load once loader l p) (load once loader l p) where
  grows := extends_load once loader l p
  step run other h := by
    rw [load_run, load_run, h.seen]
    by_cases hmet : once = true ∧ l ∈ run.seen
    · rw [if_pos hmet, if_pos hmet]
      exact ⟨other, rfl, h⟩
    · rw [if_neg hmet, if_neg hmet]
      have hmeet := h.meet once l
      cases hspend : (run.meet once l).spend? .link with
      | none =>
        cases hspend' : (other.meet once l).spend? .link with
        | none => exact .inl ⟨_, rfl, hmeet⟩
        | some other' =>
          refine .inr (.refused (.load l p) ?_)
          simp only [log_left_asked, Run.log_of_spend? hspend', hmeet.log]
          exact List.prefix_rfl
      | some run' =>
        obtain ⟨other', hspend', h'⟩ := hmeet.spend? hspend
        have hrecord := h'.record (.load l p)
        rw [hspend']
        simp only [asked]
        cases loader l p with
        | ok block => exact ⟨_, rfl, hrecord⟩
        | error e =>
          cases e with
          | skip => exact ⟨_, rfl, hrecord⟩
          | _ => exact .inl ⟨_, rfl, hrecord⟩

theorem tracks_outOfHops {y : Action σ α} (hy : Extends y) :
    Tracks Run.SameButRicher CutShort (throw .outOfHops) y where
  grows := hy
  step run other h := by
    refine .inr (.outOfHops ?_)
    rw [← h.log]
    exact hy.log_prefix other

end Action

open DagSelect.Action

/-! ## Walks -/

structure Config.SameButRicher (config config' : Config) : Prop where
  loader : config'.loader = config.loader
  once : config'.once = config.once
  budget : ∀ b' ∈ config'.budget, ∃ b ∈ config.budget, ∀ resource,
    b.left resource ≤ b'.left resource

section

variable {config config' : Config} (hconfig : config.SameButRicher config') {hops hops' : Nat}
  (hhops : hops ≤ hops')

include hconfig

theorem Config.SameButRicher.begin (state : σ) :
    ((Walker.new config).begin state).SameButRicher ((Walker.new config').begin state) := by
  refine ⟨rfl, rfl, rfl, fun resource k hk => ?_⟩
  obtain ⟨b', hb', rfl⟩ := Option.map_eq_some_iff.1 hk
  obtain ⟨b, hb, hle⟩ := hconfig.budget b' hb'
  exact ⟨_, Option.mem_map_of_mem _ hb, hle resource⟩

include hhops

theorem tracks_follow_of_richer (prune : Pruning) (visitor : Visitor σ) (l : Link) (p : Progress)
    (s : Selector) :
    Tracks Run.SameButRicher CutShort (follow prune config visitor hops l p s)
      (follow prune config' visitor hops' l p s) := by
  refine tracks_follow lasting_cutShort (tracks_visit_of_richer visitor) hconfig.loader
    (fun loader _ l p => ?_) hhops (fun _ _ hy => tracks_outOfHops hy) l p s
  rw [hconfig.once]
  exact tracks_load_of_richer config.once loader l p

/-- A walk that has hops enough does what the walk with more does, or it is refused an event that
the other goes on with. -/
theorem Walker.walkPruned_of_richer {w w' : Walker} (hw : w.config = config)
    (hw' : w'.config = config') (prune : Pruning) (root : Node) (s : Selector) (visitor : Visitor σ)
    (state : σ) (hends : (w.walkPruned prune hops root s visitor state).1.outcome ≠ .unfinished) :
    let less := (w.walkPruned prune hops root s visitor state).1
    let more := (w'.walkPruned prune hops' root s visitor state).1
    more = less ∨
      ∃ e, less.outcome = .failed e.refusal ∧ less.events ++ [e] <+: more.events := by
  intro less more
  subst hw hw'
  obtain ⟨outcome, outcome', run, run', hless, hmore, hboth⟩ := exists_runs_of_tracks w w'
    (tracks_enter lasting_cutShort (tracks_visit_of_richer visitor)
      (tracks_follow_of_richer hconfig hhops prune visitor) root .start s) (hconfig.begin state)
  simp only [less, more, hless, hmore] at hends ⊢
  rcases hboth with ⟨rfl, h⟩ | ⟨halt, rfl, hcut⟩
  · exact .inl (by rw [h.log, h.visitor])
  · cases hcut with
    | outOfHops => exact absurd rfl hends
    | refused e hgoes =>
      refine .inr ⟨e, ?_, hgoes⟩
      cases e <;> rfl

end

end DagSelect
