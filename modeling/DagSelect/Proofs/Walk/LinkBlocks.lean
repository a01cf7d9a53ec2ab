import DagSelect.Proofs.Walk.Locate
import DagSelect.Proofs.Walk.Maintains
import DagSelect.Proofs.Walk.Spending

/-!
# Blocks that are links

With a loader no link is visited where it is found, since the block behind it is walked in its
place. That block is visited as it is, though. If it is itself a link, a link is handed to the
visitor after all. `Event.handedLink?` and `Event.loadedLink?` tell both kinds of events apart from
the rest. One by one they belong together, apart from a last block that the budget has no visit for
(`exists_links_of_walk`).

Following a path is different: it goes on from block to block until there is one that is no link.
-/

namespace DagSelect

variable {σ α : Type}

def Event.handedLink? : Event → Option (Progress × Link)
  | .visit v => v.node.link?.map fun l => (v.progress, l)
  | .load _ _ => none

def Event.loadedLink? (loader : Loader) : Event → Option (Progress × Link)
  | .visit _ => none
  | .load l p =>
    match loader l p with
    | .ok block => block.link?.map fun target => (p.cross l, target)
    | .error _ => none

def Report.handedLinks (r : Report σ) : List (Progress × Link) :=
  r.events.filterMap Event.handedLink?

def Report.loadedLinks (r : Report σ) (loader : Loader) : List (Progress × Link) :=
  r.events.filterMap (Event.loadedLink? loader)

namespace Run

/-- Every block so far that is a link has been handed to the visitor, but for those that are
owing. -/
def Owes (loader : Loader) (owing : List (Progress × Link)) (run : Run σ) : Prop :=
  run.log.filterMap Event.handedLink? ++ owing = run.log.filterMap (Event.loadedLink? loader)

namespace Owes

variable {loader : Loader} {owing : List (Progress × Link)} {run run' : Run σ}

theorem spend? (h : run.Owes loader owing) {resource : Resource}
    (hspend : run.spend? resource = some run') : run'.Owes loader owing := by
  rw [Owes, log_of_spend? hspend]
  exact h

theorem meet (h : run.Owes loader owing) (once : Bool) (l : Link) :
    (run.meet once l).Owes loader owing := by
  rw [Owes, log_meet]
  exact h

/-- A visit pays back what it hands to the visitor. -/
theorem visit {v : Visit} (h : run.Owes loader (Event.visit v).handedLink?.toList) :
    (run.record (.visit v)).Owes loader [] := by
  rw [Owes, log_record, List.filterMap_append, List.filterMap_append, ← h, List.append_nil]
  cases hlink : (Event.visit v).handedLink? <;> simp [hlink, Event.loadedLink?]

/-- A load owes what it gives. -/
theorem load {l : Link} {p : Progress} (h : run.Owes loader []) :
    (run.record (.load l p)).Owes loader ((Event.load l p).loadedLink? loader).toList := by
  rw [Owes, List.append_nil] at h
  rw [Owes, log_record, List.filterMap_append, List.filterMap_append, h]
  cases hlink : (Event.load l p).loadedLink? loader <;> simp [hlink, Event.handedLink?]

end Owes

end Run

open DagSelect.Action

/-- Where a run is ended nothing is owing, unless a visit was refused right behind the load of a
block. -/
def Halt.Owes (loader : Loader) (halt : Halt) (run : Run σ) : Prop :=
  run.Owes loader [] ∨
    (∃ p, halt = .failed (.budgetExceeded .node p none)) ∧ ∃ x, run.Owes loader [x]

section

variable {loader : Loader} {prune : Pruning} {visitor : Visitor σ}

theorem triple_visit_of_owes (v : Visit) :
    Triple (Run.Owes loader (Event.visit v).handedLink?.toList) (visit visitor v)
      (fun _ => Run.Owes loader []) (Halt.Owes loader) := by
  refine triple_visit (fun run h _ => ?_) fun run run' h hspend => ?_
  · cases hlink : (Event.visit v).handedLink? with
    | none =>
      rw [hlink] at h
      exact .inl h
    | some x =>
      rw [hlink] at h
      exact .inr ⟨⟨_, rfl⟩, x, h⟩
  · have hpaid : (run'.record (.visit v)).Owes loader [] := (h.spend? hspend).visit
    exact ⟨fun _ _ => hpaid, fun _ _ => .inl hpaid⟩

theorem maintains_visit_of_owes {v : Visit} (hlink : v.node.link? = none) :
    Maintains (Run.Owes loader []) (Halt.Owes loader) (visit visitor v) := by
  have hnone : (Event.visit v).handedLink? = none := by
    rw [Event.handedLink?, hlink]
    rfl
  have htriple : Triple (Run.Owes loader (Event.visit v).handedLink?.toList) (visit visitor v)
    (fun _ => Run.Owes loader []) (Halt.Owes loader) := triple_visit_of_owes v
  rw [hnone] at htriple
  exact htriple

theorem triple_load_of_owes (once : Bool) (l : Link) (p : Progress) :
    Triple (σ := σ) (Run.Owes loader []) (load once loader l p)
      (fun found => Run.Owes loader
        ((found.bind Node.link?).map fun target => (p.cross l, target)).toList)
      (Halt.Owes loader) := by
  refine triple_load (fun run h _ _ => h) (fun run h _ => .inl (h.meet once l))
    fun run run' h _ hspend => ?_
  have hpaid := ((h.meet once l).spend? hspend).load (l := l) (p := p)
  refine ⟨fun block hblock => ?_, fun hskip => ?_, fun e herror => .inl ?_⟩
  · rw [Event.loadedLink?, hblock] at hpaid
    exact hpaid
  · rw [Event.loadedLink?, hskip] at hpaid
    exact hpaid
  · rw [Event.loadedLink?, herror] at hpaid
    exact hpaid

theorem maintains_follow_of_owes {config : Config} (hloader : config.loader = some loader)
    (hops : Nat) (l : Link) (p : Progress) (s : Selector) :
    Maintains (Run.Owes loader []) (Halt.Owes loader)
      (follow prune config visitor hops l p s) := by
  induction hops generalizing l p s with
  | zero =>
    rw [follow_zero_of_loader hloader]
    exact maintains_throw fun run h => .inl h
  | succ hops ih =>
    rw [follow_succ_of_loader hloader]
    refine (triple_load_of_owes config.once l p).bind fun found => ?_
    cases found with
    | none => exact maintains_pure ()
    | some block =>
      cases hlink : block.link? with
      | none =>
        simp only [Option.bind_some, hlink]
        exact maintains_walkBlock (fun v hv => maintains_visit_of_owes hv) ih hlink (p.cross l) s
      | some target =>
        -- The block is visited as it is, and there is nothing below it.
        obtain rfl := Node.link?_eq_some_iff.1 hlink
        simp only [walkBlock_link]
        exact triple_visit_of_owes ⟨p.cross l, .link target, s.reason⟩

theorem maintains_enter_of_owes {config : Config} (hloader : config.loader = some loader)
    (hops : Nat) (n : Node) (p : Progress) (s : Selector) :
    Maintains (Run.Owes loader []) (Halt.Owes loader)
      (enter prune visitor (follow prune config visitor hops) n p s) :=
  maintains_enter_of_follow (fun _ hv => maintains_visit_of_owes hv)
    (maintains_follow_of_owes hloader hops) n p s

end

/-! ## Searches -/

/-- A search hands nothing to its visitor but what stands for itself. -/
theorem Walker.focus_congr {w : Walker} {visit visit' : Progress → Node → Except WalkError α}
    (h : ∀ p n, w.config.Stands n → visit p n = visit' p n) (hops : Nat) (root : Node)
    (path : Path) :
    w.focus hops root path visit = w.focus hops root path visit' := by
  have hgives := gives_locate w.config hops .start root path.segments ((new w.config).begin ())
  simp only [focus, reset, new, EStateM.run] at hgives ⊢
  split
  · next p n run heq =>
    have hstands : w.config.Stands n := (hgives _ _ heq).2
    simp only [h p n hstands]
  · rfl
  · rfl

/-! ## Walks -/

/-- With a loader the links that a walk hands to its visitor are the blocks it has loaded that are
links, in the same order; only behind the last of them the budget may give out. A search hands over
none. -/
theorem links_handed_over {w : Walker} {loader : Loader} (hloader : w.config.loader = some loader) :
    (∀ (σ : Type) (hops : Nat) (root : Node) (s : Selector) (visitor : Visitor σ) (state : σ),
      let report := (w.walk hops root s visitor state).1
      report.handedLinks = report.loadedLinks loader ∨
        (∃ p, report.outcome = .failed (.budgetExceeded .node p none)) ∧
          ∃ x, report.handedLinks ++ [x] = report.loadedLinks loader) ∧
    ∀ (α : Type) (hops : Nat) (root : Node) (path : Path)
      (visit visit' : Progress → Node → Except WalkError α),
      (∀ p n, n.link? = none → visit p n = visit' p n) →
        w.focus hops root path visit = w.focus hops root path visit' := by
  refine ⟨fun σ hops root s visitor state => ?_, fun α hops root path visit visit' h => ?_⟩
  · have hbegin : ((Walker.new w.config).begin state).Owes loader [] := rfl
    have hwalk : Maintains (Run.Owes loader []) (Halt.Owes loader)
        (enter Selector.picks? visitor
          (follow Selector.picks? w.config visitor hops) root .start s) :=
      maintains_enter_of_owes hloader hops root .start s
    obtain ⟨outcome, run, heq, hend⟩ := Walker.exists_run_of_maintains hwalk hbegin
    rw [Walker.walk, heq]
    have heven (h : run.Owes loader []) : run.log.filterMap Event.handedLink? =
        run.log.filterMap (Event.loadedLink? loader) := by
      rw [← h, List.append_nil]
    rcases hend with ⟨h, rfl⟩ | ⟨halt, h | ⟨⟨p, rfl⟩, x, h⟩, rfl⟩
    · exact .inl (heven h)
    · exact .inl (heven h)
    · exact .inr ⟨⟨p, rfl⟩, x, h⟩
  · refine Walker.focus_congr (fun p n hstands => h p n ?_) hops root path
    rcases hstands with hnone | hlink
    · rw [hloader] at hnone
      cases hnone
    · exact hlink

/-- Of three blocks that are loaded one is a link, and it is the one link that is visited. -/
theorem links_handed_over_chain :
    let loader : Loader := (BlockStore.ofList
      [(⟨"x"⟩, .link ⟨"y"⟩), (⟨"y"⟩, .list [.link ⟨"z"⟩]), (⟨"z"⟩, .int 1)]).loader
    let report := ((Walker.new ⟨some loader, some ⟨9, 9⟩, true⟩).walk 3
      (.list [.link ⟨"x"⟩, .link ⟨"y"⟩]) (.recursion .unbounded (.all .edge)) .onlooker ()).1
    report.loads.length = 3 ∧ report.handedLinks.map Prod.snd = [⟨"y"⟩] ∧
      report.handedLinks = report.loadedLinks loader := by
  intro loader report
  have hdone : report.outcome = .done := rfl
  refine ⟨rfl, rfl, ?_⟩
  rcases (links_handed_over (w := .new ⟨some loader, some ⟨9, 9⟩, true⟩) rfl).1 Unit 3 _ _
    .onlooker ()
    with heven | ⟨⟨p, hrefused⟩, -⟩
  · exact heven
  · rw [show report.outcome = _ from hrefused] at hdone
    cases hdone

/-- A block that is a link is visited as it is. -/
theorem exists_link_handed_over :
    ∃ (store : BlockStore) (root : Node) (s : Selector),
      let report := ((Walker.new ⟨some store.loader, none, false⟩).walk 2 root s .onlooker ()).1
      report.outcome = .done ∧ ∃ v ∈ report.visits, v.node.link? = some ⟨"y"⟩ :=
  ⟨.ofList [(⟨"x"⟩, .link ⟨"y"⟩), (⟨"y"⟩, .int 1)], .link ⟨"x"⟩, .matcher, by decide⟩

end DagSelect
