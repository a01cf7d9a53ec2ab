import DagSelect.Proofs.Walk.SideBySide

/-!
# Each link once

A walk that loads each link at most once leaves out what is behind a link that it meets again, and
does everything else as the walk that loads links as often as it meets them. `Run.LeavesOut` relates
the two: what the one has done is what the other has done with some of it left out, so it has no
less of its budget left, and as long as the other has met no link twice nothing has been left out at
all.

Where the two part, at a link that was met before, one of them only waits. The other can do nothing
on its way but spend and add to what it has done (`maintains_later`), and so they are related again
when it comes back (`tracks_follow_once`).
-/

namespace DagSelect

variable {σ : Type}

def linksOf (events : List Event) : List Link := (events.filterMap Event.load?).map Prod.fst

def Visitor.AlwaysSucceeds (visitor : Visitor σ) : Prop :=
  ∀ state v, ∃ state', visitor state v = .ok state'

theorem Visitor.alwaysSucceeds_onlooker : Visitor.onlooker.AlwaysSucceeds := fun _ _ => ⟨(), rfl⟩

namespace Run

@[simp] theorem linksOf_record_visit (run : Run σ) (v : Visit) :
    linksOf (run.record (.visit v)).log = linksOf run.log := by
  simp [linksOf, Event.load?]

@[simp] theorem linksOf_record_load (run : Run σ) (l : Link) (p : Progress) :
    linksOf (run.record (.load l p)).log = linksOf run.log ++ [l] := by
  simp [linksOf, Event.load?]

/-- The other run has left out some of what the run has done, and nothing if no link was loaded
twice. -/
structure LeavesOut (run other : Run σ) : Prop where
  log : other.log.Sublist run.log
  rich : other.AsRich run
  same : (linksOf run.log).Nodup →
    other.log = run.log ∧ other.visitor = run.visitor ∧ ∀ l, l ∈ other.seen ↔ l ∈ linksOf run.log

/-- The run has gone on beyond the events, and the other run has no less left than it. -/
structure Later (other : Run σ) (events : List Event) (run : Run σ) : Prop where
  log : events <+: run.log
  rich : other.AsRich run

/-- A run that loads a link again may go on while the other waits. -/
theorem LeavesOut.of_later {run other next : Run σ} (h : run.LeavesOut other) {l : Link}
    (hl : l ∈ other.seen) {p : Progress} (hlater : other.Later (run.log ++ [.load l p]) next) :
    next.LeavesOut other where
  log := h.log.trans ((List.sublist_append_left _ _).trans hlater.log.sublist)
  rich := hlater.rich
  same hnodup := by
    have hlinks : (linksOf (run.log ++ [.load l p])).Nodup :=
      ((hlater.log.sublist.filterMap _).map _).nodup hnodup
    rw [show linksOf (run.log ++ [.load l p]) = linksOf run.log ++ [l] by
      simp [linksOf, Event.load?], List.nodup_append] at hlinks
    obtain ⟨-, -, hseen⟩ := h.same hlinks.1
    exact absurd rfl (hlinks.2.2 l ((hseen l).1 hl) l (List.mem_singleton_self l))

end Run

open DagSelect.Action

/-! ## No link twice -/

section

variable {visitor : Visitor σ}

/-- The loads of a walk that notes the links it meets are loads of different links. -/
theorem maintains_nodup_links {config : Config} (honce : config.once = true) (prune : Pruning)
    (hops : Nat) (n : Node) (p : Progress) (s : Selector) :
    Maintains (fun run => (linksOf run.log).Nodup ∧ linksOf run.log ⊆ run.seen)
      (fun _ run => (linksOf run.log).Nodup)
      (enter prune visitor (follow prune config visitor hops) n p s) := by
  refine maintains_enter (fun v => triple_visit (fun run h _ => h.1) fun run run' h hspend => ?_)
    (fun loader _ l p => maintains_load (fun run h _ => ?_) fun run run' h hmet hspend => ?_)
    (fun run h => h.1) hops n p s
  · rw [← Run.log_of_spend? hspend, ← Run.seen_of_spend? hspend] at h
    rw [← Run.linksOf_record_visit run' v] at h
    exact ⟨fun _ _ => h, fun _ _ => h.1⟩
  · rw [Run.log_meet]
    exact h.1
  · rw [honce] at hmet hspend
    have hl : l ∉ run.seen := fun hl => hmet ⟨rfl, hl⟩
    have hseen : run'.seen = l :: run.seen := Run.seen_of_spend? hspend
    have hlinks : linksOf (run'.record (.load l p)).log = linksOf run.log ++ [l] := by
      rw [Run.linksOf_record_load, Run.log_of_spend? hspend, Run.log_meet]
    have hnodup : (linksOf (run'.record (.load l p)).log).Nodup := by
      rw [hlinks, List.nodup_append]
      refine ⟨h.1, by simp, fun a ha b hb => ?_⟩
      obtain rfl := List.mem_singleton.1 hb
      rintro rfl
      exact hl (h.2 ha)
    have hsubset : linksOf (run'.record (.load l p)).log ⊆ (run'.record (.load l p)).seen := by
      rw [hlinks]
      show _ ⊆ run'.seen
      rw [hseen]
      exact List.append_subset.2 ⟨List.subset_cons_of_subset l h.2, by simp⟩
    exact ⟨⟨hnodup, hsubset⟩, fun _ _ => hnodup⟩

end

/-! ## Behind a link that was met before -/

def Halt.NotStopped (halt : Halt) (_ : Run σ) : Prop := halt ≠ .failed .stopped

section

variable {other run : Run σ} {events : List Event} {visitor : Visitor σ}
  (hvisitor : visitor.AlwaysSucceeds)

theorem triple_load_later (h : other.AsRich run) (loader : Loader) (l : Link) (p : Progress) :
    Triple (· = run) (load false loader l p) (fun _ => other.Later (run.log ++ [.load l p]))
      Halt.NotStopped := by
  refine triple_load (by rintro _ _ ⟨⟩) (fun _ _ _ => by rintro ⟨⟩) fun r run' hr _ hspend => ?_
  rw [hr] at hspend
  have hrich : other.AsRich run' := (h.meet false false l l).spend?_right hspend
  have hlog : (run'.record (.load l p)).log = run.log ++ [.load l p] := by
    rw [Run.log_record, Run.log_of_spend? hspend, Run.log_meet]
  have hlater : other.Later (run.log ++ [.load l p]) (run'.record (.load l p)) :=
    ⟨hlog ▸ List.prefix_rfl, hrich⟩
  exact ⟨fun _ _ => hlater, fun _ => hlater, fun _ _ => by rintro ⟨⟩⟩

include hvisitor

theorem maintains_later_visit (v : Visit) :
    Maintains (other.Later events) Halt.NotStopped (visit visitor v) := by
  refine triple_visit (fun _ _ _ => by rintro ⟨⟩) fun run run' h hspend => ?_
  have hrich : other.AsRich run' := h.rich.spend?_right hspend
  have hlog : events <+: (run'.record (.visit v)).log := by
    rw [Run.log_record, Run.log_of_spend? hspend]
    exact h.log.trans (List.prefix_append _ _)
  refine ⟨fun _ _ => ⟨hlog, hrich⟩, fun e he => ?_⟩
  · obtain ⟨state', hok⟩ := hvisitor run'.visitor v
    rw [hok] at he
    cases he

theorem maintains_later_follow {config : Config} (prune : Pruning) (hops : Nat) (l : Link)
    (p : Progress) (s : Selector) :
    Maintains (other.Later events) Halt.NotStopped (follow prune config visitor hops l p s) := by
  refine maintains_follow (maintains_later_visit hvisitor) (fun loader _ l p => ?_)
    (fun _ _ => by rintro ⟨⟩) hops l p s
  refine maintains_load (fun _ _ _ => by rintro ⟨⟩) fun run run' h _ hspend => ?_
  have hrich : other.AsRich run' := (h.rich.meet false config.once l l).spend?_right hspend
  have hlog : events <+: (run'.record (.load l p)).log := by
    rw [Run.log_record, Run.log_of_spend? hspend, Run.log_meet]
    exact h.log.trans (List.prefix_append _ _)
  exact ⟨⟨hlog, hrich⟩, fun _ _ => by rintro ⟨⟩⟩

/-- A walk that follows a link loads it first. -/
theorem triple_follow_later {config : Config} (honce : config.once = false) {loader : Loader}
    (hloader : config.loader = some loader) (h : other.AsRich run) (prune : Pruning) (hops : Nat)
    (l : Link) (p : Progress) (s : Selector) :
    Triple (· = run) (follow prune config visitor hops l p s)
      (fun _ => other.Later (run.log ++ [.load l p])) Halt.NotStopped := by
  cases hops with
  | zero =>
    rw [follow_zero_of_loader hloader]
    exact fun _ _ => by rintro ⟨⟩
  | succ hops =>
    rw [follow_succ_of_loader hloader, honce]
    refine (triple_load_later h loader l p).bind fun found => ?_
    cases found with
    | none => exact maintains_pure ()
    | some block =>
      exact maintains_walkBlock_of_visits (maintains_later_visit hvisitor)
        (maintains_later_follow hvisitor prune hops) block (p.cross l) s

end

/-! ## Two walks side by side -/

/-- The first of the two ended for another reason than that its visitor ended it. -/
def CutUnlessStopped (halt : Halt) (_ _ : List Event) : Prop := halt ≠ .failed .stopped

theorem lasting_cutUnlessStopped : Lasting CutUnlessStopped := fun _ _ _ _ h _ => h

section

variable {visitor : Visitor σ} (hvisitor : visitor.AlwaysSucceeds)

include hvisitor

theorem tracks_visit_once (v : Visit) :
    Tracks Run.LeavesOut CutUnlessStopped (visit visitor v) (visit visitor v) where
  grows := extends_visit visitor v
  step run other h := by
    rw [visit_run, visit_run]
    cases hspend : run.spend? .node with
    | none => exact .inr (by rintro ⟨⟩)
    | some run' =>
      obtain ⟨other', hspend', hrich⟩ := h.rich.spend? hspend
      obtain ⟨state, hstate⟩ := hvisitor run'.visitor v
      obtain ⟨state', hstate'⟩ := hvisitor other'.visitor v
      simp only [hspend', handed, hstate, hstate']
      obtain ⟨budget, rfl⟩ := Run.exists_budget_of_spend? hspend
      obtain ⟨budget', rfl⟩ := Run.exists_budget_of_spend? hspend'
      refine ⟨_, rfl, ?_, hrich, fun hnodup => ?_⟩
      · show (other.record (.visit v)).log.Sublist (run.record (.visit v)).log
        rw [Run.log_record, Run.log_record]
        exact h.log.append (.refl _)
      · have hlinks : linksOf (run.record (.visit v)).log = linksOf run.log :=
          Run.linksOf_record_visit run v
        obtain ⟨hlog, hsame, hseen⟩ := h.same (hlinks ▸ hnodup)
        refine ⟨?_, ?_, fun l => ?_⟩
        · show (other.record (.visit v)).log = (run.record (.visit v)).log
          rw [Run.log_record, Run.log_record, hlog]
        · rw [hsame] at hstate'
          exact Except.ok.inj (hstate'.symm.trans hstate)
        · show l ∈ other.seen ↔ l ∈ linksOf (run.record (.visit v)).log
          rw [hlinks]
          exact hseen l

omit hvisitor in
/-- A link that has not been met is loaded by both. -/
theorem load_once_of_unseen {run other : Run σ} (h : run.LeavesOut other)
    (loader : Loader) {l : Link} (hl : l ∉ other.seen) (p : Progress) :
    match load false loader l p run with
    | .ok found next => ∃ next', load true loader l p other = .ok found next' ∧ next.LeavesOut next'
    | .error halt _ => halt ≠ .failed .stopped := by
  rw [load_false_run, load_run, if_neg fun hmet => hl hmet.2]
  cases hspend : run.spend? .link with
  | none => rintro ⟨⟩
  | some run' =>
    obtain ⟨other', hspend', hrich⟩ := (h.rich.meet true false l l).spend? hspend
    obtain ⟨budget, rfl⟩ := Run.exists_budget_of_spend? hspend
    obtain ⟨budget', rfl⟩ := Run.exists_budget_of_spend? hspend'
    have hnext : Run.LeavesOut (Run.record { run with budget := budget } (.load l p))
        (Run.record { other.meet true l with budget := budget' } (.load l p)) := by
      refine ⟨?_, hrich, fun hnodup => ?_⟩
      · show (other.record (.load l p)).log.Sublist (run.record (.load l p)).log
        rw [Run.log_record, Run.log_record]
        exact h.log.append (.refl _)
      · have hlinks : linksOf (run.record (.load l p)).log = linksOf run.log ++ [l] :=
          Run.linksOf_record_load run l p
        obtain ⟨hlog, hsame, hseen⟩ := h.same (List.nodup_append.1 (hlinks ▸ hnodup)).1
        refine ⟨?_, hsame, fun l' => ?_⟩
        · show (other.record (.load l p)).log = (run.record (.load l p)).log
          rw [Run.log_record, Run.log_record, hlog]
        · show l' ∈ l :: other.seen ↔ l' ∈ linksOf (run.record (.load l p)).log
          rw [hlinks, List.mem_cons, List.mem_append, List.mem_singleton, hseen, or_comm]
    simp only [hspend', asked]
    cases loader l p with
    | ok block => exact ⟨_, rfl, hnext⟩
    | error e =>
      cases e with
      | skip => exact ⟨_, rfl, hnext⟩
      | _ => rintro ⟨⟩

/-- Where a link was met before, the one walk goes on while the other waits. -/
theorem tracks_follow_once {config config' : Config} (hloader : config'.loader = config.loader)
    (honce : config.once = false) (honce' : config'.once = true) (prune : Pruning) (hops : Nat)
    (l : Link) (p : Progress) (s : Selector) :
    Tracks Run.LeavesOut CutUnlessStopped (follow prune config visitor hops l p s)
      (follow prune config' visitor hops l p s) := by
  cases hconfig : config.loader with
  | none =>
    rw [follow_of_loader_eq_none hconfig, follow_of_loader_eq_none (hloader.trans hconfig)]
    exact tracks_visit_once hvisitor _
  | some loader =>
    have hconfig' : config'.loader = some loader := hloader.trans hconfig
    induction hops generalizing l p s with
    | zero =>
      rw [follow_zero_of_loader hconfig, follow_zero_of_loader hconfig']
      exact tracks_throw _
    | succ hops ih =>
      refine ⟨extends_follow prune config' visitor _ l p s, fun run other h => ?_⟩
      by_cases hl : l ∈ other.seen
      · have hlater :=
          triple_follow_later hvisitor honce hconfig h.rich prune (hops + 1) l p s run rfl
        have hwaits : follow prune config' visitor (hops + 1) l p s other = .ok () other := by
          rw [follow_succ_of_loader hconfig', honce', bind_run, load_run, if_pos ⟨rfl, hl⟩]
          rfl
        cases hstep : follow prune config visitor (hops + 1) l p s run with
        | ok a next =>
          rw [hstep] at hlater
          exact ⟨other, hwaits, h.of_later hl hlater⟩
        | error halt last =>
          rw [hstep] at hlater
          exact .inr hlater
      · have hload := load_once_of_unseen h loader hl p
        rw [follow_succ_of_loader hconfig, follow_succ_of_loader hconfig', honce, honce']
        cases hstep : load false loader l p run with
        | error halt last =>
          rw [hstep] at hload
          rw [bind_run_of_error hstep]
          exact .inr hload
        | ok found next =>
          rw [hstep] at hload
          obtain ⟨next', hstep', hnext⟩ := hload
          rw [bind_run_of_ok hstep, bind_run_of_ok hstep']
          cases found with
          | none => exact ⟨next', rfl, hnext⟩
          | some block =>
            exact (tracks_walkBlock lasting_cutUnlessStopped (tracks_visit_once hvisitor) ih block
              (p.cross l) s).step next next' hnext

end

/-! ## The two walks -/

/-- A walk that notes the links it meets loads no link twice. -/
theorem Walker.nodup_loads_of_once {w : Walker} (honce : w.config.once = true) (prune : Pruning)
    (hops : Nat) (root : Node) (s : Selector) (visitor : Visitor σ) (state : σ) :
    ((w.walkPruned prune hops root s visitor state).1.loads.map Prod.fst).Nodup := by
  have hbegin : (linksOf ((new w.config).begin state).log).Nodup ∧
      linksOf ((new w.config).begin state).log ⊆ ((new w.config).begin state).seen :=
    ⟨List.nodup_nil, List.nil_subset _⟩
  obtain ⟨outcome, run, heq, hend⟩ := exists_run_of_maintains
    (maintains_nodup_links honce prune hops root .start s) hbegin
  rw [heq]
  rcases hend with ⟨⟨hnodup, -⟩, -⟩ | ⟨halt, hnodup, -⟩
  · exact hnodup
  · exact hnodup

/-- Where the walk that loads links as often as it meets them is done, the walk that loads each link
once is done as well. It has done the same with some of it left out, and nothing is left out that is
not behind a link loaded a second time. -/
theorem walk_once {loader : Option Loader} {budget : Option Budget} (w w' : Walker)
    (hw : w.config = ⟨loader, budget, false⟩) (hw' : w'.config = ⟨loader, budget, true⟩)
    {visitor : Visitor σ} (hvisitor : visitor.AlwaysSucceeds) (hops : Nat) (root : Node)
    (s : Selector) (state : σ) (hdone : (w.walk hops root s visitor state).1.outcome = .done) :
    let all := (w.walk hops root s visitor state).1
    let once := (w'.walk hops root s visitor state).1
    once.outcome = .done ∧ once.events.Sublist all.events ∧ once.visits.Sublist all.visits ∧
      once.loads.Sublist all.loads ∧ (once.loads.map Prod.fst).Nodup ∧
      ((all.loads.map Prod.fst).Nodup → once = all) := by
  intro all once
  have hbegin : ((Walker.new w.config).begin state).LeavesOut
      ((Walker.new w'.config).begin state) := by
    rw [hw, hw']
    refine ⟨List.Sublist.refl _, Run.AsRich.refl _, fun _ => ⟨rfl, rfl, fun l => ?_⟩⟩
    exact iff_of_false List.not_mem_nil List.not_mem_nil
  have hfollow : ∀ l p s, Tracks Run.LeavesOut CutUnlessStopped
      (follow Selector.picks? w.config visitor hops l p s)
      (follow Selector.picks? w'.config visitor hops l p s) := fun l p s =>
    tracks_follow_once hvisitor (by rw [hw, hw']) (by rw [hw]) (by rw [hw']) Selector.picks?
      hops l p s
  obtain ⟨outcome, outcome', run, run', hall, honce, hboth⟩ := Walker.exists_runs_of_tracks w w'
    (tracks_enter lasting_cutUnlessStopped (tracks_visit_once hvisitor) hfollow root .start s)
      hbegin
  have hnodup : (once.loads.map Prod.fst).Nodup :=
    Walker.nodup_loads_of_once (congrArg Config.once hw') Selector.picks? hops root s visitor state
  change all.outcome = .done at hdone
  rw [show all = _ from hall] at hdone ⊢
  rw [show once = _ from honce] at hnodup ⊢
  rcases hboth with ⟨rfl, h⟩ | ⟨halt, rfl, hhalt⟩
  · refine ⟨hdone, h.log, h.log.filterMap _, h.log.filterMap _, hnodup, fun hdifferent => ?_⟩
    obtain ⟨hlog, hvisitor, -⟩ := h.same hdifferent
    rw [hlog, hvisitor]
  · exact absurd (Halt.eq_stopped_of_outcome hdone) hhalt

/-- Two blocks that are come to five times are loaded once each. -/
theorem walk_once_shared_blocks :
    let loader : Loader := (BlockStore.ofList
      [(⟨"x"⟩, .list [.int 1, .link ⟨"y"⟩]), (⟨"y"⟩, .int 2)]).loader
    let root : Node := .list [.link ⟨"x"⟩, .link ⟨"y"⟩, .link ⟨"x"⟩]
    let selector : Selector := .recursion .unbounded (.union [.matcher, .all .edge])
    let walk (once : Bool) := ((Walker.new ⟨some loader, some ⟨9, 5⟩, once⟩).walk 3 root selector
      .onlooker ()).1
    (walk false).outcome = .done ∧ (walk true).outcome = .done ∧
      (walk false).loads.length = 5 ∧ (walk true).loads.length = 2 ∧
      (walk true).events.Sublist (walk false).events ∧ ((walk true).loads.map Prod.fst).Nodup := by
  intro loader root selector walk
  have hdone : (walk false).outcome = .done := by decide +kernel
  have hloads : (walk false).loads.length = 5 := by decide +kernel
  have hloads' : (walk true).loads.length = 2 := by decide +kernel
  obtain ⟨hdone', hevents, -, -, hnodup, -⟩ := walk_once (.new ⟨some loader, some ⟨9, 5⟩, false⟩)
    (.new ⟨some loader, some ⟨9, 5⟩, true⟩) rfl rfl Visitor.alwaysSucceeds_onlooker 3 root selector
    ()
    hdone
  exact ⟨hdone, hdone', hloads, hloads', hevents, hnodup⟩

end DagSelect
