import DagSelect.Proofs.Selector.Weight
import DagSelect.Proofs.Walk.Pruning

/-!
# Walks of bounded selectors

A walk with a bounded selector comes to an end on every graph of blocks, also on one whose links
lead back. Loading a block takes no segment, but the block is walked in the place of its link and is
not loaded from again itself, so between one link and the next at least one child has been explored.
The weight of the selector therefore bounds the paths that are visited (`logs_enter`), and how deep
links are followed: with more hops than that the bound on them is never met and has no part in what
the walk does (`follow_eq_of_weight_lt`).
-/

namespace DagSelect

open Selector

variable {σ : Type}

def Event.path : Event → Path
  | .load _ p => p.path
  | .visit v => v.progress.path

section

variable {prune : Pruning} {visitor : Visitor σ}

/-- What is done at the links below a node depends only on what is done at them for lighter
selectors. -/
theorem walkBlock_congr_follow {s : Selector} (hs : s.Bounded) {f g : Follow σ}
    (h : ∀ t, t.Bounded → t.weight < s.weight → ∀ l p, f l p t = g l p t) (n : Node)
    (p : Progress) :
    walkBlock prune visitor f n p s = walkBlock prune visitor g n p s := by
  suffices step : n.Everywhere fun n => ∀ p s, s.Bounded →
      (∀ t, t.Bounded → t.weight < s.weight → ∀ l p, f l p t = g l p t) →
      walkBlock prune visitor f n p s = walkBlock prune visitor g n p s from step.here p s hs h
  refine Node.everywhere_of_step (fun n below p s hs h => ?_) n
  rw [walkBlock_eq, walkBlock_eq]
  congr 1
  funext _
  apply forM_congr
  intro e he
  have hchild := (below e (mem_of_mem_keepPicked he)).here
  cases hnext : s.explore? n e.1 with
  | none => rfl
  | some next =>
    have hlighter := hs.weight_explore?_lt hnext
    simp only [enter]
    cases e.2.link? with
    | some l => exact h next (hs.explore? hnext) hlighter l _
    | none =>
      refine hchild _ _ (hs.explore? hnext) fun t ht hlt => ?_
      exact h t ht (Nat.lt_trans hlt hlighter)

/-- With more hops than the selector weighs, their number makes no difference. -/
theorem follow_eq_of_weight_lt {config : Config} {s : Selector} (hs : s.Bounded) {hops hops' : Nat}
    (h : s.weight < hops) (h' : s.weight < hops') (l : Link) (p : Progress) :
    follow prune config visitor hops l p s = follow prune config visitor hops' l p s := by
  induction hops generalizing hops' s l p with
  | zero => exact absurd h (Nat.not_lt_zero _)
  | succ hops ih =>
    obtain ⟨hops', rfl⟩ := Nat.exists_eq_add_one_of_ne_zero (Nat.ne_zero_of_lt h')
    unfold follow
    cases config.loader with
    | none => rfl
    | some loader =>
      apply Action.load_bind_congr
      · rfl
      · intro block _
        refine walkBlock_congr_follow hs (fun t ht hlt l p => ?_) block (p.cross l)
        exact ih ht (by omega) (by omega) l p

/-! ## How far a walk comes -/

def Event.Within (bound : Nat) (e : Event) : Prop := e.path.length ≤ bound

variable {allowed : Halt → Prop} {bound : Nat}

theorem logs_walkBlock (hfailed : ∀ e, allowed (.failed e)) {follow : Follow σ} {s : Selector}
    (hs : s.Bounded)
    (hfollow : ∀ t, t.Bounded → t.weight < s.weight → ∀ l p, p.path.length + t.weight ≤ bound →
      Action.Logs (Event.Within bound) allowed (follow l p t))
    (n : Node) (p : Progress) (hp : p.path.length + s.weight ≤ bound) :
    Action.Logs (Event.Within bound) allowed (walkBlock prune visitor follow n p s) := by
  suffices step : n.Everywhere fun n => ∀ p s, s.Bounded → p.path.length + s.weight ≤ bound →
      (∀ t, t.Bounded → t.weight < s.weight → ∀ l p, p.path.length + t.weight ≤ bound →
        Action.Logs (Event.Within bound) allowed (follow l p t)) →
      Action.Logs (Event.Within bound) allowed (walkBlock prune visitor follow n p s) from
    step.here p s hs hp hfollow
  refine Node.everywhere_of_step (fun n below p s hs hp hfollow => ?_) n
  rw [walkBlock_eq]
  refine (Action.logs_visit hfailed (Nat.le_of_add_right_le hp)).bind fun _ => ?_
  apply Action.logs_forM
  intro e he
  have hchild := (below e (mem_of_mem_keepPicked he)).here
  cases hnext : s.explore? n e.1 with
  | none => exact Action.logs_pure ()
  | some next =>
    have hlighter := hs.weight_explore?_lt hnext
    have hplace : (p.push e.1).path.length + next.weight ≤ bound := by
      simp only [Path.length, Progress.path_push, Path.segments_push, List.length_append,
        List.length_singleton] at hp ⊢
      omega
    simp only [enter]
    cases e.2.link? with
    | some l => exact hfollow next (hs.explore? hnext) hlighter l _ hplace
    | none =>
      refine hchild _ _ (hs.explore? hnext) hplace fun t ht hlt => ?_
      exact hfollow t ht (Nat.lt_trans hlt hlighter)

theorem logs_follow (hfailed : ∀ e, allowed (.failed e)) {config : Config} {s : Selector}
    (hs : s.Bounded) {hops : Nat} (hhops : s.weight < hops) (l : Link) (p : Progress)
    (hp : p.path.length + s.weight ≤ bound) :
    Action.Logs (Event.Within bound) allowed (follow prune config visitor hops l p s) := by
  induction hops generalizing s l p with
  | zero => exact absurd hhops (Nat.not_lt_zero _)
  | succ hops ih =>
    have hplace : p.path.length ≤ bound := Nat.le_of_add_right_le hp
    unfold follow
    cases config.loader with
    | none =>
      exact logs_walkBlock hfailed hs (fun _ _ _ _ _ _ => Action.logs_pure ()) (.link l) p hp
    | some loader =>
      refine (Action.logs_load hfailed hplace).bind fun found => ?_
      cases found with
      | none => exact Action.logs_pure ()
      | some block =>
        refine logs_walkBlock hfailed hs (fun t ht hlt l p hp => ?_) block (p.cross l) hp
        exact ih ht (by omega) l p hp

/-- A walk goes no further down than the selector weighs, and with more hops than that it does not
run out of them. -/
theorem logs_enter (hfailed : ∀ e, allowed (.failed e)) {config : Config} {s : Selector}
    (hs : s.Bounded) {hops : Nat} (hhops : s.weight < hops) (n : Node) (p : Progress)
    (hp : p.path.length + s.weight ≤ bound) :
    Action.Logs (Event.Within bound) allowed
      (enter prune visitor (follow prune config visitor hops) n p s) := by
  unfold enter
  split
  · next l _ => exact logs_follow hfailed hs hhops l p hp
  · refine logs_walkBlock hfailed hs (fun t ht hlt l p hp => ?_) n p hp
    exact logs_follow hfailed ht (Nat.lt_trans hlt hhops) l p hp

end

namespace Walker

variable (w : Walker) {s : Selector} (hs : s.Bounded) {hops : Nat} (hhops : s.weight < hops)
  (root : Node) (visitor : Visitor σ) (state : σ)

include hs hhops

theorem walk_eq_of_weight_lt :
    w.walk hops root s visitor state = w.walk (s.weight + 1) root s visitor state := by
  have henter : enter picks? visitor (follow picks? w.config visitor hops) root .start s =
      enter picks? visitor (follow picks? w.config visitor (s.weight + 1)) root .start s := by
    simp only [enter]
    cases root.link? with
    | some l => exact follow_eq_of_weight_lt hs hhops (Nat.lt_succ_self _) l .start
    | none =>
      refine walkBlock_congr_follow hs (fun t ht hlt l p => ?_) root .start
      exact follow_eq_of_weight_lt ht (by omega) (by omega) l p
  simp only [walk, walkPruned, reset, new, henter]

theorem walk_ends_within_weight :
    (w.walk hops root s visitor state).1.outcome ≠ .unfinished ∧
      ∀ v ∈ (w.walk hops root s visitor state).1.visits, v.progress.path.length ≤ s.weight := by
  have hlogs : Action.Logs (Event.Within s.weight) (· ≠ .outOfHops)
      (enter picks? visitor (follow picks? w.config visitor hops) root .start s) :=
    logs_enter (fun _ => nofun) hs hhops root .start (by simp [Progress.start, Path.length])
  have hrun := hlogs (w.reset.begin state) (by simp [begin])
  have within {events : Array Event} (h : ∀ e ∈ events, e.Within s.weight) :
      ∀ v ∈ events.toList.filterMap Event.visit?, v.progress.path.length ≤ s.weight := by
    intro v hv
    obtain ⟨e, he, hev⟩ := List.mem_filterMap.1 hv
    cases e with
    | load l p => cases hev
    | visit u =>
      cases hev
      exact h _ (Array.mem_toList_iff.1 he)
  unfold walk walkPruned Report.visits
  simp only [reset, new, EStateM.run] at hrun ⊢
  split at hrun
  · next heq =>
    rw [heq]
    exact ⟨by rintro ⟨⟩, within hrun⟩
  · next halt run heq =>
    rw [heq]
    obtain ⟨hhalt, hevents⟩ := hrun
    cases halt with
    | outOfHops => exact absurd rfl hhalt
    | failed e => cases e <;> exact ⟨by rintro ⟨⟩, within hevents⟩

end Walker

/-- Every step of a bounded selector spends weight, and every walk with it ends, no deeper than the
selector weighs, whatever its settings and wherever the links lead. -/
theorem bounded_walk_ends :
    (∀ (s t : Selector) (parent : Node) (segment : Segment), s.Bounded →
      s.explore? parent segment = some t → t.weight < s.weight ∧ t.Bounded) ∧
      ∀ (σ : Type) (w : Walker) (root : Node) (s : Selector) (visitor : Visitor σ) (state : σ),
        s.Bounded → ∀ hops, s.weight < hops →
          w.walk hops root s visitor state = w.walk (s.weight + 1) root s visitor state ∧
            (w.walk hops root s visitor state).1.outcome ≠ .unfinished ∧
            ∀ v ∈ (w.walk hops root s visitor state).1.visits,
              v.progress.path.length ≤ s.weight := by
  constructor
  · intro s t parent segment hs ht
    exact ⟨hs.weight_explore?_lt ht, hs.explore? ht⟩
  · intro σ w root s visitor state hs hops hhops
    exact ⟨w.walk_eq_of_weight_lt hs hhops root visitor state,
      w.walk_ends_within_weight hs hhops root visitor state⟩

/-- A block that links to itself is walked three links deep. -/
theorem bounded_walk_ends_cyclic :
    let block : Node := .list [.link ⟨"x"⟩]
    let config : Config := ⟨some (BlockStore.ofList [(⟨"x"⟩, block)]).loader, none, false⟩
    let selector : Selector := .recursion (.depth 3) (.union [.matcher, .all .edge])
    let report := ((Walker.new config).walk 4 (.link ⟨"x"⟩) selector .onlooker ()).1
    selector.Bounded ∧ selector.weight = 3 ∧ report.outcome ≠ .unfinished ∧
      ∀ v ∈ report.visits, v.progress.path.length ≤ 3 := by
  intro block config selector report
  have hsequence : (Selector.union [.matcher, .all .edge]).Bounded := by
    apply Bounded.union
    intro m hm
    rcases List.mem_cons.1 hm with rfl | hm
    · exact .matcher
    · obtain rfl := List.mem_singleton.1 hm
      exact .all .edge
  have hs : selector.Bounded := .recursive hsequence hsequence
  have hweight : selector.weight = 3 := rfl
  refine ⟨hs, hweight, ?_⟩
  rw [← hweight]
  exact (bounded_walk_ends.2 Unit (.new config) (.link ⟨"x"⟩) selector .onlooker () hs 4
    (by rw [hweight]; decide)).2

end DagSelect
