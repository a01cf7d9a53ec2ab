import DagSelect.Proofs.Walk.Locate
import DagSelect.Proofs.Walk.Lookup
import DagSelect.Proofs.Walk.Pruning
import DagSelect.Proofs.Walk.Undisturbed

/-!
# A walker that holds its place

The walk written out with the place as a field of the walker. Going down to a child pushes its
segment and pops it when the child is done, following a link puts the crossing in and afterwards
puts the one before back, and both happen whether or not the walk below came to an end. Children are
looked up one by one (`lookedUp`).

The walk of `Walker` hands places down instead and has nothing to take back. A step that is done
where the walker is (`Roaming.act`) and then leaves it where it was cannot be told from one that is
handed the place, so the two walks report the same (`Roamer.walk_eq`). Following a path never goes
back, so its places only agree at the end (`Roamer.focus_eq`).
-/

namespace DagSelect

variable {σ α β : Type}

abbrev Roaming (σ α : Type) := EStateM Halt (Progress × Run σ) α

namespace Roaming

def act (x : Progress → Action σ α) : Roaming σ α := fun state =>
  match x state.1 state.2 with
  | .ok a run => .ok a (state.1, run)
  | .error halt run => .error halt (state.1, run)

def place : Roaming σ Progress := return (← get).1

def move (go : Progress → Progress) : Roaming σ Unit := modify fun state => (go state.1, state.2)

/-- Goes back after a step, also after one that failed. -/
def thenBack (x : Roaming σ α) (back : Progress → Progress) : Roaming σ α := fun state =>
  match x state with
  | .ok a after => .ok a (back after.1, after.2)
  | .error halt after => .error halt (back after.1, after.2)

end Roaming

open Roaming

def roamBlock (visitor : Visitor σ) (follow : Link → Selector → Roaming σ Unit) :
    Node → Selector → Roaming σ Unit :=
  Node.fold fun n children s => do
    act fun p => Action.visit visitor ⟨p, n, s.reason⟩
    (lookedUp s n children).forM fun (segment, child, roamChild) =>
      match s.explore? n segment with
      | none => pure ()
      | some next => do
        move (·.push segment)
        let below := match child.link? with
          | some l => follow l next
          | none => roamChild next
        thenBack below fun p => { p with path := p.path.pop }

def roamEnter (visitor : Visitor σ) (follow : Link → Selector → Roaming σ Unit) (n : Node)
    (s : Selector) : Roaming σ Unit :=
  match n.link? with
  | some l => follow l s
  | none => roamBlock visitor follow n s

def roamFollow (config : Config) (visitor : Visitor σ) : Nat → Link → Selector → Roaming σ Unit
  | hops, l, s =>
    match config.loader with
    | none => roamBlock visitor (fun _ _ => pure ()) (.link l) s
    | some loader =>
      match hops with
      | 0 => throw .outOfHops
      | hops + 1 => do
        match ← act fun p => Action.load config.once loader l p with
        | none => pure ()
        | some block => do
          let saved := (← place).lastCrossing
          move (·.cross l)
          thenBack (roamBlock visitor (roamFollow config visitor hops) block s) fun p =>
            { p with lastCrossing := saved, crossings := p.crossings - 1 }

/-- Follows the segments to the node that they lead to, and stays there. `hops` bounds how many
links may stand for one node, and `bound` is what it begins with at every node. -/
def roamTo (config : Config) (bound hops : Nat) (n : Node) (rest : List Segment) :
    Roaming σ Node :=
  match config.loader, n.link? with
  | some loader, some l =>
    match hops with
    | 0 => throw .outOfHops
    | hops + 1 => do
      match ← act fun p => Action.load config.once loader l p with
      | none => act fun p => Action.fail (.pathNotFound p.path)
      | some block => do
        move (·.cross l)
        roamTo config bound hops block rest
  | _, _ =>
    match rest with
    | [] => return n
    | s :: rest => do
      move (·.push s)
      match n.get? s with
      | none => act fun p => Action.fail (.pathNotFound p.path)
      | some child => roamTo config bound bound child rest
termination_by (rest.length, hops)

/-! ## Steps that leave the place as it was -/

namespace Roaming

section

variable {x : Progress → Action σ α} {next : α → Roaming σ β} {p : Progress} {run run' : Run σ}

theorem act_bind_run_of_ok {a : α} (h : x p run = .ok a run') :
    (act x >>= next) (p, run) = next a (p, run') := by
  change EStateM.bind (act x) next (p, run) = _
  simp only [EStateM.bind, act, h]

theorem act_bind_run_of_error {halt : Halt} (h : x p run = .error halt run') :
    (act x >>= next) (p, run) = .error halt (p, run') := by
  change EStateM.bind (act x) next (p, run) = _
  simp only [EStateM.bind, act, h]

end

theorem act_bind (x : Progress → Action σ α) (y : α → Progress → Action σ β) :
    (act x >>= fun a => act (y a)) = act fun p => x p >>= fun a => y a p := by
  funext ⟨p, run⟩
  cases hx : x p run with
  | ok a run' =>
    rw [act_bind_run_of_ok hx]
    simp only [act, Action.bind_run_of_ok hx]
  | error halt run' =>
    rw [act_bind_run_of_error hx]
    simp only [act, Action.bind_run_of_error hx]

theorem forM_act (xs : List α) (y : α → Progress → Action σ Unit) :
    (forM xs fun a => act (y a)) = act fun p => forM xs fun a => y a p := by
  induction xs with
  | nil => rfl
  | cons a xs ih =>
    simp only [List.forM_cons, ih]
    exact act_bind (y a) fun _ p => forM xs fun a => y a p

/-- Going away and coming back is acting elsewhere. -/
theorem place_move_thenBack {go : Progress → Progress} {back : Progress → Progress → Progress}
    (h : ∀ p, back p (go p) = p) (x : Progress → Action σ α) :
    (do
      let here ← place
      move go
      thenBack (act x) (back here)) = act fun p => x (go p) := by
  funext ⟨p, run⟩
  change thenBack (act x) (back p) (go p, run) = act (fun p => x (go p)) (p, run)
  unfold thenBack act
  cases hx : x (go p) run <;> simp only [hx, h]

theorem move_thenBack {go back : Progress → Progress} (h : ∀ p, back (go p) = p)
    (x : Progress → Action σ α) :
    (do
      move go
      thenBack (act x) back) = act fun p => x (go p) := by
  have hback : ∀ p, (fun _ => back : Progress → Progress → Progress) p (go p) = p := h
  exact place_move_thenBack hback x

end Roaming

/-! ## The walk -/

@[simp] theorem Path.pop_push (p : Path) (s : Segment) : (p.push s).pop = p := by
  simp [pop, push]

theorem lookedUp_map (s : Selector) (n : Node) (f : α → β) (children : List α) :
    lookedUp s n (children.map f) = (lookedUp s n children).map f := by
  rw [lookedUp_eq_keepPicked, lookedUp_eq_keepPicked, keepPicked_map]

theorem roamBlock_eq (visitor : Visitor σ) (follow : Link → Selector → Roaming σ Unit) (n : Node)
    (s : Selector) :
    roamBlock visitor follow n s = (do
      act fun p => Action.visit visitor ⟨p, n, s.reason⟩
      forM (lookedUp s n n.children) fun e =>
        match s.explore? n e.1 with
        | none => pure ()
        | some next => do
          move (·.push e.1)
          thenBack (roamEnter visitor follow e.2 next) fun p => { p with path := p.path.pop }) := by
  conv => lhs; rw [roamBlock, Node.fold_eq, lookedUp_map]
  simp only [List.forM_eq_forM, List.forM_map]
  rfl

section

variable {visitor : Visitor σ} {roam : Link → Selector → Roaming σ Unit} {follow : Follow σ}

theorem roamEnter_eq_act {n : Node} {s : Selector}
    (hfollow : ∀ l, roam l s = act fun p => follow l p s)
    (hblock : roamBlock visitor roam n s =
      act fun p => walkBlock Selector.picks? visitor follow n p s) :
    roamEnter visitor roam n s = act fun p => enter Selector.picks? visitor follow n p s := by
  unfold roamEnter enter
  cases n.link? with
  | some l => exact hfollow l
  | none => exact hblock

theorem roamBlock_eq_act (hfollow : ∀ l s, roam l s = act fun p => follow l p s) (n : Node)
    (s : Selector) :
    roamBlock visitor roam n s = act fun p => walkBlock Selector.picks? visitor follow n p s := by
  suffices hn : n.Everywhere fun n => ∀ s, roamBlock visitor roam n s =
      act fun p => walkBlock Selector.picks? visitor follow n p s from hn.here s
  refine Node.everywhere_of_step (fun n below s => ?_) n
  have hchildren (e : Segment × Node) (he : e ∈ lookedUp s n n.children) :
      (match s.explore? n e.1 with
        | none => pure ()
        | some next => do
          move (·.push e.1)
          thenBack (roamEnter visitor roam e.2 next) fun p => { p with path := p.path.pop }) =
        act fun p =>
          match s.explore? n e.1 with
          | none => pure ()
          | some next => enter Selector.picks? visitor follow e.2 (p.push e.1) next := by
    rw [lookedUp_eq_keepPicked] at he
    cases s.explore? n e.1 with
    | none => rfl
    | some next =>
      have hblock := (below e (mem_of_mem_keepPicked he)).here next
      simp only [roamEnter_eq_act (fun l => hfollow l next) hblock]
      exact move_thenBack (fun p => by simp [Progress.push]) _
  rw [roamBlock_eq, forM_congr hchildren, forM_act, lookedUp_eq_keepPicked]
  simp only [walkBlock_eq]
  exact act_bind _ fun _ p => forM _ _

end

theorem roamFollow_eq_act (config : Config) (visitor : Visitor σ) (hops : Nat) (l : Link)
    (s : Selector) :
    roamFollow config visitor hops l s =
      act fun p => follow Selector.picks? config visitor hops l p s := by
  cases hloader : config.loader with
  | none =>
    unfold roamFollow follow
    simp only [hloader]
    have hfollow : ∀ (l : Link) (s : Selector), (pure () : Roaming σ Unit) =
        act fun p => (fun _ _ _ => pure () : Follow σ) l p s := fun _ _ => rfl
    exact roamBlock_eq_act hfollow (.link l) s
  | some loader =>
    induction hops generalizing l s with
    | zero =>
      unfold roamFollow follow
      simp only [hloader]
      rfl
    | succ hops ih =>
      simp only [follow_succ_of_loader hloader]
      unfold roamFollow
      simp only [hloader]
      rw [← act_bind]
      congr 1
      funext found
      cases found with
      | none => rfl
      | some block =>
        simp only [roamBlock_eq_act ih]
        exact place_move_thenBack (fun p => rfl) _

/-! ## Following a path -/

/-- One end of following a path, with the place beside the run and with the place beside the node.
Where it failed, nothing is said of the place. -/
inductive SameEnd : EStateM.Result Halt (Progress × Run σ) Node →
    EStateM.Result Halt (Run σ) (Progress × Node) → Prop
  | ok (n : Node) (p : Progress) (run : Run σ) : SameEnd (.ok n (p, run)) (.ok (p, n) run)
  | error (halt : Halt) (p : Progress) (run : Run σ) :
      SameEnd (.error halt (p, run)) (.error halt run)

section

variable {config : Config} {bound hops : Nat} {n : Node} {rest : List Segment}

theorem roamTo_nil_of_stands (h : config.Stands n) :
    roamTo (σ := σ) config bound hops n [] = pure n := by
  unfold roamTo
  rcases h with h | h
  · rw [h]
  · rw [h]
    cases config.loader <;> rfl

theorem roamTo_cons_of_stands (h : config.Stands n) (s : Segment) :
    roamTo (σ := σ) config bound hops n (s :: rest) = (do
      move (·.push s)
      match n.get? s with
      | none => act fun p => Action.fail (.pathNotFound p.path)
      | some child => roamTo config bound bound child rest) := by
  conv => lhs; unfold roamTo
  rcases h with h | h
  · rw [h]
  · rw [h]
    cases config.loader <;> rfl

theorem roamTo_zero_link {loader : Loader} (hloader : config.loader = some loader) (l : Link) :
    roamTo (σ := σ) config bound 0 (.link l) rest = throw .outOfHops := by
  unfold roamTo
  rw [hloader]
  rfl

theorem roamTo_succ_link {loader : Loader} (hloader : config.loader = some loader) (l : Link) :
    roamTo (σ := σ) config bound (hops + 1) (.link l) rest =
      (do
        match ← act fun p => Action.load config.once loader l p with
        | none => act fun p => Action.fail (.pathNotFound p.path)
        | some block => do
          move (·.cross l)
          roamTo config bound hops block rest) := by
  conv => lhs; unfold roamTo
  rw [hloader]
  rfl

/-- Every node on the way is resolved first; `hops` is what is left for that at the first of
them. -/
theorem sameEnd_roamTo_of_rest
    (hrest : ∀ s segments, rest = s :: segments → ∀ (child : Node) (p : Progress) (run : Run σ),
      SameEnd (roamTo config bound bound child segments (p, run))
        (locate config bound p child segments run))
    (n : Node) (p : Progress) (run : Run σ) :
    SameEnd (roamTo config bound hops n rest (p, run))
      ((resolve config hops p n >>= fun found =>
        locate config bound found.1 found.2 rest) run) := by
  have hstands (hops : Nat) (n : Node) (p : Progress) (run : Run σ) (hn : config.Stands n) :
      SameEnd (roamTo config bound hops n rest (p, run))
        ((resolve config hops p n >>= fun found => locate config bound found.1 found.2 rest)
          run) := by
    rw [resolve_of_stands hn, pure_bind]
    cases rest with
    | nil =>
      rw [roamTo_nil_of_stands hn, locate_nil, resolve_of_stands hn]
      exact .ok n p run
    | cons s segments =>
      rw [roamTo_cons_of_stands hn, locate_cons_of_stands hn]
      change SameEnd ((match n.get? s with
        | none => act fun p => Action.fail (.pathNotFound p.path)
        | some child => roamTo config bound bound child segments) (p.push s, run)) _
      cases n.get? s with
      | none => exact .error _ _ run
      | some child => exact hrest s segments rfl child (p.push s) run
  induction hops generalizing n p run with
  | zero =>
    rcases config.stands_or_link n with hn | ⟨loader, l, hloader, rfl⟩
    · exact hstands 0 n p run hn
    · rw [roamTo_zero_link hloader, resolve_zero_link hloader]
      exact .error _ p run
  | succ hops ih =>
    rcases config.stands_or_link n with hn | ⟨loader, l, hloader, rfl⟩
    · exact hstands (hops + 1) n p run hn
    · rw [roamTo_succ_link hloader, resolve_succ_link hloader, bind_assoc]
      cases hload : Action.load config.once loader l p run with
      | error halt run' =>
        rw [Action.bind_run_of_error hload, act_bind_run_of_error hload]
        exact .error halt p run'
      | ok found run' =>
        rw [Action.bind_run_of_ok hload, act_bind_run_of_ok hload]
        cases found with
        | none => exact .error _ p run'
        | some block => exact ih block (p.cross l) run'

/-- Both ways of following a path come to the same end. -/
theorem sameEnd_roamTo (n : Node) (p : Progress) (run : Run σ) :
    SameEnd (roamTo config bound bound n rest (p, run)) (locate config bound p n rest run) := by
  induction rest generalizing n p run with
  | nil =>
    rw [locate_eq_resolve_bind]
    exact sameEnd_roamTo_of_rest (by rintro s segments ⟨⟩) n p run
  | cons s rest ih =>
    rw [locate_eq_resolve_bind]
    refine sameEnd_roamTo_of_rest (fun _ segments h => ?_) n p run
    cases h
    exact ih

end

/-! ## A walker with its place -/

/-- A walker that holds the place it is at. -/
structure Roamer extends Walker where
  progress : Progress

namespace Roamer

def reset (w : Roamer) : Roamer := ⟨w.toWalker.reset, .start⟩

def leave (w : Roamer) (state : Progress × Run σ) : Roamer := ⟨w.toWalker.leave state.2, state.1⟩

def walk (w : Roamer) (hops : Nat) (root : Node) (s : Selector) (visitor : Visitor σ) (state : σ) :
    Report σ × Roamer :=
  let w := w.reset
  let report (outcome : Outcome) (after : Progress × Run σ) : Report σ × Roamer :=
    (⟨outcome, after.2.events.toList, after.2.visitor⟩, w.leave after)
  let begun := (w.progress, w.begin state)
  match (roamEnter visitor (roamFollow w.config visitor hops) root s).run begun with
  | .ok _ after => report .done after
  | .error (.failed .stopped) after => report .done after
  | .error (.failed e) after => report (.failed e) after
  | .error .outOfHops after => report .unfinished after

/-- A walker that holds its place reports what one that hands places down does, and is back at the
beginning when the walk is over, however it ended. -/
theorem walk_eq (w : Roamer) (hops : Nat) (root : Node) (s : Selector) (visitor : Visitor σ)
    (state : σ) :
    w.walk hops root s visitor state =
      ((w.toWalker.walk hops root s visitor state).1,
        ⟨(w.toWalker.walk hops root s visitor state).2, .start⟩) := by
  have henter : roamEnter visitor (roamFollow w.config visitor hops) root s =
      act fun p => enter Selector.picks? visitor (follow Selector.picks? w.config visitor hops) root
        p s := by
    refine roamEnter_eq_act (fun l => roamFollow_eq_act w.config visitor hops l s) ?_
    exact roamBlock_eq_act (roamFollow_eq_act w.config visitor hops) root s
  simp only [walk, reset, Walker.walk, Walker.walkPruned, Walker.reset, Walker.new, EStateM.run,
    henter, act]
  cases enter Selector.picks? visitor (follow Selector.picks? w.config visitor hops) root .start s
    (Walker.begin ⟨w.config, w.config.budget, []⟩ state) with
  | ok a run => rfl
  | error halt run =>
    cases halt with
    | failed e => cases e <;> rfl
    | outOfHops => rfl

def focus (w : Roamer) (hops : Nat) (root : Node) (path : Path)
    (visit : Progress → Node → Except WalkError α) : Found α × List (Link × Progress) × Roamer :=
  let w := w.reset
  let report (found : Found α) (after : Progress × Run Unit) :
      Found α × List (Link × Progress) × Roamer :=
    (found, after.2.events.toList.filterMap Event.load?, w.leave after)
  match (roamTo w.config hops hops root path.segments).run (w.progress, w.begin ()) with
  | .ok n after =>
    match visit after.1 n with
    | .ok a => report (.found a) after
    | .error e => report (.failed e) after
  | .error (.failed e) after => report (.failed e) after
  | .error .outOfHops after => report .unfinished after

/-- Where the walker is when a search is over does not matter: every run begins at the beginning. -/
theorem focus_eq (w : Roamer) (hops : Nat) (root : Node) (path : Path)
    (visit : Progress → Node → Except WalkError α) :
    ∃ place, w.focus hops root path visit =
      ((w.toWalker.focus hops root path visit).1, (w.toWalker.focus hops root path visit).2.1,
        ⟨(w.toWalker.focus hops root path visit).2.2, place⟩) := by
  have hend : SameEnd
      (roamTo w.config hops hops root path.segments (.start, (Walker.new w.config).begin ()))
      (locate w.config hops .start root path.segments ((Walker.new w.config).begin ())) :=
    sameEnd_roamTo root .start _
  simp only [focus, reset, Walker.focus, Walker.reset, Walker.new, EStateM.run]
  revert hend
  rw [Walker.new]
  generalize roamTo w.config hops hops root path.segments _ = roamed,
    locate w.config hops .start root path.segments _ = located
  rintro (⟨n, p, run⟩ | ⟨halt, p, run⟩)
  · cases hvisit : visit p n <;> exact ⟨p, by simp only [hvisit, leave]⟩
  · cases halt <;> exact ⟨p, rfl⟩

end Roamer

end DagSelect
