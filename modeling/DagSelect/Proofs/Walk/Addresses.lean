import DagSelect.Proofs.Walk.Locate
import DagSelect.Proofs.Walk.Spending
import DagSelect.Proofs.Walk.Undisturbed

/-!
# Reported places are addresses

Whatever a walk hands to its visitor can be found again by following the path it was reported at,
and the search arrives there at the same place: under the same path, behind the same link and as
many links deep.

The walk and the search do not load the same links. The walk may have loaded others in between, for
which it has paid, and it is only for those on the way that the search pays. So what is carried
through the walk is the search that has come to the node at hand (`Config.Arrives`), together with
the fact that it spares the walk: it has met no link that the walk has not met, and has no fewer
left to load. Whatever the walk can load next, the search can then load as well.
-/

namespace DagSelect

variable {σ : Type}

/-! ## Children by their segments -/

theorem Node.get?_of_mem_children {n : Node} (hn : n.KeysDiffer) {e : Segment × Node}
    (he : e ∈ n.children) : n.get? e.1 = some e.2 := by
  obtain ⟨i, hi⟩ := List.mem_iff_getElem?.1 he
  have hposition : n.position? e.1 = some i := by
    obtain ⟨s, c⟩ := e
    cases n with
    | map entries =>
      obtain ⟨f, hf, rfl⟩ := getElem?_children_map hi
      obtain ⟨hlt, rfl⟩ := List.getElem?_eq_some_iff.1 hf
      rw [position?, List.findIdx?_eq_some_iff_getElem]
      refine ⟨hlt, by simp, fun j hj => ?_⟩
      have hd := List.pairwise_iff_getElem.1 hn j i (by simp; omega) (by simpa using hlt) hj
      simpa using hd
    | list items =>
      obtain ⟨rfl, hlt⟩ := getElem?_children_list hi
      exact position?_list_eq_some_iff.2 ⟨rfl, hlt⟩
    | _ => simp [children] at he
  simp [get?, find?, child?, hposition, hi]

/-! ## A search on its way -/

/-- A search for a place comes to the node there in the given state, with links yet to be
resolved. -/
def Config.Arrives (config : Config) (root : Node) (p : Progress) (n : Node) (run : Run Unit) :
    Prop :=
  ∀ hops, locate config (hops + 1) .start root p.path.segments ((Walker.new config).begin ()) =
    resolve config (hops + 1) p n run

namespace Config.Arrives

variable {config : Config} {root : Node} {p : Progress} {n : Node} {run : Run Unit}

theorem start (config : Config) (root : Node) :
    config.Arrives root .start root ((Walker.new config).begin ()) := fun _ => rfl

theorem push (h : config.Arrives root p n run) (hn : config.Stands n) {s : Segment} {c : Node}
    (hc : n.get? s = some c) : config.Arrives root (p.push s) c run := by
  intro hops
  have harrived : locate config (hops + 1) .start root p.path.segments
      ((Walker.new config).begin ()) = .ok (p, n) run := by
    rw [h hops, resolve_of_stands hn]
    rfl
  rw [Progress.path_push, Path.segments_push, locate_append, Action.bind_run_of_ok harrived,
    locate_cons_of_stands hn, hc]
  rfl

theorem cross {l : Link} (h : config.Arrives root p (.link l) run) {loader : Loader}
    (hloader : config.loader = some loader) {block : Node} {run' : Run Unit}
    (hload : Action.load config.once loader l p run = .ok (some block) run')
    (hblock : config.Stands block) : config.Arrives root (p.cross l) block run' := by
  intro hops
  rw [Progress.path_cross, h hops, resolve_succ_link hloader, Action.bind_run_of_ok hload]
  simp only [resolve_of_stands hblock]

end Config.Arrives

/-! ## The walk -/

def Config.Finds (config : Config) (root : Node) : Event → Prop
  | .load _ _ => True
  | .visit v => ∀ hops, ∃ run, locate config (hops + 1) .start root v.progress.path.segments
      ((Walker.new config).begin ()) = .ok (v.progress, v.node) run

theorem Config.Arrives.finds {config : Config} {root : Node} {p : Progress} {n : Node}
    {run : Run Unit} (h : config.Arrives root p n run) (hn : config.Stands n) (reason : Reason) :
    config.Finds root (.visit ⟨p, n, reason⟩) := by
  intro hops
  refine ⟨run, ?_⟩
  rw [h hops, resolve_of_stands hn]
  rfl

/-- The search spares the run, which has handed over nothing but what is found again. -/
def Config.Traced (config : Config) (root : Node) (search : Run Unit) (run : Run σ) : Prop :=
  search.Spares run ∧ ∀ e ∈ run.events, config.Finds root e

section

variable {config : Config} {root : Node} {visitor : Visitor σ} {prune : Pruning}

theorem keeps_traced_visit {search : Run Unit} {p : Progress} {n : Node} {reason : Reason}
    (h : config.Arrives root p n search) (hn : config.Stands n) :
    Action.Keeps (config.Traced root search) (Action.visit visitor ⟨p, n, reason⟩) :=
  (Action.keeps_spares_visit search visitor _).and
    (Action.logs_visit (fun _ => trivial) (h.finds hn reason)).keeps

theorem keeps_traced_walkBlock {search : Run Unit} {follow : Follow σ}
    (hfollow : ∀ l p s, config.Arrives root p (.link l) search →
      Action.Keeps (config.Traced root search) (follow l p s))
    {n : Node} (hn : n.DistinctKeys) (hstands : config.Stands n) {p : Progress} {s : Selector}
    (h : config.Arrives root p n search) :
    Action.Keeps (config.Traced root search) (walkBlock prune visitor follow n p s) := by
  induction hn generalizing p s with
  | @intro n here _ ih =>
    rw [walkBlock_eq]
    refine (keeps_traced_visit h hstands).bind fun _ => Action.keeps_forM fun e he => ?_
    have hmem := mem_of_mem_keepPicked he
    have hchild := h.push hstands (Node.get?_of_mem_children here hmem)
    cases s.explore? n e.1 with
    | none => exact Action.keeps_pure ()
    | some next =>
      simp only [enter]
      cases hlink : e.2.link? with
      | none => exact ih e hmem (.inr hlink) hchild
      | some l =>
        rw [Node.link?_eq_some_iff.1 hlink] at hchild
        exact hfollow l _ _ hchild

theorem keeps_traced_follow
    (hserves : config.Serves fun block => block.DistinctKeys ∧ block.link? = none) (hops : Nat)
    {search : Run Unit} {l : Link} {p : Progress} {s : Selector}
    (h : config.Arrives root p (.link l) search) :
    Action.Keeps (config.Traced root search) (follow prune config visitor hops l p s) := by
  cases hloader : config.loader with
  | none =>
    rw [follow_of_loader_eq_none hloader]
    exact keeps_traced_visit h (.inl hloader)
  | some loader =>
    induction hops generalizing search l p s with
    | zero =>
      unfold follow
      rw [hloader]
      exact Action.keeps_throw _
    | succ hops ih =>
      rw [follow_succ_of_loader hloader]
      have hload := (Action.ensures_load (σ := σ) search config.once loader l p).and
        (Action.logs_load (fun _ => trivial) (Q := config.Finds root) trivial).keeps
      refine hload.bind fun found => ?_
      cases found with
      | none => exact fun run hrun => ⟨hrun.1.1, hrun.2⟩
      | some block =>
        rintro run ⟨⟨hspares, hfound⟩, hevents⟩
        obtain ⟨hanswer, search', hsearch, hspares'⟩ := hfound block rfl
        obtain ⟨hkeys, hlink⟩ := hserves loader hloader l p block hanswer
        have hblock := h.cross hloader hsearch (.inr hlink)
        have hwalk : Action.Keeps (config.Traced root search')
            (walkBlock prune visitor (follow prune config visitor hops) block (p.cross l) s) :=
          keeps_traced_walkBlock (fun _ _ _ h => ih h) hkeys (.inr hlink) hblock
        -- What is left of the walk beyond the link is no more than what is left of the search.
        have hback (run' : Run σ) (h' : config.Traced root search' run') :
            config.Traced root search run' :=
          ⟨(Action.spares_of_load hsearch).trans h'.1, h'.2⟩
        exact (hwalk.of_imp (fun _ => hback) hback) run ⟨hspares', hevents⟩

theorem keeps_traced_enter
    (hserves : config.Serves fun block => block.DistinctKeys ∧ block.link? = none) (hops : Nat)
    (hroot : root.DistinctKeys) (s : Selector) :
    Action.Keeps (config.Traced root ((Walker.new config).begin ()))
      (enter prune visitor (follow prune config visitor hops) root .start s) := by
  have hstart := Config.Arrives.start config root
  rw [enter]
  split
  · next l hl =>
    obtain rfl := Node.link?_eq_some_iff.1 hl
    exact keeps_traced_follow hserves hops hstart
  · next hl =>
    refine keeps_traced_walkBlock (fun _ _ _ h => ?_) hroot (.inr hl) hstart
    exact keeps_traced_follow hserves hops h

end

theorem Walker.finds_of_mem_visits {w : Walker} {hops : Nat} {root : Node} {s : Selector}
    {visitor : Visitor σ} {state : σ} (hroot : root.DistinctKeys)
    (hserves : w.config.Serves fun block => block.DistinctKeys ∧ block.link? = none) {v : Visit}
    (hv : v ∈ (w.walk hops root s visitor state).1.visits) :
    w.config.Finds root (.visit v) := by
  have hbegin : w.config.Traced root ((Walker.new w.config).begin ())
      ((Walker.new w.config).begin state) :=
    ⟨⟨List.Subset.refl _, fun k hk => ⟨k, hk, Nat.le_refl k⟩⟩, by simp [begin]⟩
  obtain ⟨run, ⟨-, hevents⟩, heq⟩ :=
    exists_run_of_keeps (keeps_traced_enter hserves hops hroot s) hbegin
  obtain ⟨e, he, hev⟩ := List.mem_filterMap.1 hv
  cases e with
  | load l p => cases hev
  | visit u =>
    cases hev
    rw [walk, heq] at he
    exact hevents _ (Array.mem_toList_iff.1 he)

/-- Whatever a walk visits is found again by following its path: the search hands over the same node
at the same place, and gives what its visitor answers. -/
theorem focus_of_mem_visits (w : Walker) (hops : Nat) (root : Node) (s : Selector)
    (visitor : Visitor σ) (state : σ) (hroot : root.DistinctKeys)
    (hserves : w.config.Serves fun block => block.DistinctKeys ∧ block.link? = none) :
    ∀ v ∈ (w.walk hops root s visitor state).1.visits, ∀ w' : Walker, w'.config = w.config →
      ∀ hops', 0 < hops' → ∀ (α : Type) (visit : Progress → Node → Except WalkError α),
        (w'.focus hops' root v.progress.path visit).1 = .ofAnswer (visit v.progress v.node) := by
  intro v hv w' hw' hops' hhops' α visit
  obtain ⟨hops', rfl⟩ := Nat.exists_eq_add_one_of_ne_zero (Nat.pos_iff_ne_zero.1 hhops')
  obtain ⟨run, hrun⟩ := Walker.finds_of_mem_visits hroot hserves hv hops'
  rw [Walker.focus_eq, hw', hrun]

/-- A walk through two blocks, each loaded once, on a budget that does not last to the end. -/
theorem focus_of_mem_visits_second_block :
    let first : Node := .list [.null, .link ⟨"y"⟩]
    let second : Node := .map [("k", .int 1), ("l", .list [.bool true])]
    let root : Node := .map [("a", .link ⟨"x"⟩), ("b", .link ⟨"x"⟩), ("c", .null)]
    let store := BlockStore.ofList [(⟨"x"⟩, first), (⟨"y"⟩, second)]
    let walker := Walker.new ⟨some store.loader, some ⟨5, 2⟩, true⟩
    let selector : Selector := .recursion .unbounded (.all .edge)
    let visits := (walker.walk 2 root selector .onlooker ()).1.visits
    visits.map (fun v => v.progress.crossings) = [0, 1, 1, 2, 2] ∧
      ∀ v ∈ visits, (walker.focus 1 root v.progress.path fun p n => .ok (p, n)).1 =
        .ofAnswer (.ok (v.progress, v.node)) := by
  intro first second root store walker selector visits
  refine ⟨by decide, fun v hv => ?_⟩
  have hserves : walker.config.Serves fun block => block.DistinctKeys ∧ block.link? = none := by
    refine BlockStore.serves_loader store (fun b hb => ?_) _ _
    rcases List.mem_cons.1 hb with rfl | hb
    · exact ⟨by decide, rfl⟩
    · rw [List.mem_singleton.1 hb]
      exact ⟨by decide, rfl⟩
  exact focus_of_mem_visits walker 2 root selector .onlooker () (by decide) hserves v hv walker rfl
    1 (by decide) _ _

end DagSelect
