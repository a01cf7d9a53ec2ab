import DagSelect.Proofs.Selector.OfPath
import DagSelect.Proofs.Walk.Alike
import DagSelect.Proofs.Walk.Locate
import DagSelect.Proofs.Walk.Undisturbed

/-!
# Walking along a path

A walk with the selector that follows a path does what a search for the path does. The two go down
side by side: they come to the same nodes and load the same links in the same order, so they have
always met the same links and have as many left to load (`Run.Alike`). Of the paths they go by they
have only the texts in common, since a walk names a child as its container does and a search as it
was asked to. A loader that looks at how segments are spelled can tell the two apart and make them
come to different ends, so it is asked not to (`Config.AnswersAlike`).

`Accompanies` is the invariant. It says of a node, and of the segments that are left, that the
search and the walk end alike from there, and that what the walk collects is what the search would
find for the beginnings of these segments. The induction is on the segments; a link is crossed
without using one up, and no block is itself a link, so a walk goes at most one link deeper than
there are segments.
-/

namespace DagSelect

variable {σ : Type}

/-! ## The beginnings of a path -/

def matchedPrefixes (matchPath : Bool) : List Segment → List (List Segment)
  | [] => [[]]
  | s :: rest => (if matchPath then [[]] else []) ++ (matchedPrefixes matchPath rest).map (s :: ·)

/-- What is listed for a path: the node it begins at, if that is matched, and what is listed
further on. -/
theorem filterMap_matchedPrefixes_cons {α : Type} (matchPath : Bool) (f : List Segment → Option α)
    (s : Segment) (rest : List Segment) :
    (matchedPrefixes matchPath (s :: rest)).filterMap f =
      (if matchPath then (f []).toList else []) ++
        (matchedPrefixes matchPath rest).filterMap fun t => f (s :: t) := by
  rw [matchedPrefixes, List.filterMap_append, List.filterMap_map, Function.comp_def]
  cases matchPath with
  | false => rfl
  | true => cases h : f [] <;> simp [h]

theorem filterMap_matchedPrefixes_false {α : Type} (f : List Segment → Option α)
    (segments : List Segment) :
    (matchedPrefixes false segments).filterMap f = (f segments).toList := by
  have hlast : matchedPrefixes false segments = [segments] := by
    induction segments with
    | nil => rfl
    | cons s rest ih => simp [matchedPrefixes, ih]
  rw [hlast]
  cases h : f segments <;> simp [h]

theorem length_matchedPrefixes_true (segments : List Segment) :
    (matchedPrefixes true segments).length = segments.length + 1 := by
  induction segments with
  | nil => rfl
  | cons s rest ih => simp [matchedPrefixes, ih]

/-- Where nothing is found further on once nothing has been found, what is found for one prefix
after the other is found in their order. -/
theorem getElem?_filterMap_matchedPrefixes {α : Type} {f : List Segment → Option α}
    (hf : ∀ t u, f t = none → f (t ++ u) = none) (segments : List Segment) {i : Nat}
    (hi : i ≤ segments.length) :
    ((matchedPrefixes true segments).filterMap f)[i]? = f (segments.take i) := by
  induction segments generalizing f i with
  | nil =>
    obtain rfl := Nat.le_zero.1 hi
    cases h : f [] <;> simp [matchedPrefixes, h]
  | cons s rest ih =>
    rw [filterMap_matchedPrefixes_cons, if_pos rfl]
    cases hfirst : f [] with
    | none =>
      have hnone (t : List Segment) : f t = none := hf [] t hfirst
      have hempty : ((matchedPrefixes true rest).filterMap fun t => f (s :: t)) = [] :=
        List.filterMap_eq_nil_iff.2 fun t _ => hnone (s :: t)
      rw [hempty, hnone]
      rfl
    | some a =>
      cases i with
      | zero => simp [hfirst]
      | succ i =>
        rw [Option.toList_some, List.singleton_append, List.getElem?_cons_succ, List.take_succ_cons]
        exact ih (fun t u => hf (s :: t) u) (Nat.le_of_succ_le_succ hi)

/-! ## What is found and what is visited -/

/-- A node and the texts of the segments that lead to it. -/
def Visit.sight (v : Visit) : Node × List String := (v.node, v.progress.path.texts)

/-- What a search for further segments comes to. -/
def sighted? (config : Config) (hops : Nat) (q : Progress) (n : Node) (run : Run Unit)
    (segments : List Segment) : Option (Node × List String) :=
  match locate config hops q n segments run with
  | .ok found _ => some (found.2, q.path.texts ++ segments.map Segment.text)
  | .error _ _ => none

def Visitor.collector : Visitor (List Visit) := fun visits v => .ok (visits ++ [v])

section

variable {config : Config} {hops : Nat} {q p : Progress} {n : Node} {run : Run Unit}
  {other : Run (List Visit)} {segments : List Segment} {matchPath : Bool}

theorem sighted?_nil (hn : config.Stands n) :
    sighted? config hops q n run [] = some (n, q.path.texts) := by
  have hfound : locate config hops q n [] run = .ok (q, n) run := by
    rw [locate_nil, resolve_of_stands hn]
    rfl
  rw [sighted?, hfound, List.map_nil, List.append_nil]

theorem sighted?_cons_of_none (hn : config.Stands n) {s : Segment} (hs : n.get? s = none)
    (rest : List Segment) : sighted? config hops q n run (s :: rest) = none := by
  rw [sighted?, locate_cons_of_stands hn, hs]
  rfl

theorem sighted?_cons_of_some (hn : config.Stands n) {s : Segment} {c : Node}
    (hs : n.get? s = some c) (rest : List Segment) :
    sighted? config hops q n run (s :: rest) = sighted? config hops (q.push s) c run rest := by
  rw [sighted?, sighted?, locate_cons_of_stands hn, hs]
  simp

/-- A search that fails comes no further with more segments. -/
theorem sighted?_append_of_none {t : List Segment} (h : sighted? config hops q n run t = none)
    (u : List Segment) : sighted? config hops q n run (t ++ u) = none := by
  unfold sighted? at h ⊢
  cases hfound : locate config hops q n t run with
  | ok found run' => simp [hfound] at h
  | error halt run' => rw [locate_append, Action.bind_run_of_error hfound]

theorem Walker.sighted?_start (w : Walker) (hops : Nat) (root : Node) (t : List Segment) :
    sighted? w.config hops .start root ((new w.config).begin ()) t =
      (w.get hops root ⟨t⟩).1.found?.map fun n => (n, t.map Segment.text) := by
  rw [get, focus_eq, sighted?]
  cases locate w.config hops .start root t ((new w.config).begin ()) with
  | ok found run => rfl
  | error halt run => cases halt <;> rfl

theorem collector_ofMatches (visits : List Visit) (v : Visit) :
    Visitor.collector.ofMatches visits v =
      .ok (if v.reason = .matched then visits ++ [v] else visits) := by
  unfold Visitor.ofMatches Visitor.collector
  cases v.reason <;> rfl

/-- A visit takes one node from the budget and is collected if it is a result. -/
theorem exists_visit_collector (v : Visit) (halike : run.Alike other) {k : Nat}
    (hnodes : ∀ j ∈ other.left? .node, k < j) :
    ∃ other', Action.visit Visitor.collector.ofMatches v other = .ok () other' ∧
      run.Alike other' ∧ (∀ j ∈ other'.left? .node, k ≤ j) ∧
      other'.visitor = if v.reason = .matched then other.visitor ++ [v] else other.visitor := by
  have hleft : other.left? .node ≠ some 0 := fun h => absurd (hnodes 0 h) (Nat.not_lt_zero k)
  obtain ⟨spent, hspent⟩ := Option.ne_none_iff_exists'.1 (mt Run.spend?_eq_none_iff.1 hleft)
  have hspent' := Run.left?_of_spend? hspent
  obtain ⟨budget, rfl⟩ := Run.exists_budget_of_spend? hspent
  rw [Action.visit_run, hspent]
  simp only [Action.handed, collector_ofMatches]
  refine ⟨_, rfl, ⟨halike.seen, ?_⟩, ?_, rfl⟩
  · have hlinks := hspent' .link
    simp only [reduceCtorEq, if_false, Option.map_id'] at hlinks
    exact halike.links.trans hlinks.symm
  · intro j hj
    obtain ⟨i, hi, rfl⟩ := Option.map_eq_some_iff.1 ((hspent' .node).symm.trans hj)
    exact Nat.le_sub_one_of_lt (hnodes i hi)

end

/-! ## Side by side -/

/-- The walk of a node along segments, at most so many links deep, with its matches collected. -/
def enterAlong (config : Config) (matchPath : Bool) (depth : Nat) (segments : List Segment)
    (n : Node) (p : Progress) : Action (List Visit) Unit :=
  enter Selector.picks? Visitor.collector.ofMatches
    (follow Selector.picks? config Visitor.collector.ofMatches depth) n p
      (.along matchPath segments)

def walkAlong (config : Config) (matchPath : Bool) (depth : Nat) (segments : List Segment)
    (n : Node) (p : Progress) : Action (List Visit) Unit :=
  walkBlock Selector.picks? Visitor.collector.ofMatches
    (follow Selector.picks? config Visitor.collector.ofMatches depth) n p
      (.along matchPath segments)

/-- A search and a walk end alike, the walk having collected what is listed. A walk that comes upon
nothing to visit is done. -/
inductive EndsAlike (collected : List (Node × List String)) :
    EStateM.Result Halt (Run Unit) (Progress × Node) →
      EStateM.Result Halt (Run (List Visit)) Unit → Prop
  | found {found : Progress × Node} {run : Run Unit} {other : Run (List Visit)}
      (all : other.visitor.map Visit.sight = collected) :
      EndsAlike collected (.ok found run) (.ok () other)
  | missing {p : Path} {run : Run Unit} {other : Run (List Visit)}
      (all : other.visitor.map Visit.sight = collected) :
      EndsAlike collected (.error (.failed (.pathNotFound p)) run) (.ok () other)
  | failed {e e' : WalkError} (alike : e.Alike e') {run : Run Unit} {other : Run (List Visit)}
      (all : other.visitor.map Visit.sight = collected) :
      EndsAlike collected (.error (.failed e) run) (.error (.failed e') other)

/-- From all states that the search and the walk may be in, they end alike. -/
def Accompanies (config : Config) (hops : Nat) (matchPath : Bool) (segments : List Segment)
    (n : Node) (walk : Progress → Action (List Visit) Unit) : Prop :=
  ∀ (q p : Progress) (run : Run Unit) (other : Run (List Visit)), q.Alike p → run.Alike other →
    (∀ k ∈ other.left? .node, segments.length < k) →
      EndsAlike (other.visitor.map Visit.sight ++
          (matchedPrefixes matchPath segments).filterMap (sighted? config hops q n run))
        (locate config hops q n segments run) (walk p other)

section

variable {config : Config} {hops depth : Nat} {n : Node} {segments : List Segment}
  {matchPath : Bool}

theorem accompanies_walkAlong (hn : config.Stands n) (hdecimal : ∀ s ∈ segments, s.Decimal)
    (hchild : ∀ s rest, segments = s :: rest → ∀ c,
      Accompanies config hops matchPath rest c (enterAlong config matchPath depth rest c)) :
    Accompanies config hops matchPath segments n (walkAlong config matchPath depth segments n) := by
  intro q p run other hplace halike hnodes
  obtain ⟨other', hvisit, halike', hnodes', hvisitor⟩ :=
    exists_visit_collector ⟨p, n, (Selector.along matchPath segments).reason⟩ halike hnodes
  have hmatched : (Selector.along matchPath segments).reason = .matched ↔
      (matchPath || segments.isEmpty) = true := by
    rw [Selector.reason_eq_matched_iff, Selector.isMatch_along]
  have hcollected : other'.visitor.map Visit.sight = other.visitor.map Visit.sight ++
      if matchPath || segments.isEmpty then [(n, q.path.texts)] else [] := by
    rw [hvisitor, hplace.path]
    by_cases h : (matchPath || segments.isEmpty) = true
    · rw [if_pos (hmatched.2 h), if_pos h, List.map_append, List.map_singleton, Visit.sight]
    · rw [if_neg (mt hmatched.1 h), if_neg h, List.append_nil]
  rw [walkAlong, walkBlock_eq_explored, Action.bind_run_of_ok hvisit]
  cases segments with
  | nil =>
    rw [Selector.explored_along_nil, locate_nil, resolve_of_stands hn]
    refine .found ?_
    rw [hcollected]
    simp [matchedPrefixes, sighted?_nil hn]
  | cons s rest =>
    rw [filterMap_matchedPrefixes_cons, sighted?_nil hn, locate_cons_of_stands hn]
    simp only [List.isEmpty_cons, Bool.or_false] at hcollected
    rcases Selector.explored_along (hdecimal s List.mem_cons_self) matchPath rest n with
      ⟨hnone, hexplored⟩ | ⟨e, hsome, htext, hexplored⟩
    · rw [hexplored, hnone]
      refine .missing ?_
      have hrest : ((matchedPrefixes matchPath rest).filterMap fun t =>
          sighted? config hops q n run (s :: t)) = [] :=
        List.filterMap_eq_nil_iff.2 fun t _ => sighted?_cons_of_none hn hnone t
      rw [hcollected, hrest, List.append_nil]
      rfl
    · have hrest := hchild s rest rfl e.2 (q.push s) (p.push e.1) run other'
        (hplace.push htext.symm) halike' hnodes'
      rw [hcollected, List.append_assoc] at hrest
      rw [hexplored, hsome, List.forM_eq_forM, List.forM_cons, List.forM_nil,
        Selector.explore?_along, if_pos htext, bind_pure_unit]
      simp only [sighted?_cons_of_some hn hsome]
      cases matchPath with
      | true => exact hrest
      | false => exact hrest

theorem accompanies_enterAlong_link {loader : Loader} (hloader : config.loader = some loader)
    {l : Link}
    (hblock : ∀ q block, loader l q = .ok block → block.link? = none)
    (hanswers : config.AnswersAlike)
    (hwalk : ∀ block : Node, block.link? = none → Accompanies config (hops + 1) matchPath segments
      block (walkAlong config matchPath depth segments block)) :
    Accompanies config (hops + 1) matchPath segments (.link l)
      (enterAlong config matchPath (depth + 1) segments (.link l)) := by
  intro q p run other hplace halike hnodes
  have hloads := loadsAlike halike hplace (hanswers loader hloader l q p hplace) config.once
  have henter : enterAlong config matchPath (depth + 1) segments (.link l) p = _ :=
    follow_succ_of_loader hloader depth l p _
  rw [henter]
  generalize hsearch : Action.load config.once loader l q run = searched at hloads
  generalize hother : Action.load config.once loader l p other = walked at hloads
  -- A search that comes no further than the link sights nothing.
  have hnothing (h : ∀ t, sighted? config (hops + 1) q (.link l) run t = none) :
      (matchedPrefixes matchPath segments).filterMap (sighted? config (hops + 1) q (.link l) run) =
        [] :=
    List.filterMap_eq_nil_iff.2 fun t _ => h t
  cases hloads with
  | @ok found run' other' halike' hview =>
    rw [Action.bind_run_of_ok hother]
    cases found with
    | none =>
      have hmissing (t : List Segment) :
          locate config (hops + 1) q (.link l) t run =
            .error (.failed (.pathNotFound q.path)) run' :=
        locate_link_of_none hloader hsearch t
      rw [hmissing, hnothing fun t => by rw [sighted?, hmissing], List.append_nil]
      exact .missing (by rw [hview.visitor])
    | some block =>
      have hanswer := Action.gives_load config.once loader l q _ _ _ hsearch block rfl
      have hstands := hblock q block hanswer
      have hfound (t : List Segment) : locate config (hops + 1) q (.link l) t run =
          locate config (hops + 1) (q.cross l) block t run' :=
        locate_link_of_some hloader hsearch (.inr hstands) t
      have hsighted : sighted? config (hops + 1) q (.link l) run =
          sighted? config (hops + 1) (q.cross l) block run' := by
        funext t
        rw [sighted?, sighted?, hfound, Progress.path_cross]
      rw [hfound, hsighted, ← hview.visitor]
      refine hwalk block hstands _ _ run' other' (hplace.cross l) halike' ?_
      rw [hview.nodes]
      exact hnodes
  | @error e e' run' other' halike' hview =>
    have herror (t : List Segment) :
        locate config (hops + 1) q (.link l) t run = .error (.failed e) run' :=
      locate_link_of_error hloader hsearch t
    rw [Action.bind_run_of_error hother, herror, hnothing fun t => by rw [sighted?, herror],
      List.append_nil]
    exact .failed halike' (by rw [hview.visitor])

theorem enter_of_stands (hn : config.Stands n) (prune : Pruning) (visitor : Visitor σ)
    (depth : Nat) (p : Progress) (s : Selector) :
    enter prune visitor (follow prune config visitor depth) n p s =
      walkBlock prune visitor (follow prune config visitor depth) n p s := by
  rw [enter]
  split
  · next l hl =>
    obtain rfl := Node.link?_eq_some_iff.1 hl
    have hloader : config.loader = none := hn.resolve_right (by simp [Node.link?])
    rw [follow_of_loader_eq_none hloader, walkBlock_link]
  · rfl

section

variable (hserves : config.Serves fun block => block.link? = none)
  (hanswers : config.AnswersAlike) (hdecimal : ∀ s ∈ segments, s.Decimal)

include hserves hanswers hdecimal

theorem accompanies_enterAlong_of_children
    (hchild : ∀ s rest, segments = s :: rest → ∀ depth, rest.length < depth → ∀ c,
      Accompanies config (hops + 1) matchPath rest c (enterAlong config matchPath depth rest c))
    (hdepth : segments.length < depth) (n : Node) :
    Accompanies config (hops + 1) matchPath segments n
      (enterAlong config matchPath depth segments n) := by
  have hwalk {n : Node} (hn : config.Stands n) {depth : Nat} (hdepth : segments.length ≤ depth) :
      Accompanies config (hops + 1) matchPath segments n
        (walkAlong config matchPath depth segments n) := by
    refine accompanies_walkAlong hn hdecimal fun s rest hsegments c => ?_
    rw [hsegments, List.length_cons] at hdepth
    exact hchild s rest hsegments depth hdepth c
  rcases config.stands_or_link n with hn | ⟨loader, l, hloader, rfl⟩
  · have henter : enterAlong config matchPath depth segments n =
        walkAlong config matchPath depth segments n :=
      funext fun p => enter_of_stands hn _ _ depth p _
    rw [henter]
    exact hwalk hn (Nat.le_of_lt hdepth)
  · obtain ⟨depth, rfl⟩ := Nat.exists_eq_add_one_of_ne_zero (Nat.ne_zero_of_lt hdepth)
    exact accompanies_enterAlong_link hloader (hserves loader hloader l) hanswers
      fun block hblock => hwalk (.inr hblock) (Nat.le_of_lt_succ hdepth)

/-- The walk accompanies the search as long as it may go more links deep than there are segments. -/
theorem accompanies_enterAlong (hdepth : segments.length < depth) (n : Node) :
    Accompanies config (hops + 1) matchPath segments n
      (enterAlong config matchPath depth segments n) := by
  induction segments generalizing depth n with
  | nil => exact accompanies_enterAlong_of_children hserves hanswers hdecimal nofun hdepth n
  | cons s rest ih =>
    refine accompanies_enterAlong_of_children hserves hanswers hdecimal ?_ hdepth n
    rintro _ _ ⟨⟩ depth hdepth c
    exact ih (fun t ht => hdecimal t (List.mem_cons_of_mem s ht)) hdepth c

end

end

/-! ## The walk as a whole -/

section

variable {w : Walker} {p : Path} (hserves : w.config.Serves fun block => block.link? = none)
  (hanswers : w.config.AnswersAlike) (hbudget : ∀ b ∈ w.config.budget, p.length < b.nodes)
  (hdecimal : ∀ s ∈ p.segments, s.Decimal) {hops hops' : Nat} (hhops : p.length < hops)
  (hhops' : 0 < hops') (root : Node) (matchPath : Bool)

include hserves hanswers hbudget hdecimal hhops hhops'

theorem walkMatches_along :
    let report := (w.walkMatches hops root (.along matchPath p.segments) .collector []).1
    report.visitor.map Visit.sight = (matchedPrefixes matchPath p.segments).filterMap (fun t =>
        (w.get hops' root ⟨t⟩).1.found?.map fun n => (n, t.map Segment.text)) ∧
      match (w.get hops' root p).1 with
      | .found _ => report.outcome = .done
      | .failed (.pathNotFound _) => report.outcome = .done
      | .failed e => ∃ e', report.outcome = .failed e' ∧ e.Alike e'
      | .unfinished => False := by
  obtain ⟨hops', rfl⟩ := Nat.exists_eq_add_one_of_ne_zero (Nat.pos_iff_ne_zero.1 hhops')
  have hnodes : ∀ k ∈ ((Walker.new w.config).begin ([] : List Visit)).left? .node,
      p.segments.length < k := by
    intro k hk
    obtain ⟨b, hb, rfl⟩ := Option.map_eq_some_iff.1 hk
    exact hbudget b hb
  have hpace : Accompanies w.config (hops' + 1) matchPath p.segments root
      (enterAlong w.config matchPath hops p.segments root) :=
    accompanies_enterAlong hserves hanswers hdecimal hhops root
  have hends := hpace .start .start ((Walker.new w.config).begin ())
    ((Walker.new w.config).begin []) (.refl .start) ⟨rfl, rfl⟩ hnodes
  rw [enterAlong] at hends
  simp only [← Walker.sighted?_start]
  rw [Walker.walkMatches, Walker.walk, Walker.walkPruned_fst, Walker.get, Walker.focus_eq]
  revert hends
  generalize locate w.config (hops' + 1) .start root p.segments
    ((Walker.new w.config).begin ()) = searched
  generalize enter Selector.picks? Visitor.collector.ofMatches
    (follow Selector.picks? w.config Visitor.collector.ofMatches hops) root .start
      (.along matchPath p.segments) ((Walker.new w.config).begin []) = walked
  intro hends
  cases hends with
  | found all => exact ⟨all, rfl⟩
  | missing all => exact ⟨all, rfl⟩
  | failed alike all =>
    refine ⟨all, ?_⟩
    cases alike with
    | load texts l source => exact ⟨_, rfl, .load texts l source⟩
    | budgetExceeded texts l => exact ⟨_, rfl, .budgetExceeded texts l⟩

end

/-- Walking along a path is getting the node that it names. The walk with the selector for the path
visits that node and no other, and it fails where getting fails other than for want of a node; with
the nodes on the way included it visits those that the beginnings of the path name. -/
theorem walkMatches_ofPath (w : Walker) (hops hops' : Nat) (root : Node) (p : Path)
    (hserves : w.config.Serves fun block => block.link? = none) (hanswers : w.config.AnswersAlike)
    (hbudget : ∀ b ∈ w.config.budget, p.length < b.nodes) (hdecimal : ∀ s ∈ p.segments, s.Decimal)
    (hhops : p.length < hops) (hhops' : 0 < hops') :
    (∃ s, (Expr.ofPath p false none).compile = .ok s ∧
      let report := (w.walkMatches hops root s .collector []).1
      match (w.get hops' root p).1 with
      | .found n => report.outcome = .done ∧ report.visitor.map Visit.sight = [(n, p.texts)]
      | .failed (.pathNotFound _) => report.outcome = .done ∧ report.visitor = []
      | .failed e => (∃ e', report.outcome = .failed e' ∧ e.Alike e') ∧ report.visitor = []
      | .unfinished => False) ∧
      ∃ s, (Expr.ofPath p true none).compile = .ok s ∧
        let report := (w.walkMatches hops root s .collector []).1
        report.visitor.length ≤ p.length + 1 ∧
          ∀ i ≤ p.length, report.visitor[i]?.map Visit.sight =
            (w.get hops' root ⟨p.segments.take i⟩).1.found?.map fun n => (n, p.texts.take i) := by
  constructor
  · obtain ⟨hvisited, houtcome⟩ :=
      walkMatches_along hserves hanswers hbudget hdecimal hhops hhops' root false
    refine ⟨_, Selector.compile_ofPath p false, ?_⟩
    rw [filterMap_matchedPrefixes_false] at hvisited
    change _ = ((w.get hops' root p).1.found?.map fun n => (n, p.texts)).toList at hvisited
    cases hget : (w.get hops' root p).1 with
    | found n =>
      rw [hget] at houtcome hvisited
      exact ⟨houtcome, hvisited⟩
    | failed e =>
      rw [hget] at houtcome hvisited
      have hnothing := List.map_eq_nil_iff.1 hvisited
      cases e <;> exact ⟨houtcome, hnothing⟩
    | unfinished =>
      rw [hget] at houtcome
      exact houtcome
  · obtain ⟨hvisited, -⟩ :=
      walkMatches_along hserves hanswers hbudget hdecimal hhops hhops' root true
    refine ⟨_, Selector.compile_ofPath p true, ?_, fun i hi => ?_⟩
    · rw [← List.length_map Visit.sight, hvisited, Path.length, ← length_matchedPrefixes_true]
      exact List.length_filterMap_le _ _
    · have hclosed : ∀ t u : List Segment,
          ((w.get hops' root ⟨t⟩).1.found?.map fun n => (n, t.map Segment.text)) = none →
            ((w.get hops' root ⟨t ++ u⟩).1.found?.map fun n => (n, (t ++ u).map Segment.text)) =
              none := by
        intro t u h
        rw [← Walker.sighted?_start] at h ⊢
        exact sighted?_append_of_none h u
      rw [← List.getElem?_map, hvisited, getElem?_filterMap_matchedPrefixes hclosed _ hi,
        Path.texts, List.map_take]

/-- A key that occurs twice, a block that may be loaded once, and an item addressed by text. -/
theorem walkMatches_ofPath_through_list :
    let block : Node := .list [.null, .map [("k", .int 1)]]
    let root : Node := .map [("a", .link ⟨"x"⟩), ("a", .null)]
    let store := BlockStore.ofList [(⟨"x"⟩, block)]
    let walker := Walker.new ⟨some store.loader, some ⟨4, 1⟩, true⟩
    ∃ s, (Expr.ofPath ⟨[.key "a", .key "1", .key "k"]⟩ false none).compile = .ok s ∧
      let report := (walker.walkMatches 4 root s .collector []).1
      report.outcome = .done ∧ report.visitor.map Visit.sight = [(.int 1, ["a", "1", "k"])] := by
  intro block root store walker
  have hserves : walker.config.Serves fun block => block.link? = none := by
    refine BlockStore.serves_loader store (fun b hb => ?_) _ _
    rw [List.mem_singleton.1 hb]
    rfl
  have hanswers : walker.config.AnswersAlike := store.answersAlike_loader _ _
  have hdecimal : ∀ s ∈ [Segment.key "a", .key "1", .key "k"], s.Decimal := by
    intro s hs i hi
    simp only [List.mem_cons, List.not_mem_nil, or_false] at hs
    rcases hs with rfl | rfl | rfl
    · cases hi
    · cases hi
      exact ⟨1, rfl, rfl⟩
    · cases hi
  obtain ⟨s, hs, hreport⟩ := (walkMatches_ofPath walker 4 1 root
    ⟨[.key "a", .key "1", .key "k"]⟩ hserves hanswers (by decide) hdecimal (by decide)
    (by decide)).1
  exact ⟨s, hs, hreport⟩

/-- A loader that looks at how segments are spelled. A walk tells it the index of an item, and a
search the text that the item was asked for by. -/
theorem exists_walkMatches_ofPath_astray :
    let loader : Loader := fun _ p => .ok (.bool (p.path = ⟨[.index 0]⟩))
    let walker := Walker.new ⟨some loader, none, false⟩
    let root : Node := .list [.link ⟨"x"⟩]
    let p : Path := ⟨[.key "0"]⟩
    (walker.config.Serves fun block => block.link? = none) ∧ (∀ s ∈ p.segments, s.Decimal) ∧
      (walker.get 1 root p).1 = .found (.bool false) ∧
      ∃ s, (Expr.ofPath p false none).compile = .ok s ∧
        (walker.walkMatches 2 root s .collector []).1.visitor.map Visit.sight =
          [(.bool true, ["0"])] := by
  intro loader walker root p
  refine ⟨?_, ?_, rfl, _, Selector.compile_ofPath p false, by decide⟩
  · rintro _ ⟨⟩ l q block ⟨⟩
    rfl
  · intro s hs i hi
    rw [List.mem_singleton.1 hs] at hi ⊢
    cases hi
    exact ⟨0, rfl, rfl⟩

end DagSelect
