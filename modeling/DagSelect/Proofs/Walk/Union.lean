import DagSelect.Proofs.Node.Document
import DagSelect.Proofs.Walk.Undisturbed

/-!
# Walks of unions

A union takes one walk where its members would take one each, and that walk enters what any of
theirs enters. After every step the members that go on are again a union, or the only one of them
that is left, so what is to be shown of a union is shown of all that come of it at once: being
reported below a node is `Reported`, and it distributes over the members (`reported_union`). Being
matched distributes in the same way, which is why reasons are a parameter.

The order is not the members' but that of the document. Every walk visits part of the document in
document order (`sublist_document`), so the visits of a union are those of its members merged.
-/

namespace DagSelect

theorem keepPicked_sublist {α : Type} (picks : Option (List Nat)) (xs : List α) :
    (keepPicked picks xs).Sublist xs := by
  rw [keepPicked_eq_filter]
  have hkept : ((xs.zipIdx.filter fun e => isPicked picks e.2).map Prod.fst).Sublist
      (xs.zipIdx.map Prod.fst) := List.filter_sublist.map Prod.fst
  rwa [List.zipIdx_map_fst] at hkept

/-- What a walk visits of a block, it visits in document order. -/
theorem sublist_document (prune : Pruning) (n : Node) (p : Progress) (s : Selector) :
    ((blockVisits prune n p s).map fun v => (v.progress.path, v.node)).Sublist
      (n.document p.path) := by
  suffices step : n.Everywhere fun n => ∀ p s,
      ((blockVisits prune n p s).map fun v => (v.progress.path, v.node)).Sublist
        (n.document p.path) from step.here p s
  refine Node.everywhere_of_step (fun n below p s => ?_) n
  rw [blockVisits_eq, Node.document_eq, List.map_cons, List.map_flatMap]
  have hkept := keepPicked_sublist (prune s n) n.children
  refine List.Sublist.cons_cons _ (List.Sublist.trans ?_ (hkept.flatMap _))
  refine List.Sublist.flatMap_right _ fun e he => ?_
  cases s.explore? n e.1 with
  | none => exact List.nil_sublist _
  | some next => exact (below e (mem_of_mem_keepPicked he)).here (p.push e.1) next

/-! ## What is reported below a node -/

def Reported (reasons : Reason → Prop) (q : Path) (n : Node) (p : Progress) (s : Selector) : Prop :=
  ∃ v ∈ blockVisits Pruning.whole n p s, v.progress.path = q ∧ reasons v.reason

section

variable {reasons : Reason → Prop} {q : Path}

theorem reported_iff {n : Node} {p : Progress} {s : Selector} :
    Reported reasons q n p s ↔ (p.path = q ∧ reasons s.reason) ∨
      ∃ e ∈ n.children, ∃ t ∈ s.explore? n e.1, Reported reasons q e.2 (p.push e.1) t := by
  rw [Reported, blockVisits_eq, List.exists_mem_cons_iff]
  refine or_congr Iff.rfl ?_
  constructor
  · rintro ⟨v, hv, hq⟩
    obtain ⟨e, he, hv⟩ := List.mem_flatMap.1 hv
    cases hnext : s.explore? n e.1 with
    | none => simp [hnext] at hv
    | some t =>
      rw [hnext] at hv
      exact ⟨e, he, t, hnext, v, hv, hq⟩
  · rintro ⟨e, he, t, ht, v, hv, hq⟩
    refine ⟨v, List.mem_flatMap.2 ⟨e, he, ?_⟩, hq⟩
    rw [Option.mem_def.1 ht]
    exact hv

variable (hreasons : ∀ ms : List Selector, ms ≠ [] →
  (reasons (Selector.union ms).reason ↔ ∃ m ∈ ms, reasons m.reason))

include hreasons

/-- A union reports what its members report. -/
theorem reported_union (n : Node) (p : Progress) {ms : List Selector} (hms : ms ≠ []) :
    Reported reasons q n p (.union ms) ↔ ∃ m ∈ ms, Reported reasons q n p m := by
  suffices step : n.Everywhere fun n => ∀ p ms, ms ≠ [] →
      (Reported reasons q n p (.union ms) ↔ ∃ m ∈ ms, Reported reasons q n p m) from
    step.here p ms hms
  refine Node.everywhere_of_step (fun n below p ms hms => ?_) n
  have hchild : ∀ e ∈ n.children,
      (∃ t ∈ (Selector.union ms).explore? n e.1, Reported reasons q e.2 (p.push e.1) t) ↔
        ∃ m ∈ ms, ∃ t ∈ m.explore? n e.1, Reported reasons q e.2 (p.push e.1) t := by
    intro e he
    rw [Selector.explore?, Selector.exploreIn_eq_filterMap,
      Selector.exists_collapse?_iff fun ts hts => (below e he).here _ ts hts]
    simp only [List.mem_filterMap]
    constructor
    · rintro ⟨t, ⟨m, hm, ht⟩, hreported⟩
      exact ⟨m, hm, t, ht, hreported⟩
    · rintro ⟨m, hm, t, ht, hreported⟩
      exact ⟨t, ⟨m, hm, ht⟩, hreported⟩
  simp only [reported_iff (n := n) (p := p)]
  rw [hreasons ms hms]
  constructor
  · rintro (⟨hq, m, hm, hreason⟩ | ⟨e, he, hbelow⟩)
    · exact ⟨m, hm, .inl ⟨hq, hreason⟩⟩
    · obtain ⟨m, hm, hbelow⟩ := (hchild e he).1 hbelow
      exact ⟨m, hm, .inr ⟨e, he, hbelow⟩⟩
  · rintro ⟨m, hm, ⟨hq, hreason⟩ | ⟨e, he, hbelow⟩⟩
    · exact .inl ⟨hq, m, hm, hreason⟩
    · exact .inr ⟨e, he, (hchild e he).2 ⟨m, hm, hbelow⟩⟩

end

theorem Selector.reason_union_eq_matched_iff (ms : List Selector) :
    (Selector.union ms).reason = .matched ↔ ∃ m ∈ ms, m.reason = .matched := by
  simp only [reason_eq_matched_iff, isMatch, anyMatch_eq_any, List.any_eq_true]

/-- A walk without links and bounds of a document that repeats no key is done with all of it. -/
theorem Walker.walk_of_distinctKeys {w : Walker} (hloader : w.config.loader = none)
    (hbudget : w.config.budget = none) (hops : Nat) {root : Node} (hkeys : root.DistinctKeys)
    (haddress : root.Addressable) (s : Selector) :
    (w.walk hops root s .onlooker ()).1 =
      ⟨.done, (blockVisits Pruning.whole root .start s).map .visit, ()⟩ := by
  have hserves (P : Node → Prop) : w.config.Serves P := by
    intro loader h
    rw [hloader] at h
    cases h
  rw [Walker.walk_eq_whole (hserves _) (hserves _) hops hkeys haddress]
  exact walkPruned_of_loader_eq_none hloader hbudget Pruning.whole hops root s

/-- The walk of a union visits the paths that the walks of its members visit, each of them once and
in document order, and it matches those of them that the walk of a member matches. -/
theorem walk_union (once : Bool) (hops : Nat) (root : Node) (members : List Selector)
    (hmembers : members ≠ []) (hkeys : root.DistinctKeys) (haddress : root.Addressable) :
    let report (s : Selector) := ((Walker.new ⟨none, none, once⟩).walk hops root s .onlooker ()).1
    let paths (s : Selector) := (report s).visits.map fun v => v.progress.path
    let union := Selector.union members
    (∀ s, (report s).outcome = .done) ∧
      (∀ q, q ∈ paths union ↔ ∃ m ∈ members, q ∈ paths m) ∧
      (paths union).Nodup ∧
      ((report union).visits.map fun v => (v.progress.path, v.node)).Sublist (root.document .root) ∧
      ∀ q, (∃ v ∈ (report union).visits, v.progress.path = q ∧ v.reason = .matched) ↔
        ∃ m ∈ members, ∃ v ∈ (report m).visits, v.progress.path = q ∧ v.reason = .matched := by
  intro report paths union
  have hreport (s : Selector) : report s = ⟨.done, _, ()⟩ :=
    Walker.walk_of_distinctKeys rfl rfl hops hkeys haddress s
  have hvisits (s : Selector) : (report s).visits = blockVisits Pruning.whole root .start s := by
    rw [hreport, Report.visits_map_visit]
  have hsublist : ((report union).visits.map fun v => (v.progress.path, v.node)).Sublist
      (root.document .root) := by
    rw [hvisits]
    exact sublist_document _ root .start union
  refine ⟨fun s => by rw [hreport], fun q => ?_, ?_, hsublist, fun q => ?_⟩
  · have hany : Reported (fun _ => True) q root .start union ↔
        ∃ m ∈ members, Reported (fun _ => True) q root .start m := by
      refine reported_union (fun ms hms => ?_) root .start hmembers
      simpa using List.exists_mem_of_ne_nil ms hms
    simpa only [Reported, and_true, paths, hvisits, List.mem_map] using hany
  · have hpaths := (hsublist.map Prod.fst).nodup (Node.nodup_document hkeys .root)
    rwa [List.map_map] at hpaths
  · simp only [hvisits]
    have hmatched : Reported (· = .matched) q root .start union ↔
        ∃ m ∈ members, Reported (· = .matched) q root .start m :=
      reported_union (fun ms _ => Selector.reason_union_eq_matched_iff ms) root .start hmembers
    exact hmatched

/-- Two recursions out of step with each other and a pair of fields, over a map and two lists. -/
theorem walk_union_three_members :
    let leaf : Node := .list [.int 1, .int 2]
    let root : Node := .map [("a", leaf), ("b", .list [leaf, .null]), ("c", .int 3)]
    let deep : Selector := .recursion .unbounded (.all (.all (.union [.matcher, .edge])))
    let shallow : Selector := .recursion (.depth 2) (.all (.union [.matcher, .edge]))
    let fields : Selector := .fields [("c", .matcher), ("a", .index 1 .matcher)]
    let members := [fields, deep, shallow]
    let report (s : Selector) := ((Walker.new ⟨none, none, true⟩).walk 0 root s .onlooker ()).1
    members ≠ [] ∧ root.DistinctKeys ∧ root.Addressable ∧
      (report (.union members)).visits.length = 10 ∧
      ∀ q, (∃ v ∈ (report (.union members)).visits, v.progress.path = q ∧ v.reason = .matched) ↔
        ∃ m ∈ members, ∃ v ∈ (report m).visits, v.progress.path = q ∧ v.reason = .matched := by
  intro leaf root deep shallow fields members report
  have hmembers : members ≠ [] := List.cons_ne_nil _ _
  have hkeys : root.DistinctKeys := by decide
  have haddress : root.Addressable := by decide
  have hunion := walk_union true 0 root members hmembers hkeys haddress
  exact ⟨hmembers, hkeys, haddress, by decide, hunion.2.2.2.2⟩

end DagSelect
