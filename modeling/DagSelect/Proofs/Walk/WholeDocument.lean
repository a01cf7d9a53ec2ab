import DagSelect.Selector.Expr
import DagSelect.Proofs.Node.Document
import DagSelect.Proofs.Selector.RoundTrip
import DagSelect.Proofs.Walk.Undisturbed

/-!
# Walks of a whole document

A sequence loops if every step in it leads straight to an edge, whatever the container and the
segment are. Each step of a recursion over such a sequence then ends one lap and begins the next, so
below a node the recursion is what it was at the node with one lap less
(`Loops.explore?_recursion`), and it enters the document as deep as there are laps and nothing else
(`Loops.blockVisits_recursion`). The stock expressions are two of these recursions: one matches at
the beginning of every lap, the other never does.
-/

namespace DagSelect

/-! ## Laps -/

namespace Limit

/-- Whether a recursion that goes round at every step still comes to the nodes so many steps further
down. The node it begins at belongs to it whatever the limit is. -/
def reaches : Limit → Nat → Bool
  | .depth laps, steps => steps < max laps 1
  | .unbounded, _ => true

theorem reaches_zero (limit : Limit) : limit.reaches 0 = true := by
  cases limit with
  | depth laps =>
    exact decide_eq_true (Nat.lt_of_lt_of_le Nat.zero_lt_one (Nat.le_max_right laps 1))
  | unbounded => rfl

theorem reaches_succ (limit : Limit) (steps : Nat) :
    limit.reaches (steps + 1) = (!limit.isLast && limit.decrement.reaches steps) := by
  cases limit with
  | depth laps =>
    rw [Bool.eq_iff_iff]
    simp only [reaches, isLast, decrement, Bool.and_eq_true, Bool.not_eq_true', decide_eq_true_eq,
      decide_eq_false_iff_not]
    omega
  | unbounded => rfl

end Limit

namespace Selector

/-- Every step leads to an edge, and no child is left out for want of interest. -/
structure Loops (sequence : Selector) : Prop where
  explore? (n : Node) (s : Segment) : sequence.explore? n s = some .edge
  interests? (length : Nat) : sequence.interests? length = none

theorem loops_all_edge : Loops (.all .edge) := ⟨fun _ _ => rfl, fun _ => rfl⟩

theorem loops_matcher_or_all_edge : Loops (.union [.matcher, .all .edge]) :=
  ⟨fun _ _ => rfl, fun _ => rfl⟩

section

variable {sequence : Selector} (h : sequence.Loops)
include h

theorem Loops.explore?_recursion (limit : Limit) (n : Node) (s : Segment) :
    (recursion limit sequence).explore? n s =
      if limit.isLast then none else some (recursion limit.decrement sequence) := by
  have hstep : (recursion limit sequence).explore? n s = advance? limit sequence .edge := by
    rw [recursion, Selector.explore?, h.explore? n s, Option.bind_some]
  rw [hstep]
  cases hlast : limit.isLast with
  | true => exact advance?_last rfl hlast
  | false => exact advance?_round rfl hlast

theorem Loops.picks?_recursion (limit : Limit) (n : Node) :
    (recursion limit sequence).picks? n = none := by
  rw [picks?, recursion, Selector.interests?, h.interests?]

/-- The recursion goes through the document in its order, as deep as its limit reaches. -/
theorem Loops.blockVisits_recursion (limit : Limit) (n : Node) (p : Progress) :
    blockVisits picks? n p (recursion limit sequence) =
      ((n.document p.path).filter fun d => limit.reaches (d.1.length - p.path.length)).map fun d =>
        ⟨{ p with path := d.1 }, d.2, sequence.reason⟩ := by
  suffices step : n.Everywhere fun n => ∀ limit p,
      blockVisits picks? n p (recursion limit sequence) =
        (((n.document p.path).filter fun d => limit.reaches (d.1.length - p.path.length)).map
          fun d => ⟨{ p with path := d.1 }, d.2, sequence.reason⟩) from step.here limit p
  refine Node.everywhere_of_step (fun n below limit p => ?_) n
  rw [blockVisits_eq, h.picks?_recursion, Node.document_eq, List.filter_cons, Nat.sub_self,
    limit.reaches_zero, if_pos rfl, List.map_cons, List.filter_flatMap, List.map_flatMap]
  refine congrArg _ (List.flatMap_congr fun e he => ?_)
  -- What lies below a child is one step further from the node than from the child.
  have hdeeper : ∀ d ∈ e.2.document (p.path.push e.1),
      limit.reaches (d.1.length - p.path.length) =
        (!limit.isLast && limit.decrement.reaches (d.1.length - (p.path.push e.1).length)) := by
    intro d hd
    have hlength := (Node.segments_prefix_of_mem_document hd).length_le
    have hchild : (p.path.push e.1).length = p.path.length + 1 := by simp [Path.length]
    change (p.path.push e.1).length ≤ d.1.length at hlength
    rw [← limit.reaches_succ]
    congr 1
    omega
  rw [h.explore?_recursion, List.filter_congr hdeeper]
  cases limit.isLast with
  | true => simp
  | false =>
    simp only [Bool.not_false, Bool.true_and]
    exact (below e he).here limit.decrement (p.push e.1)

end

end Selector

/-! ## The stock expressions -/

namespace Expr

def withLimit (limit : Limit) : Expr → Expr
  | .recursive _ sequence => .recursive limit sequence
  | e => e

theorem compile_matchAllRecursively (limit : Limit) (h : limit.Writable) :
    (matchAllRecursively.withLimit limit).compile =
      .ok (.recursion limit (.union [.matcher, .all .edge])) := by
  have hwell : (Selector.recursion limit (.union [.matcher, .all .edge])).WellFormed := by
    refine .recursive h (.union (m := .all .edge) (by simp) (.all .edge)) (.union (by simp) ?_)
    simpa using ⟨.matcher, .all .edge⟩
  exact compile_toNode hwell

theorem compile_exploreAllRecursively (limit : Limit) (h : limit.Writable) :
    (exploreAllRecursively.withLimit limit).compile = .ok (.recursion limit (.all .edge)) := by
  have hwell : (Selector.recursion limit (.all .edge)).WellFormed :=
    .recursive h (.all .edge) (.all .edge)
  exact compile_toNode hwell

end Expr

/-- The report of a walk that visited what is listed, each for the same reason and without having
crossed a link. -/
def Report.listing (reason : Reason) (listed : List (Path × Node)) : Report Unit :=
  ⟨.done, listed.map fun d => .visit ⟨⟨d.1, none, 0⟩, d.2, reason⟩, ()⟩

theorem Selector.Loops.walk_recursion {sequence : Selector} (h : sequence.Loops) {w : Walker}
    (hloader : w.config.loader = none) (hbudget : w.config.budget = none) (limit : Limit)
    (hops : Nat) (root : Node) :
    (w.walk hops root (recursion limit sequence) .onlooker ()).1 =
      .listing sequence.reason
        ((root.document .root).filter fun d => limit.reaches d.1.length) := by
  rw [Walker.walk, Walker.walkPruned_of_loader_eq_none hloader hbudget, h.blockVisits_recursion,
    List.map_map]
  rfl

/-- The stock recursions visit the whole document in its order, one of them matching all of it and
the other nothing, and with a depth in place of their limit they visit it down to that depth. The
node they are applied to is visited whatever the depth is. -/
theorem walk_stock_recursions {w : Walker} (hloader : w.config.loader = none)
    (hbudget : w.config.budget = none) (hops : Nat) (root : Node) :
    (∃ s, Expr.matchAllRecursively.compile = .ok s ∧
      (w.walk hops root s .onlooker ()).1 = .listing .matched (root.document .root)) ∧
    (∃ s, Expr.exploreAllRecursively.compile = .ok s ∧
      (w.walk hops root s .onlooker ()).1 = .listing .explored (root.document .root)) ∧
    ∀ depth : Nat, (depth : Int) ≤ Int64.maxValue.toInt →
      (∃ s, (Expr.matchAllRecursively.withLimit (.depth depth)).compile = .ok s ∧
        (w.walk hops root s .onlooker ()).1 =
          .listing .matched ((root.document .root).filter fun d => d.1.length < max depth 1)) ∧
      ∃ s, (Expr.exploreAllRecursively.withLimit (.depth depth)).compile = .ok s ∧
        (w.walk hops root s .onlooker ()).1 =
          .listing .explored ((root.document .root).filter fun d => d.1.length < max depth 1) := by
  have walk_matchAll (limit : Limit) :=
    Selector.loops_matcher_or_all_edge.walk_recursion hloader hbudget limit hops root
  have walk_exploreAll (limit : Limit) :=
    Selector.loops_all_edge.walk_recursion hloader hbudget limit hops root
  -- Without a bound on the depth nothing is filtered out.
  have hall : (root.document .root).filter (fun d => Limit.unbounded.reaches d.1.length) =
      root.document .root := List.filter_true _
  refine ⟨?_, ?_, fun depth hdepth => ⟨?_, ?_⟩⟩
  · exact ⟨_, Expr.compile_matchAllRecursively .unbounded trivial,
      (walk_matchAll .unbounded).trans (by rw [hall]; rfl)⟩
  · exact ⟨_, Expr.compile_exploreAllRecursively .unbounded trivial,
      (walk_exploreAll .unbounded).trans (by rw [hall]; rfl)⟩
  · exact ⟨_, Expr.compile_matchAllRecursively (.depth depth) hdepth,
      walk_matchAll (.depth depth)⟩
  · exact ⟨_, Expr.compile_exploreAllRecursively (.depth depth) hdepth,
      walk_exploreAll (.depth depth)⟩

/-- Both entries of the map have the same key, and depth two leaves out what is below the list. -/
theorem walk_stock_recursions_repeated_key :
    let root : Node := .map [("a", .list [.null]), ("a", .bool true)]
    (root.document .root).filter (fun d => d.1.length < max 2 1) =
        [(.root, root), (⟨[.key "a"]⟩, .list [.null]), (⟨[.key "a"]⟩, .bool true)] ∧
      ∃ s, (Expr.matchAllRecursively.withLimit (.depth 2)).compile = .ok s ∧
        ((Walker.new .plain).walk 0 root s .onlooker ()).1 =
          .listing .matched ((root.document .root).filter fun d => d.1.length < max 2 1) :=
  ⟨by decide, ((walk_stock_recursions (w := .new .plain) rfl rfl 0 _).2.2 2 (by decide)).1⟩

end DagSelect
