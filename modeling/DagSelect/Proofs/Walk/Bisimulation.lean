import DagSelect.Proofs.Selector.Rearranged
import DagSelect.Proofs.Walk.Pruning
import DagSelect.Proofs.Walk.Undisturbed

/-!
# Selectors that walks cannot tell apart

Where every child is tried, a walk asks two things of a selector, whether the node at hand is a
result and which selector there is for a child. Selectors that answer the first alike, and the
second with selectors that do so again, give one and the same walk (`Bisimulation`), and rearranged
selectors are of this kind.

The segments that two such selectors list need not be the same, nor as many, so a container may be
gone through as a whole with one and not with the other. For rearranged selectors this does happen,
since members that are there twice list everything twice. It takes data without repeated keys for
the walk not to show it.
-/

namespace DagSelect

variable {σ : Type}

/-- A relation of selectors that match alike, and explore the same children with related
selectors. -/
structure Bisimulation (R : Selector → Selector → Prop) : Prop where
  isMatch_eq {s t : Selector} : R s t → s.isMatch = t.isMatch
  explore? {s t : Selector} : R s t → ∀ (parent : Node) (segment : Segment),
    Option.Rel R (s.explore? parent segment) (t.explore? parent segment)

namespace Bisimulation

variable {R : Selector → Selector → Prop} (hR : Bisimulation R) {s t : Selector}
include hR

theorem reason_eq (h : R s t) : s.reason = t.reason := by
  rw [Selector.reason, Selector.reason, hR.isMatch_eq h]

theorem walkBlock_eq (visitor : Visitor σ) {follow : Follow σ}
    (hfollow : ∀ l p s t, R s t → follow l p s = follow l p t) (n : Node) (p : Progress)
    (h : R s t) :
    walkBlock Pruning.whole visitor follow n p s =
      walkBlock Pruning.whole visitor follow n p t := by
  suffices step : n.Everywhere fun n => ∀ p s t, R s t →
      walkBlock Pruning.whole visitor follow n p s =
        walkBlock Pruning.whole visitor follow n p t from step.here p s t h
  refine Node.everywhere_of_step (fun n below p s t h => ?_) n
  rw [DagSelect.walkBlock_eq, DagSelect.walkBlock_eq, hR.reason_eq h]
  congr 1
  funext _
  refine forM_congr fun e he => ?_
  have hnext := hR.explore? h n e.1
  generalize s.explore? n e.1 = o, t.explore? n e.1 = o' at hnext
  cases hnext with
  | none => rfl
  | some hnext =>
    simp only [enter]
    cases e.2.link? with
    | some l => exact hfollow l _ _ _ hnext
    | none => exact (below e (mem_of_mem_keepPicked he)).here _ _ _ hnext

theorem follow_eq (config : Config) (visitor : Visitor σ) (hops : Nat) (l : Link) (p : Progress)
    (h : R s t) :
    follow Pruning.whole config visitor hops l p s =
      follow Pruning.whole config visitor hops l p t := by
  cases hloader : config.loader with
  | none =>
    rw [follow_of_loader_eq_none hloader, follow_of_loader_eq_none hloader, hR.reason_eq h]
  | some loader =>
    induction hops generalizing l p s t with
    | zero => rw [follow_zero_of_loader hloader, follow_zero_of_loader hloader]
    | succ hops ih =>
      rw [follow_succ_of_loader hloader, follow_succ_of_loader hloader]
      congr 1
      funext found
      cases found with
      | none => rfl
      | some block => exact hR.walkBlock_eq visitor (fun l p s t => ih l p) block (p.cross l) h

/-- Related selectors give one and the same walk of the whole. -/
theorem walkPruned_eq (w : Walker) (hops : Nat) (root : Node) (visitor : Visitor σ) (state : σ)
    (h : R s t) :
    w.walkPruned Pruning.whole hops root s visitor state =
      w.walkPruned Pruning.whole hops root t visitor state := by
  have hfollow (l : Link) (p : Progress) (s t : Selector) (h : R s t) :=
    hR.follow_eq w.config visitor hops l p h
  have henter :
      enter Pruning.whole visitor (follow Pruning.whole w.config visitor hops) root .start s =
      enter Pruning.whole visitor (follow Pruning.whole w.config visitor hops) root .start t := by
    rw [enter, enter]
    cases root.link? with
    | some l => exact hfollow l _ _ _ h
    | none => exact hR.walkBlock_eq visitor hfollow root .start h
  simp only [Walker.walkPruned, Walker.reset, Walker.new, henter]

end Bisimulation

/-! ## Rearranged selectors -/

theorem bisimulation_rearranged :
    Bisimulation fun s t => s.Rearranged t ∧ s.DistinctNames where
  isMatch_eq h := h.1.isMatch_eq
  explore? := by
    rintro s t ⟨h, hnames⟩ parent segment
    have hnext := h.rel_explore? parent segment hnames
    have hkept : ∀ u ∈ s.explore? parent segment, u.DistinctNames :=
      fun _ hu => Selector.hereditary_distinctNames.explore? hnames hu
    generalize s.explore? parent segment = o, t.explore? parent segment = o' at hnext hkept
    cases hnext with
    | none => exact .none
    | some hnext => exact .some ⟨hnext, hkept _ rfl⟩

/-- However a compiled selector is rearranged, the walk stays the same, with everything that it
loads and visits, the way it ends and the state it leaves its visitor in, if no map of the data
repeats a key. -/
theorem walk_eq_of_rearranged {n : Node} {s t : Selector} (hs : compile n = .ok s)
    (h : s.Rearranged t) (w : Walker) (hops : Nat) {root : Node} (hroot : root.DistinctKeys)
    (hroot' : root.Addressable) (hblocks : w.config.Serves Node.DistinctKeys)
    (hblocks' : w.config.Serves Node.Addressable) (visitor : Visitor σ) (state : σ) :
    w.walk hops root s visitor state = w.walk hops root t visitor state := by
  rw [Walker.walk_eq_whole hblocks hblocks' hops hroot hroot',
    Walker.walk_eq_whole hblocks hblocks' hops hroot hroot']
  exact bisimulation_rearranged.walkPruned_eq w hops root visitor state
    ⟨h, (wellFormed_of_compile hs).distinctNames⟩

/-- A recursion through a link, with its sequence rearranged inside a field and at the top. Listing
the fields of it twice makes the walk go through the map as a whole. -/
theorem walk_eq_of_rearranged_repeated_member :
    let back : Selector := .union [.matcher, .union [.edge, .matcher]]
    let sequence : Selector := .union [.fields [("a", back), ("b", .all .edge)], .matcher]
    let back' : Selector := .union [.edge, .matcher]
    let fields' : Selector := .fields [("b", .all .edge), ("a", back')]
    let sequence' : Selector := .union [.matcher, fields', fields']
    let block : Node := .map [("c", .int 1), ("a", .list []), ("b", .list [.null])]
    let root : Node := .map [("b", .list [.int 0, .link ⟨"x"⟩]), ("a", .link ⟨"x"⟩), ("c", .null)]
    let w := Walker.new ⟨some (BlockStore.ofList [(⟨"x"⟩, block)]).loader, some ⟨9, 2⟩, false⟩
    let limit : Limit := .depth 3
    let s := Selector.recursion limit sequence
    let t := Selector.recursion limit sequence'
    compile s.toNode = .ok s ∧ s.picks? root ≠ t.picks? root ∧
      (w.walk 2 root s .onlooker ()).1.visits.length = 9 ∧
      w.walk 2 root s .onlooker () = w.walk 2 root t .onlooker () := by
  intro back sequence back' fields' sequence' block root w limit s t
  have hs : compile s.toNode = .ok s := rfl
  have hback : back.Rearranged back' :=
    (Selector.Rearranged.nested [.matcher] [.edge, .matcher] []).trans
      ((Selector.Rearranged.memberOrder (by decide)).trans
        ((Selector.Rearranged.copy .matcher [.edge]).trans (.memberOrder (by decide))))
  have hfields : (Selector.fields [("a", back), ("b", .all .edge)]).Rearranged fields' :=
    (Selector.Rearranged.field [] [("b", .all .edge)] "a" hback).trans (.fieldOrder (.swap _ _ _))
  have hsequence : sequence.Rearranged sequence' :=
    (Selector.Rearranged.member [] [.matcher] hfields).trans
      ((Selector.Rearranged.copy fields' [.matcher]).symm.trans (.memberOrder (by decide)))
  have hblocks (P : Node → Prop) (hblock : P block) : w.config.Serves P := by
    refine BlockStore.serves_loader _ (fun b hb => ?_) _ _
    rw [List.mem_singleton.1 hb]
    exact hblock
  exact ⟨hs, by decide, by decide,
    walk_eq_of_rearranged hs (.recursive limit hsequence hsequence) w 2
    (by decide) (by decide) (hblocks _ (by decide)) (hblocks _ (by decide)) .onlooker ()⟩

end DagSelect
