import DagSelect.Path
import DagSelect.Proofs.Node.Everywhere
import Mathlib.Data.List.Flatten
import Mathlib.Data.List.Nodup

/-!
# Document order

`document` lists a node and everything below it under their paths: every node before what is below
it, and children in the order of their container. The place of the node itself is carried along, so
a part of a document is listed as it stands in the whole. Where no map repeats a key, no path is
listed twice (`nodup_document`): two children of one node are told apart by the segment that leads
to them, and so is everything below them.
-/

namespace DagSelect.Node

/-- A node and the nodes below it in document order, each under its path. -/
def document : Node → Path → List (Path × Node) :=
  fold fun n children p => (p, n) :: children.flatMap fun (segment, _, below) =>
    below (p.push segment)

theorem document_eq (n : Node) (p : Path) :
    n.document p = (p, n) :: n.children.flatMap fun e => e.2.document (p.push e.1) := by
  conv => lhs; rw [document, fold_eq]
  rw [List.flatMap_map]
  rfl

/-- A path below a node begins with the path of the node. -/
theorem segments_prefix_of_mem_document {n : Node} {p : Path} {d : Path × Node}
    (hd : d ∈ n.document p) : p.segments <+: d.1.segments := by
  suffices step : n.Everywhere fun n => ∀ p, ∀ d ∈ n.document p, p.segments <+: d.1.segments from
    step.here p d hd
  refine everywhere_of_step (fun n below p d hd => ?_) n
  rw [document_eq] at hd
  rcases List.mem_cons.1 hd with rfl | hd
  · exact List.prefix_refl _
  · obtain ⟨e, he, hd⟩ := List.mem_flatMap.1 hd
    exact (List.prefix_append _ _).trans ((below e he).here _ d hd)

theorem nodup_segments_children {n : Node} (hn : n.KeysDiffer) :
    (n.children.map Prod.fst).Nodup := by
  cases n with
  | map entries =>
    rw [children, List.map_map]
    have hkeys : (entries.map Prod.fst).Nodup := hn
    have hsegments : (entries.map Prod.fst).map Segment.key =
        entries.map (Prod.fst ∘ fun e => (Segment.key e.1, e.2)) := by
      rw [List.map_map]
      rfl
    rw [← hsegments]
    exact hkeys.map fun k l h => Segment.key.inj h
  | list items =>
    rw [children, List.map_map]
    have hindices : (items.zipIdx.map Prod.snd).map (fun i : Nat => Segment.index i) =
        items.zipIdx.map (Prod.fst ∘ fun e => (Segment.index e.2, e.1)) := by
      rw [List.map_map]
      rfl
    rw [← hindices, List.zipIdx_map_snd]
    exact List.Nodup.map (fun i j h => Int.ofNat.inj (Segment.index.inj h)) List.nodup_range'
  | _ => exact List.nodup_nil

/-- No path occurs twice in a document in which no map repeats a key. -/
theorem nodup_document {n : Node} (hn : n.DistinctKeys) (p : Path) :
    ((n.document p).map Prod.fst).Nodup := by
  induction hn generalizing p with
  | @intro n here _ ih =>
    rw [document_eq, List.map_cons, List.map_flatMap, List.nodup_cons, List.nodup_flatMap]
    -- Below the node every path is longer than that of the node itself.
    have hbelow : ∀ e ∈ n.children, ∀ q ∈ (e.2.document (p.push e.1)).map Prod.fst,
        p.segments ++ [e.1] <+: q.segments := by
      intro e _ q hq
      obtain ⟨d, hd, rfl⟩ := List.mem_map.1 hq
      exact segments_prefix_of_mem_document hd
    refine ⟨fun hp => ?_, fun e he => ih e he _, ?_⟩
    · obtain ⟨e, he, hp⟩ := List.mem_flatMap.1 hp
      have hlength := (hbelow e he p hp).length_le
      rw [List.length_append, List.length_singleton] at hlength
      omega
    · refine ((List.pairwise_map.1 (nodup_segments_children here)).imp_of_mem ?_)
      intro e f he hf hne q hq hq'
      have hsame := List.prefix_of_prefix_length_le (hbelow e he q hq) (hbelow f hf q hq')
        (by simp)
      have hprefix := hsame.eq_of_length (by simp)
      exact hne (List.singleton_inj.1 (List.append_cancel_left hprefix))

end DagSelect.Node
