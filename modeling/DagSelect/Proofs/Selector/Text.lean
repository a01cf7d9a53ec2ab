import DagSelect.Selector.Text
import DagSelect.Proofs.DagJson.RoundTrip
import DagSelect.Proofs.Selector.RoundTrip

/-!
# Selectors read back from their texts

The written form of a selector has the keys of the wire, none of which is the reserved one, and the
names of fields, which are up to whoever selects them. So the text of a selector is read back unless
some fields are selected by the reserved key alone (`Selector.NoneReserved`). Such a selector
compiles from nodes, but never from a text, since no text denotes a node with a map of this key
alone.
-/

namespace DagSelect

theorem compileText_eq_ok_iff {source : String} {s : Selector} :
    compileText source = .ok s ↔ ∃ n, DagJson.decode source = .ok n ∧ compile n = .ok s := by
  unfold compileText
  cases DagJson.decode source with
  | error e => simp
  | ok n => cases hs : compile n <;> simp [hs]

/-! ## The reserved key in selectors -/

/-- Nowhere in the selector are fields selected by the reserved key alone. -/
inductive Selector.NoneReserved : Selector → Prop
  | matcher : NoneReserved .matcher
  | all {next : Selector} (rest : NoneReserved next) : NoneReserved (.all next)
  | fields {selections : List (String × Selector)} (unreserved : selections.map Prod.fst ≠ ["/"])
      (each : ∀ e ∈ selections, NoneReserved e.2) : NoneReserved (.fields selections)
  | index {position : Int64} {next : Selector} (rest : NoneReserved next) :
      NoneReserved (.index position next)
  | range {start stop : Int64} {next : Selector} (rest : NoneReserved next) :
      NoneReserved (.range start stop next)
  | union {members : List Selector} (each : ∀ m ∈ members, NoneReserved m) :
      NoneReserved (.union members)
  | recursive {limit : Limit} {sequence current : Selector} (start : NoneReserved sequence)
      (rest : NoneReserved current) : NoneReserved (.recursive limit sequence current)
  | edge : NoneReserved .edge

namespace Node

theorem written_empty : Wire.empty.Written := written_map_iff.2 (by simp)

theorem written_keyed_iff {key : String} (hkey : key ≠ "/") {body : Node} :
    (Wire.keyed key body).Written ↔ body.Written := by
  rw [Wire.keyed, written_map_iff]
  simp [hkey]

end Node

open Node

theorem Limit.written_toNode (l : Limit) : l.toNode.Written := by
  cases l with
  | depth laps => exact (written_keyed_iff (by decide)).2 (.scalar rfl)
  | unbounded => exact (written_keyed_iff (by decide)).2 written_empty

theorem Limit.floatFree_toNode (l : Limit) : l.toNode.FloatFree := by
  cases l with
  | depth laps => simp [toNode, Wire.keyed, floatFree_map_iff, floatFree_int]
  | unbounded => simp [toNode, Wire.keyed, Wire.empty, floatFree_map_iff]

namespace Selector

theorem floatFree_toNode (s : Selector) : s.toNode.FloatFree := by
  induction s with
  | matcher | edge => simp [toNode, Wire.keyed, Wire.empty, floatFree_map_iff]
  | all next ih => simp [toNode, Wire.keyed, floatFree_map_iff, ih]
  | fields selections ih =>
    simp only [toNode, Wire.keyed, floatFree_map_iff, selectionsToNode_eq_map, List.forall_mem_map,
      List.forall_mem_singleton]
    exact ih
  | index position next ih => simp [toNode, Wire.keyed, floatFree_map_iff, floatFree_int, ih]
  | range start stop next ih => simp [toNode, Wire.keyed, floatFree_map_iff, floatFree_int, ih]
  | union members ih =>
    simp only [toNode, Wire.keyed, floatFree_map_iff, floatFree_list_iff, membersToNode_eq_map,
      List.forall_mem_map, List.forall_mem_singleton]
    exact ih
  | recursive limit sequence current ih _ =>
    simp [toNode, Wire.keyed, floatFree_map_iff, limit.floatFree_toNode, ih]

theorem written_toNode {inside : Bool} {s : Selector} (h : WellFormedIn inside s)
    (hs : s.NoneReserved) : s.toNode.Written := by
  induction h with
  | matcher | edge => exact (written_keyed_iff (by decide)).2 written_empty
  | all _ ih =>
    cases hs with
    | all hs => exact (written_keyed_iff (by decide)).2 ((written_keyed_iff (by decide)).2 (ih hs))
  | fields distinct _ ih =>
    cases hs with
    | fields unreserved each =>
      refine (written_keyed_iff (by decide)).2 ((written_keyed_iff (by decide)).2 ?_)
      have hnames : ∀ selections : List (String × Selector),
          (selectionsToNode selections).map Prod.fst = selections.map Prod.fst := by simp
      rw [written_map_iff, hnames, selectionsToNode_eq_map, List.forall_mem_map]
      exact ⟨distinct, unreserved, fun e he => ih e he (each e he)⟩
  | index _ _ ih =>
    cases hs with
    | index hs =>
      refine (written_keyed_iff (by decide)).2 (written_map_iff.2 ?_)
      simp [Wire.position, Wire.next, written_int, ih hs]
  | range _ _ _ ih =>
    cases hs with
    | range hs =>
      refine (written_keyed_iff (by decide)).2 (written_map_iff.2 ?_)
      simp [Wire.start, Wire.stop, Wire.next, written_int, ih hs]
  | union _ _ ih =>
    cases hs with
    | union each =>
      refine (written_keyed_iff (by decide)).2 (written_list_iff.2 ?_)
      rw [membersToNode_eq_map, List.forall_mem_map]
      exact fun m hm => ih m hm (each m hm)
  | @recursive _ limit _ _ _ _ ih =>
    cases hs with
    | recursive hs =>
      refine (written_keyed_iff (by decide)).2 (written_map_iff.2 ?_)
      simp [Wire.limit, Wire.sequence, limit.written_toNode, ih hs]

end Selector

/-! ## What texts hold -/

theorem Node.Written.of_mem_body {key : String} {body : List (String × Node)}
    (h : (Node.map [(key, .map body)]).Written) {e : String × Node} (he : e ∈ body) : e.2.Written :=
  (written_map_iff.1 ((written_map_iff.1 h).2.2 _ List.mem_cons_self)).2.2 e he

/-- A node that a text can denote has no map with the reserved key alone, so there are no fields to
be read from it that are selected by this key alone. -/
theorem Compile.compositional_noneReserved :
    Compositional fun _ n s => n.Written → s.NoneReserved where
  matcher := fun _ => .matcher
  all mem rest := fun h => .all (rest (h.of_mem_body mem))
  fields mem names _ each := fun h => by
    obtain ⟨-, unreserved, hentries⟩ := written_map_iff.1 (h.of_mem_body mem)
    refine .fields (names ▸ unreserved) fun e he => ?_
    obtain ⟨f, hf, hread⟩ := each e he
    exact hread (hentries f hf)
  index mem _ rest := fun h => .index (rest (h.of_mem_body mem))
  range mem _ _ rest := fun h => .range (rest (h.of_mem_body mem))
  union _ each := fun h => .union fun m hm => by
    obtain ⟨n, hn, hread⟩ := each m hm
    exact hread (written_list_iff.1 ((written_map_iff.1 h).2.2 _ List.mem_cons_self) n hn)
  recursive mem _ _ rest := fun h =>
    .recursive (rest (h.of_mem_body mem)) (rest (h.of_mem_body mem))
  edge := fun _ => .edge

theorem noneReserved_of_compileText {source : String} {s : Selector}
    (h : compileText source = .ok s) : s.NoneReserved := by
  obtain ⟨n, hdecode, hcompile⟩ := compileText_eq_ok_iff.1 h
  exact Compile.compositional_noneReserved.of_compile hcompile (DagJson.written_of_decode hdecode)

/-- A well-formed selector is read back from either of its texts, whatever blanks come behind it. -/
theorem compileText_append_of_noneReserved {s : Selector} (h : s.WellFormed) (hs : s.NoneReserved)
    {blanks : String} (hblanks : ∀ c ∈ blanks.toList, c = ' ' ∨ c = '\n') :
    compileText (DagJson.encode s.toNode ++ blanks) = .ok s ∧
      compileText (DagJson.encodePretty s.toNode ++ blanks) = .ok s := by
  obtain ⟨hencode, hpretty⟩ :=
    DagJson.decode_append_of_floatFree (Selector.written_toNode h hs) s.floatFree_toNode hblanks
  rw [compileText_eq_ok_iff, compileText_eq_ok_iff]
  exact ⟨⟨s.toNode, hencode, compile_toNode h⟩, s.toNode, hpretty, compile_toNode h⟩

end DagSelect
