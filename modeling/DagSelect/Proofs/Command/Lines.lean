import DagSelect.Proofs.Command.Reading
import DagSelect.Proofs.DagJson.PlainText
import DagSelect.Proofs.Json.OneLine
import DagSelect.Proofs.Walk.Visited
import Mathlib.Data.List.Basic

/-!
# What `select` prints

`select` prints a line for each visit of a walk. The line is the compact text of a node that holds
the place, the reason and the node of the visit, so there is no newline in it but the one at its
end, and the visit is read back from it. What is needed of the node for this is what sets the nodes
apart that are read from texts; it is true of the root and of the blocks, and so of everything that
is visited.
-/

namespace DagSelect

def Visit.toNode (v : Visit) : Node :=
  .map [("path", .string v.progress.path.text), ("reason", .string v.reason.name), ("node", v.node)]

def Outcome.status : Outcome → Command.Status
  | .done => .done
  | .failed e => .failed (.walk e)
  | .unfinished => .unfinished

namespace Visit

open Node

theorem isRepeatable_toNode {v : Visit} (h : v.node.IsRepeatable) : v.toNode.IsRepeatable := by
  refine .map (by simp) (by simp) fun e he => ?_
  simp only [List.mem_cons, List.not_mem_nil, or_false] at he
  rcases he with rfl | rfl | rfl
  · exact isRepeatable_string _
  · exact isRepeatable_string _
  · exact h

theorem floatFree_toNode {v : Visit} (h : v.node.FloatFree) : v.toNode.FloatFree := by
  rw [toNode, floatFree_map_iff]
  simp [floatFree_string, h]

end Visit

namespace Command

theorem line_eq (v : Visit) : line v = DagJson.encode v.toNode ++ "\n" := rfl

theorem newline_notMem_encode {n : Node} (h : n.FloatFree) : '\n' ∉ (DagJson.encode n).toList := by
  rw [DagJson.encode, Json.Value.text, String.toList_ofList]
  exact Json.Value.oneLine_compact
    (DagJson.everyFloat_toJson (h.everyFloat.imp fun _ => False.elim)) [] List.not_mem_nil

/-- What is printed of a visit is read back if its node can be written again. -/
theorem decode_line_of_isRepeatable {v : Visit} (h : v.node.IsRepeatable) :
    DagJson.decode (line v) = .ok v.toNode := by
  rw [line_eq]
  exact DagJson.decode_append_of_isRepeatable (Visit.isRepeatable_toNode h) (by simp)

theorem decode_line {v : Visit} (hwritten : v.node.Written) (hfree : v.node.FloatFree) :
    DagJson.decode (line v) = .ok v.toNode :=
  decode_line_of_isRepeatable (hfree.isRepeatable hwritten)

/-! ## The nodes of a walk -/

theorem select_eq {read : Reader} {o : Options} {s : Selector} {root : Node}
    (hs : readSelector read o.selector = .ok s) (hroot : readNode read o.file = .ok root)
    (hops : Nat) :
    let report := ((Walker.new (o.config read)).walk hops root s .onlooker ()).1
    select read hops o =
      ⟨report.outcome.status, String.join ((report.visits.filter o.prints).map line), []⟩ := by
  intro report
  rw [select, hs, hroot]
  rfl

/-- The command ends before its walk unless there is a selector and a root. -/
theorem exists_read_of_select {read : Reader} {o : Options} {hops : Nat}
    (h : ¬ (select read hops o).status.BeforeWalk) :
    ∃ s root, readSelector read o.selector = .ok s ∧ readNode read o.file = .ok root := by
  cases hs : readSelector read o.selector with
  | error answer =>
    rw [select, hs] at h
    exact absurd (beforeWalk_of_readSelector hs) h
  | ok s =>
    cases hroot : readNode read o.file with
    | error answer =>
      rw [select, hs, hroot] at h
      exact absurd (beforeWalk_of_readNode hroot) h
    | ok root => exact ⟨s, root, rfl, rfl⟩

theorem readable_of_mem_visits {read : Reader} {o : Options} {s : Selector} {root : Node}
    {hops : Nat} (hwritten : root.Written) (hfree : root.FloatFree)
    (hblocks : (o.config read).Serves Node.FloatFree) {v : Visit}
    (hv : v ∈ ((Walker.new (o.config read)).walk hops root s .onlooker ()).1.visits) :
    v.node.Written ∧ v.node.FloatFree := by
  let w := Walker.new (o.config read)
  have hserves : w.config.Serves fun block =>
      block.Everywhere fun m => m.KeysDiffer ∧ m.Unreserved :=
    o.serves_config fun _ _ _ _ hn => DagJson.written_of_decode hn
  have hserves' : w.config.Serves fun block => block.Everywhere fun m => m.kind ≠ .float := hblocks
  constructor
  · exact Walker.everywhere_of_mem_visits (fun l => (Node.written_link l).here) hserves hwritten hv
  · exact Walker.everywhere_of_mem_visits (fun l => (Node.floatFree_link l).here) hserves' hfree hv

/-! ## The lines -/

/-- Of a selector and data without floats `select` prints one line for each visit of the walk that
is to be printed, in their order and however the walk ends. A line has its only newline at its end,
and the place, the reason and the node of the visit are read back from it. -/
theorem select_prints_visits {read : Reader} {o : Options} {s : Selector} {root : Node}
    (hs : readSelector read o.selector = .ok s) (hroot : readNode read o.file = .ok root)
    (hfree : root.FloatFree) (hblocks : (o.config read).Serves Node.FloatFree) (hops : Nat) :
    let report := ((Walker.new (o.config read)).walk hops root s .onlooker ()).1
    let printed := report.visits.filter fun v => o.all || v.reason == .matched
    (select read hops o).status = report.outcome.status ∧
      ∃ lines : List String, (select read hops o).output = String.join lines ∧
        (∀ l ∈ lines, ∃ body, l = body ++ "\n" ∧ '\n' ∉ body.toList) ∧
        lines.map DagJson.decode = printed.map fun v =>
          .ok (.map [("path", .string v.progress.path.text), ("reason", .string v.reason.name),
            ("node", v.node)]) := by
  intro report printed
  have hread (v : Visit) (hv : v ∈ printed) : v.node.Written ∧ v.node.FloatFree :=
    readable_of_mem_visits (written_of_readNode hroot) hfree hblocks (List.mem_filter.1 hv).1
  rw [select_eq hs hroot hops]
  refine ⟨rfl, printed.map line, rfl, fun l hl => ?_, ?_⟩
  · obtain ⟨v, hv, rfl⟩ := List.mem_map.1 hl
    have hfree := Visit.floatFree_toNode (hread v hv).2
    exact ⟨DagJson.encode v.toNode, line_eq v, newline_notMem_encode hfree⟩
  · rw [List.map_map]
    refine List.map_congr_left fun v hv => ?_
    rw [Function.comp_apply, decode_line (hread v hv).1 (hread v hv).2]
    rfl

/-- A newline in a key, and a block in the place of its link. -/
theorem select_prints_visits_newline :
    let texts (file : String) : String :=
      if file = "s" then "\x7b\"a\": \x7b\">\": \x7b\".\": \x7b\x7d\x7d\x7d\x7d"
      else if file = "d" then "\x7b\"\\n\": 1, \"l\": \x7b\"/\": \"x\"\x7d\x7d"
      else "[true]"
    let read : Reader := fun file => .ok (texts file)
    let o : Options := ⟨"s", "d", some "blocks", false, none, none, false⟩
    (select read 2 o).status = .done ∧ ∃ lines, (select read 2 o).output = String.join lines ∧
      lines.map DagJson.decode =
        [.ok (.map [("path", .string "\n"), ("reason", .string "matched"), ("node", .int 1)]),
          .ok (.map [("path", .string "l"), ("reason", .string "matched"),
            ("node", .list [.bool true])])] := by
  intro texts read o
  let root : Node := .map [("\n", .int 1), ("l", .link ⟨"x"⟩)]
  have hs : readSelector read o.selector = .ok (.all .matcher) := by decide +kernel
  have hroot : readNode read o.file = .ok root := by decide +kernel
  have hfiles (file : String) (n : Node) (h : DagJson.decode (texts file) = .ok n) :
      n.FloatFree := by
    have hselector : DagJson.decode (texts "s") =
        .ok (.map [("a", .map [(">", .map [(".", .map [])])])]) := by decide +kernel
    have hdata : DagJson.decode (texts "d") = .ok root := by decide +kernel
    have hblock : DagJson.decode "[true]" = .ok (.list [.bool true]) := by decide +kernel
    by_cases hfile : file = "s"
    · rw [hfile, hselector] at h
      cases h
      decide
    by_cases hfile' : file = "d"
    · rw [hfile', hdata] at h
      cases h
      decide
    · rw [show texts file = "[true]" by simp [texts, hfile, hfile'], hblock] at h
      cases h
      decide
  have hblocks : (o.config read).Serves Node.FloatFree :=
    o.serves_config fun file _ n hsource hn => by
      cases hsource
      exact hfiles file n hn
  obtain ⟨hstatus, lines, houtput, -, hlines⟩ :=
    select_prints_visits hs hroot (by decide) hblocks 2
  exact ⟨hstatus.trans (by decide +kernel), lines, houtput, hlines.trans (by decide +kernel)⟩

end Command

end DagSelect
