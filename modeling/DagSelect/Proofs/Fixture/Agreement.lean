import DagSelect.Fixture.Run
import DagSelect.Proofs.Command.Confinement
import DagSelect.Proofs.Command.Lines

/-!
# Cases and commands agree

A case can be laid out in files, one for the selector, one for the data and one for each block, and
`select` can be given its settings. Then executing the case and running the command come to the
same: the case has its blocks from a store that is filled beforehand and the command reads them one
by one when it comes to their links, but a link leads to the same block, or to none, in either way
(`exists_toStore`). What is left to compare are two ways of going about a report, and what the
command prints of a visit is read back as what the case records of it.

Blocks that do not decode would make a difference: a case is refused for them, while the command
fails only if it comes to their links.
-/

namespace DagSelect

/-! ## Stores -/

namespace BlockStore

theorem get?_insert (s : BlockStore) (l l' : Link) (n : Node) :
    (s.insert l n).get? l' = if l' = l then some n else s.get? l' := by
  obtain ⟨blocks⟩ := s
  by_cases hl : l' = l
  · rw [if_pos hl, hl, get?_insert_self]
  · have hcons : (l' == l) = false := beq_eq_false_iff_ne.2 hl
    rw [if_neg hl, insert, get?, get?, List.lookup_cons, hcons]
    induction blocks with
    | nil => rfl
    | cons b rest ih =>
      obtain ⟨k, m⟩ := b
      by_cases hk : k = l
      · rw [List.filter_cons_of_neg (by simp [hk]), List.lookup_cons, hk, hcons]
        exact ih
      · rw [List.filter_cons_of_pos (by simp [hk]), List.lookup_cons, List.lookup_cons]
        cases l' == k with
        | true => rfl
        | false => exact ih

/-- Of the blocks for one link the last is found. -/
theorem get?_ofList (blocks : List (Link × Node)) (l : Link) :
    (ofList blocks).get? l = blocks.reverse.lookup l := by
  suffices hfrom : ∀ s : BlockStore, (blocks.foldl (fun s b => s.insert b.1 b.2) s).get? l =
      (blocks.reverse.lookup l).or (s.get? l) by
    rw [ofList, hfrom empty]
    exact Option.or_none
  induction blocks with
  | nil => exact fun s => rfl
  | cons b rest ih =>
    intro s
    rw [List.foldl_cons, ih, get?_insert, List.reverse_cons, List.lookup_append, Option.or_assoc,
      List.lookup_cons]
    by_cases hl : l = b.1
    · simp [hl]
    · rw [if_neg hl, beq_eq_false_iff_ne.2 hl]
      rfl

end BlockStore

namespace Fixture

/-! ## The files of a case -/

/-- The settings of a case as a command takes them. -/
def Case.options (c : Case) (selector file directory : String) : Command.Options where
  selector := selector
  file := file
  links := c.blocks.map fun _ => directory
  all := c.all
  maxNodes :=
    match c.bounds with
    | some ⟨none, none⟩ => some Budget.limitless
    | bounds => bounds.bind Bounds.nodes
  maxLinks := c.bounds.bind Bounds.links
  once := c.once

/-- The selector and the data stand in files of their own, and in a directory there is a file for
each block and none with another plain name. -/
structure Case.LaidOut (c : Case) (read : Reader) (selector file directory : String) : Prop where
  selector : read selector = .ok c.selector.text
  data : read file = .ok c.data.text
  present : ∀ blocks ∈ c.blocks, ∀ b ∈ blocks,
    read (BlockDirectory.fileName directory ⟨b.1⟩) = .ok b.2.text
  absent : ∀ blocks ∈ c.blocks, ∀ name, BlockDirectory.IsPlain name → name ∉ blocks.map Prod.fst →
    read (BlockDirectory.fileName directory ⟨name⟩) = .error .notFound

/-- The visit that a printed line tells of. -/
def Step.ofLine? (line : String) : Option Step :=
  match DagJson.decode line with
  | .ok (.map [("path", .string path), ("reason", .string reason), ("node", _)]) =>
    some ⟨path, reason⟩
  | _ => none

theorem toNode_eq_ok_iff {v : Json.Value} {n : Node} :
    toNode v = .ok n ↔ DagJson.decode v.text = .ok n :=
  Except.mapError_eq_ok_iff

/-! ## Blocks -/

section

variable {read : Reader} {directory : String} {blocks : List (String × Json.Value)}

/-- The store of the blocks of a case loads what the directory with their files loads. -/
theorem exists_toStore (hnames : ∀ b ∈ blocks, BlockDirectory.IsPlain b.1)
    (hdecode : ∀ b ∈ blocks, ∃ n, DagJson.decode b.2.text = .ok n)
    (hpresent : ∀ b ∈ blocks, read (BlockDirectory.fileName directory ⟨b.1⟩) = .ok b.2.text)
    (habsent : ∀ name, BlockDirectory.IsPlain name → name ∉ blocks.map Prod.fst →
      read (BlockDirectory.fileName directory ⟨name⟩) = .error .notFound) :
    ∃ store, toStore blocks = .ok store ∧ store.loader = BlockDirectory.loader read directory := by
  let node (v : Json.Value) : Node := (toNode v).toOption.getD .null
  have hnode (b : String × Json.Value) (hb : b ∈ blocks) : toNode b.2 = .ok (node b.2) := by
    obtain ⟨n, hn⟩ := hdecode b hb
    simp only [node, toNode_eq_ok_iff.2 hn]
    rfl
  let nodes := blocks.map fun b => (Link.mk b.1, node b.2)
  have hnodes : (blocks.mapM fun b => do return (Link.mk b.1, ← toNode b.2)) = .ok nodes :=
    Except.mapM_eq_ok fun b hb => by rw [hnode b hb]; rfl
  refine ⟨.ofList nodes, by rw [toStore, hnodes]; rfl, ?_⟩
  funext l p
  rw [BlockStore.loader, BlockStore.get?_ofList]
  cases hl : nodes.reverse.lookup l with
  | some n =>
    obtain ⟨before, behind, heq, -⟩ := List.lookup_eq_some_iff.1 hl
    have hmem : (l, n) ∈ nodes := List.mem_reverse.1 (by simp [heq])
    obtain ⟨b, hb, hbn⟩ := List.mem_map.1 hmem
    cases hbn
    exact (BlockDirectory.loader_of_decode (hnames b hb) (hpresent b hb)
      (toNode_eq_ok_iff.1 (hnode b hb)) p).symm
  | none =>
    have hmissing : l.text ∉ blocks.map Prod.fst := by
      intro hmem
      obtain ⟨b, hb, heq⟩ := List.mem_map.1 hmem
      have hentry : (l, node b.2) ∈ nodes.reverse :=
        List.mem_reverse.2 (List.mem_map.2 ⟨b, hb, by rw [heq]⟩)
      simpa using List.lookup_eq_none_iff.1 hl _ hentry
    exact (BlockDirectory.loader_of_notFound (fun hname => habsent l.text hname hmissing) p).symm

end

namespace Case

variable {c : Case} {read : Reader} {selector file directory : String}

theorem config_eq (hfiles : c.LaidOut read selector file directory)
    (hnames : ∀ blocks ∈ c.blocks, ∀ b ∈ blocks, BlockDirectory.IsPlain b.1)
    (hdecode : ∀ blocks ∈ c.blocks, ∀ b ∈ blocks, ∃ n, DagJson.decode b.2.text = .ok n) :
    c.config = .ok ((c.options selector file directory).config read) := by
  have hbudget : ((c.options selector file directory).config read).budget =
      c.bounds.map fun b => .of b.nodes b.links := by
    rw [Command.Options.config, options]
    rcases c.bounds with _ | ⟨_ | nodes, _ | links⟩
    · rfl
    · rfl
    · rfl
    · rfl
    · rfl
  have hloader : ∃ store, c.blocks.mapM toStore = .ok store ∧ store.map BlockStore.loader =
      ((c.options selector file directory).config read).loader := by
    rw [Command.Options.config, options]
    cases hblocks : c.blocks with
    | none => exact ⟨none, rfl, rfl⟩
    | some blocks =>
      obtain ⟨store, hstore, hloader⟩ := exists_toStore (hnames blocks hblocks)
        (hdecode blocks hblocks) (hfiles.present blocks hblocks) (hfiles.absent blocks hblocks)
      refine ⟨some store, ?_, congrArg some hloader⟩
      rw [Option.mapM_some, hstore]
      rfl
  obtain ⟨store, hstore, hloader⟩ := hloader
  rw [config, hstore]
  simp only [bind, Except.bind, hloader, ← hbudget]
  rfl

def conclude (c : Case) (report : Report Unit) : Except String (List Step) :=
  match report.outcome with
  | .done => .ok ((report.visits.filter c.records).map .ofVisit)
  | .failed e => .error e.message
  | .unfinished => .error "links are followed too deep"

theorem conclude_eq_ok_iff {report : Report Unit} {steps : List Step} :
    c.conclude report = .ok steps ↔
      report.outcome = .done ∧ (report.visits.filter c.records).map .ofVisit = steps := by
  rw [conclude]
  cases report.outcome <;> simp

theorem conclude_of_failed {report : Report Unit} {e : WalkError} (h : report.outcome = .failed e) :
    c.conclude report = .error e.message := by
  rw [conclude, h]

theorem execute_eq {s : Selector} {root : Node} {config : Config}
    (hs : compileText c.selector.text = .ok s) (hroot : DagJson.decode c.data.text = .ok root)
    (hconfig : c.config = .ok config) (hops : Nat) :
    c.execute hops = c.conclude ((Walker.new config).walk hops root s .onlooker ()).1 := by
  obtain ⟨n, hn, hcompile⟩ := compileText_eq_ok_iff.1 hs
  rw [execute, toNode_eq_ok_iff.2 hn, toNode_eq_ok_iff.2 hroot, hconfig]
  simp only [bind, Except.bind, hcompile]
  rfl

theorem exists_of_execute {hops : Nat} {steps : List Step} (h : c.execute hops = .ok steps) :
    ∃ s root, compileText c.selector.text = .ok s ∧ DagJson.decode c.data.text = .ok root := by
  rw [execute] at h
  obtain ⟨n, hn, h⟩ := Except.bind_eq_ok_iff.1 h
  obtain ⟨s, hs, h⟩ := Except.bind_eq_ok_iff.1 h
  obtain ⟨root, hroot, -⟩ := Except.bind_eq_ok_iff.1 h
  have hcompile : compile n = .ok s := Except.mapError_eq_ok_iff.1 hs
  exact ⟨s, root, compileText_eq_ok_iff.2 ⟨n, toNode_eq_ok_iff.1 hn, hcompile⟩,
    toNode_eq_ok_iff.1 hroot⟩

end Case

/-! ## Lines -/

theorem ofLine?_line {v : Visit} (h : v.node.IsRepeatable) :
    Step.ofLine? (Command.line v) = some (Step.ofVisit v) := by
  rw [Step.ofLine?, Command.decode_line_of_isRepeatable h]
  rfl

/-- The lines of some visits, each with its only newline at its end. -/
theorem exists_lines {visits : List Visit} (h : ∀ v ∈ visits, v.node.IsRepeatable) :
    ∃ lines : List String, String.join (visits.map Command.line) = String.join lines ∧
      (∀ l ∈ lines, ∃ body, l = body ++ "\n" ∧ '\n' ∉ body.toList) ∧
      lines.map Step.ofLine? = (visits.map Step.ofVisit).map some := by
  refine ⟨visits.map Command.line, rfl, fun l hl => ?_, ?_⟩
  · obtain ⟨v, -, rfl⟩ := List.mem_map.1 hl
    exact ⟨_, Command.line_eq v, DagJson.newline_notMem_encode v.toNode⟩
  · rw [List.map_map, List.map_map]
    refine List.map_congr_left fun v hv => ?_
    rw [Function.comp_apply, Function.comp_apply, ofLine?_line (h v hv)]

namespace Case.LaidOut

variable {c : Case} {read : Reader} {selector file directory : String}

/-- The blocks that the command is given are texts of plain values. -/
theorem exists_of_loader (hfiles : c.LaidOut read selector file directory)
    {blocks : List (String × Json.Value)} (hblocks : blocks ∈ c.blocks) {l : Link} {p : Progress}
    {block : Node} (h : BlockDirectory.loader read directory l p = .ok block) :
    ∃ v : Json.Value, DagJson.decode v.text = .ok block := by
  have hname : BlockDirectory.IsPlain l.text := by
    by_contra hname
    rw [BlockDirectory.loader_of_not_isPlain hname] at h
    cases h
  obtain ⟨source, hread, hblock⟩ := BlockDirectory.exists_of_loader h
  by_cases hmem : l.text ∈ blocks.map Prod.fst
  · obtain ⟨b, hb, heq⟩ := List.mem_map.1 hmem
    have hpresent := hfiles.present blocks hblocks b hb
    rw [heq, hread] at hpresent
    exact ⟨b.2, Except.ok.inj hpresent ▸ hblock⟩
  · rw [hfiles.absent blocks hblocks l.text hname hmem] at hread
    cases hread

theorem isRepeatable_of_mem_visits (hfiles : c.LaidOut read selector file directory) {root : Node}
    (hroot : DagJson.decode c.data.text = .ok root) {hops : Nat} {s : Selector} {v : Visit}
    (hv : v ∈ ((Walker.new ((c.options selector file directory).config read)).walk hops root s
      .onlooker ()).1.visits) : v.node.IsRepeatable := by
  have hserves : ((c.options selector file directory).config read).Serves fun block =>
      block.Everywhere fun m =>
        (m.KeysDiffer ∧ m.Unreserved) ∧ ∀ x, m = .float x → Binary64.IsModerate x := by
    intro loader hloader l p block hblock
    obtain ⟨d, hd, rfl⟩ := Option.map_eq_some_iff.1 hloader
    obtain ⟨blocks, hblocks, rfl⟩ := Option.map_eq_some_iff.1 hd
    obtain ⟨v, hv⟩ := hfiles.exists_of_loader hblocks hblock
    exact Node.isRepeatable_iff.1 (DagJson.isRepeatable_of_decode_text hv)
  exact Node.isRepeatable_iff.2 (Walker.everywhere_of_mem_visits
    (fun l => ⟨(Node.written_link l).here, by rintro x ⟨⟩⟩) hserves
    (Node.isRepeatable_iff.1 (DagJson.isRepeatable_of_decode_text hroot)) hv)

end Case.LaidOut

/-! ## Agreement -/

/-- Where there is a selector and a root, the case and the command come to one report. -/
theorem Case.LaidOut.exists_report {c : Case} {read : Reader} {selector file directory : String}
    (hfiles : c.LaidOut read selector file directory)
    (hconfig : c.config = .ok ((c.options selector file directory).config read)) {s : Selector}
    {root : Node} (hs : compileText c.selector.text = .ok s)
    (hroot : DagJson.decode c.data.text = .ok root) (hops : Nat) :
    ∃ report : Report Unit, c.execute hops = c.conclude report ∧
      Command.select read hops (c.options selector file directory) =
        ⟨report.outcome.status,
          String.join ((report.visits.filter c.records).map Command.line), []⟩ ∧
      ∀ v ∈ report.visits, v.node.IsRepeatable := by
  have hselector : Command.readSelector read selector = .ok s :=
    Command.readSelector_eq_ok_iff.2 ⟨_, hfiles.selector, hs⟩
  have hdata : Command.readNode read file = .ok root :=
    Command.readNode_eq_ok_iff.2 ⟨_, hfiles.data, hroot⟩
  exact ⟨_, Case.execute_eq hs hroot hconfig hops, Command.select_eq hselector hdata hops,
    fun _ => hfiles.isRepeatable_of_mem_visits hroot⟩

/-- A case whose blocks have plain names and decode is executed with success exactly if the command
is done with its files, and it records what is read back from the lines that the command prints. If
the walk of the command fails, then the case is refused with the message of the failure. -/
theorem execute_agrees_with_select {c : Case} {read : Reader} {selector file directory : String}
    (hfiles : c.LaidOut read selector file directory)
    (hnames : ∀ blocks ∈ c.blocks, ∀ b ∈ blocks, BlockDirectory.IsPlain b.1)
    (hdecode : ∀ blocks ∈ c.blocks, ∀ b ∈ blocks, ∃ n, DagJson.decode b.2.text = .ok n)
    (hops : Nat) :
    let answer := Command.select read hops (c.options selector file directory)
    ((∃ steps, c.execute hops = .ok steps) ↔ answer.status = .done) ∧
      (∀ steps, c.execute hops = .ok steps → ∃ lines : List String,
        answer.output = String.join lines ∧
          (∀ l ∈ lines, ∃ body, l = body ++ "\n" ∧ '\n' ∉ body.toList) ∧
          lines.map Step.ofLine? = steps.map some) ∧
      ∀ e, answer.status = .failed (.walk e) → c.execute hops = .error e.message := by
  intro answer
  by_cases hread : ∃ s root, compileText c.selector.text = .ok s ∧
      DagJson.decode c.data.text = .ok root
  · obtain ⟨s, root, hs, hroot⟩ := hread
    obtain ⟨report, hexecute, hanswer, hvisits⟩ :=
      hfiles.exists_report (Case.config_eq hfiles hnames hdecode) hs hroot hops
    rw [hexecute, show answer = _ from hanswer]
    refine ⟨?_, fun steps hsteps => ?_, fun e he => Case.conclude_of_failed ?_⟩
    · simp only [Case.conclude_eq_ok_iff, exists_and_left, exists_eq', and_true]
      cases report.outcome <;> simp [Outcome.status]
    · obtain ⟨-, rfl⟩ := Case.conclude_eq_ok_iff.1 hsteps
      exact exists_lines fun v hv => hvisits v (List.mem_filter.1 hv).1
    · cases houtcome : report.outcome with
      | failed e' =>
        rw [houtcome] at he
        cases he
        rfl
      | _ =>
        rw [houtcome] at he
        cases he
  · have hrefused (steps : List Step) : c.execute hops ≠ .ok steps := fun h =>
      hread (Case.exists_of_execute h)
    have hbefore : answer.status.BeforeWalk := by
      by_contra hafter
      obtain ⟨s, root, hs, hroot⟩ := Command.exists_read_of_select hafter
      obtain ⟨source, hsource, hs⟩ := Command.readSelector_eq_ok_iff.1 hs
      obtain ⟨source', hsource', hroot⟩ := Command.readNode_eq_ok_iff.1 hroot
      cases hfiles.selector.symm.trans hsource
      cases hfiles.data.symm.trans hsource'
      exact hread ⟨s, root, hs, hroot⟩
    refine ⟨⟨fun ⟨steps, h⟩ => absurd h (hrefused steps), fun h => ?_⟩,
      fun steps h => absurd h (hrefused steps), fun e h => ?_⟩
    · rw [h] at hbefore
      cases hbefore
    · rw [h] at hbefore
      cases hbefore

/-- A float and a key with a newline in it, and two links to one block that is loaded once. -/
theorem execute_agrees_with_select_shared_block :
    let matcher : Json.Value := .object [(".", .object [])]
    let children (next : Json.Value) : Json.Value := .object [("a", .object [(">", next)])]
    let link : Json.Value := .object [("/", .string "x")]
    let block : Json.Value := .array [.null, .string "\n"]
    let c : Case :=
      { description := ""
        selector := children (.object [("|", .array [matcher, children matcher])])
        data := .object [("k\n", .float ⟨0x3FF8000000000000⟩), ("l", link), ("m", link)]
        blocks := some [("x", block)]
        all := true
        bounds := some ⟨none, none⟩
        once := true
        error := none
        visits := none }
    let read : Reader := fun name =>
      if name = "s" then .ok c.selector.text
      else if name = "d" then .ok c.data.text
      else if name = BlockDirectory.fileName "blocks" ⟨"x"⟩ then .ok block.text
      else .error .notFound
    let steps : List Step := [⟨"", "explored"⟩, ⟨"k\n", "matched"⟩, ⟨"l", "matched"⟩,
      ⟨"l/0", "matched"⟩, ⟨"l/1", "matched"⟩]
    c.execute 1 = .ok steps ∧ ∃ lines : List String,
      (Command.select read 1 (c.options "s" "d" "blocks")).output = String.join lines ∧
        lines.map Step.ofLine? = steps.map some := by
  intro matcher children link block c read steps
  have hnotGiven (name : String) : BlockDirectory.fileName "blocks" ⟨name⟩ ≠ "s" ∧
      BlockDirectory.fileName "blocks" ⟨name⟩ ≠ "d" := by
    have hjoin : BlockDirectory.fileName "blocks" ⟨name⟩ = "blocks/" ++ (name ++ ".json") :=
      if_neg (by decide +kernel)
    rw [hjoin]
    exact ⟨fun h => by simpa using congrArg String.toList h,
      fun h => by simpa using congrArg String.toList h⟩
  have hfiles : c.LaidOut read "s" "d" "blocks" := by
    refine ⟨rfl, rfl, ?_, ?_⟩
    · rintro _ ⟨⟩ b hb
      rw [List.mem_singleton.1 hb]
      simp only [read, hnotGiven, if_false, if_true]
    · rintro _ ⟨⟩ name - hname
      have hne : BlockDirectory.fileName "blocks" ⟨name⟩ ≠ BlockDirectory.fileName "blocks" ⟨"x"⟩ :=
        fun heq => hname (by simp [Link.mk.inj (BlockDirectory.fileName_inj.1 heq)])
      simp only [read, hnotGiven, hne, if_false]
  have hnames : ∀ blocks ∈ c.blocks, ∀ b ∈ blocks, BlockDirectory.IsPlain b.1 := by
    rintro _ ⟨⟩ b hb
    rw [List.mem_singleton.1 hb]
    exact (BlockDirectory.isName_iff (l := ⟨"x"⟩)).1 (by decide +kernel)
  have hdecode : ∀ blocks ∈ c.blocks, ∀ b ∈ blocks, ∃ n, DagJson.decode b.2.text = .ok n := by
    rintro _ ⟨⟩ b hb
    rw [List.mem_singleton.1 hb]
    exact ⟨.list [.null, .string "\n"], by decide +kernel⟩
  have hexecute : c.execute 1 = .ok steps := by decide +kernel
  obtain ⟨-, hlines, -⟩ := execute_agrees_with_select hfiles hnames hdecode 1
  obtain ⟨lines, houtput, -, hread⟩ := hlines steps hexecute
  exact ⟨hexecute, lines, houtput, hread⟩

end Fixture

end DagSelect
