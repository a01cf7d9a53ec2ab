import DagSelect.Proofs.Command.Lines
import DagSelect.Proofs.Walk.Interruption

/-!
# Printing while walking

`select` written out with its output: the visitor of the walk picks what is to be printed and writes
the line of it, and output that is not taken ends the walk. `select` itself collects the visits of a
walk that nobody disturbs and prints them afterwards, as if all output were taken. The two answer
the same when it is (`selectTo_append`), and otherwise the failure is that of the visit whose line
was not taken, and the lines before it have been printed (`selectTo_eq`).
-/

namespace DagSelect.Command

variable {ω : Type}

abbrev Sink (ω : Type) := ω → String → Except String ω

def lineText (v : Visit) : String :=
  (Json.Value.object [("path", .string v.progress.path.text), ("reason", .string v.reason.name),
    ("node", DagJson.toJson v.node)]).text

def Options.printing (o : Options) (write : Sink ω) : Visitor ω := fun out v =>
  if v.reason = .explored ∧ ¬o.all then .ok out
  else do
    let out ← (write out (lineText v)).mapError .visitor
    (write out "\n").mapError .visitor

/-- What is walked and the selector for it, or the answer of a command that stops for want of
them. -/
def readOperands (read : Reader) (o : Options) : Except Answer (Selector × Node) := do
  let s ← readSelector read o.selector
  let root ← readNode read o.file
  return (s, root)

/-- Walks a document with a selector and prints on the way. The output that was taken is handed
back. -/
def selectTo (write : Sink ω) (out : ω) (read : Reader) (hops : Nat) (o : Options) :
    Status × List String × ω :=
  match readOperands read o with
  | .error answer => (answer.status, answer.complaints, out)
  | .ok (s, root) =>
    let report := ((Walker.new (o.config read)).walk hops root s (o.printing write) out).1
    (report.outcome.status, [], report.visitor)

/-! ## Output that is taken -/

def Sink.appending : Sink String := fun out text => .ok (out ++ text)

theorem prints_eq_true_iff {o : Options} {v : Visit} :
    o.prints v = true ↔ ¬(v.reason = .explored ∧ ¬o.all) := by
  unfold Options.prints
  cases v.reason <;> simp

theorem printing_appending (o : Options) (out : String) (v : Visit) :
    o.printing Sink.appending out v = .ok (if o.prints v then out ++ line v else out) := by
  unfold Options.printing
  by_cases hprints : o.prints v
  · rw [if_neg (prints_eq_true_iff.1 hprints), if_pos hprints]
    change Except.ok (out ++ lineText v ++ "\n") = .ok (out ++ (lineText v ++ "\n"))
    rw [String.append_assoc]
  · rw [if_pos (not_not.1 fun h => hprints (prints_eq_true_iff.2 h)), if_neg hprints]

theorem feed_printing_appending (o : Options) (out : String) (visits : List Visit) :
    (o.printing Sink.appending).feed out visits =
      .ok (visits.length, out ++ String.join ((visits.filter o.prints).map line)) := by
  induction visits using List.reverseRecOn with
  | nil => simp [Visitor.feed, pure, Except.pure]
  | append_singleton visits v ih =>
    rw [Visitor.feed_append_singleton ih, Visitor.counting]
    simp only [printing_appending]
    by_cases hprints : o.prints v
    · simp [hprints, String.append_assoc]
    · simp [hprints]

/-! ## Any output -/

theorem exists_of_printing_eq_error {o : Options} {write : Sink ω} {out : ω} {v : Visit}
    {e : WalkError} (h : o.printing write out v = .error e) : ∃ cause, e = .visitor cause := by
  unfold Options.printing at h
  split at h
  · cases h
  · rcases Except.bind_eq_error_iff.1 h with hline | ⟨out', -, hend⟩
    · obtain ⟨cause, -, rfl⟩ := Except.mapError_eq_error_iff.1 hline
      exact ⟨cause, rfl⟩
    · obtain ⟨cause, -, rfl⟩ := Except.mapError_eq_error_iff.1 hend
      exact ⟨cause, rfl⟩

theorem output_of_readNode {read : Reader} {file : String} {answer : Answer}
    (h : readNode read file = .error answer) : answer.output = "" := by
  unfold readNode at h
  split at h
  · cases h
    rfl
  · split at h
    · cases h
    · cases h
      rfl

theorem output_of_readSelector {read : Reader} {file : String} {answer : Answer}
    (h : readSelector read file = .error answer) : answer.output = "" := by
  rcases Except.bind_eq_error_iff.1 h with hn | ⟨n, -, hs⟩
  · exact output_of_readNode hn
  · split at hs
    · cases hs
    · cases hs
      rfl

/-- A command that has nothing to walk has printed nothing. -/
theorem output_of_readOperands {read : Reader} {o : Options} {answer : Answer}
    (h : readOperands read o = .error answer) : answer.output = "" := by
  rcases Except.bind_eq_error_iff.1 h with hs | ⟨s, -, h⟩
  · exact output_of_readSelector hs
  · rcases Except.bind_eq_error_iff.1 h with hroot | ⟨root, -, ⟨⟩⟩
    exact output_of_readNode hroot

theorem select_eq_of_error {read : Reader} {o : Options} {answer : Answer}
    (h : readOperands read o = .error answer) (hops : Nat) : select read hops o = answer := by
  rw [select]
  rcases Except.bind_eq_error_iff.1 h with hs | ⟨s, hs, h⟩
  · rw [hs]
    rfl
  · rcases Except.bind_eq_error_iff.1 h with hroot | ⟨root, -, ⟨⟩⟩
    rw [hs, hroot]
    rfl

theorem readOperands_eq_ok_iff {read : Reader} {o : Options} {s : Selector} {root : Node} :
    readOperands read o = .ok (s, root) ↔
      readSelector read o.selector = .ok s ∧ readNode read o.file = .ok root := by
  simp [readOperands, Except.bind_eq_ok_iff, pure, Except.pure]

/-- A command that prints on the way does what `select` does until a line is not taken, and then it
has failed, with the lines of all visits before that one printed. -/
theorem selectTo_eq (write : Sink ω) (out : ω) {read : Reader} {o : Options} {s : Selector}
    {root : Node} (h : readOperands read o = .ok (s, root)) (hops : Nat) :
    let visits := ((Walker.new (o.config read)).walk hops root s .onlooker ()).1.visits
    match (o.printing write).feed out visits with
    | .ok (_, out') => selectTo write out read hops o = ((select read hops o).status, [], out')
    | .error (accepted, e) => ∃ out',
      (o.printing write).feed out (visits.take accepted) = .ok (accepted, out') ∧
        selectTo write out read hops o = (.failed (.walk e), [], out') := by
  obtain ⟨hs, hroot⟩ := readOperands_eq_ok_iff.1 h
  intro visits
  rw [select_eq hs hroot, selectTo, h]
  cases hfeed : (o.printing write).feed out visits with
  | ok fed =>
    simp only [Walker.walk, Walker.walkPruned_accepted Visitor.alwaysSucceeds_onlooker
      (o.printing write) out (Walker.new (o.config read)) Selector.picks? hops root s () hfeed]
  | error failed =>
    obtain ⟨accepted, e⟩ := failed
    obtain ⟨_, _, he⟩ := Visitor.exists_of_feed_eq_error hfeed
    obtain ⟨cause, rfl⟩ := exists_of_printing_eq_error he
    obtain ⟨hended, before, v, hlength, -, ⟨rest, hevents⟩, hprinted⟩ :=
      Walker.walkPruned_interrupted Visitor.alwaysSucceeds_onlooker (o.printing write) out
        (Walker.new (o.config read)) Selector.picks? hops root s () hfeed
    have hvisits : visits = before.filterMap Event.visit? ++
        ([Event.visit v] ++ rest).filterMap Event.visit? := by
      rw [← List.filterMap_append, ← List.append_assoc, hevents]
      rfl
    rw [← List.take_left' hlength, ← hvisits] at hprinted
    refine ⟨_, hprinted, ?_⟩
    simp only [Walker.walk, hended]
    rfl

/-- A command all of whose output is taken answers as `select` does. -/
theorem selectTo_append (read : Reader) (hops : Nat) (o : Options) :
    selectTo Sink.appending "" read hops o =
      ((select read hops o).status, (select read hops o).complaints,
        (select read hops o).output) := by
  cases h : readOperands read o with
  | error answer =>
    rw [select_eq_of_error h, selectTo, h, output_of_readOperands h]
  | ok operands =>
    obtain ⟨s, root⟩ := operands
    obtain ⟨hs, hroot⟩ := readOperands_eq_ok_iff.1 h
    have hprinted := selectTo_eq Sink.appending "" h hops
    simp only [feed_printing_appending, String.empty_append] at hprinted
    rw [hprinted, select_eq hs hroot]

end DagSelect.Command
