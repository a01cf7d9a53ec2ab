import DagSelect.Command.Select
import DagSelect.Proofs.Selector.Text
import DagSelect.Proofs.Walk.Steps

/-!
# What commands read

A file gives a node if it can be read and its text denotes that node. This is the same for the data,
for the node of a selector and for the blocks of a directory.
-/

namespace DagSelect

variable {read : Reader} {file : String}

/-! ## Data and selectors -/

namespace Command

theorem readNode_eq_ok_iff {n : Node} :
    readNode read file = .ok n ↔
      ∃ source, read file = .ok source ∧ DagJson.decode source = .ok n := by
  unfold readNode
  cases read file with
  | error cause => simp
  | ok source => cases hn : DagJson.decode source <;> simp [hn]

theorem readSelector_eq_ok_iff {s : Selector} :
    readSelector read file = .ok s ↔
      ∃ source, read file = .ok source ∧ compileText source = .ok s := by
  unfold readSelector readNode compileText
  cases read file with
  | error cause => simp [bind, Except.bind]
  | ok source =>
    cases hn : DagJson.decode source with
    | error e => simp [bind, Except.bind, hn]
    | ok n => cases hs : compile n <;> simp [bind, Except.bind, hn, hs]

/-- The command has ended for want of something to walk. -/
inductive Status.BeforeWalk : Status → Prop
  | refused : BeforeWalk .refused
  | read (file : String) (cause : ReadError) : BeforeWalk (.failed (.read file cause))
  | decode (file : String) : BeforeWalk (.failed (.decode file))

theorem beforeWalk_of_readNode {answer : Answer} (h : readNode read file = .error answer) :
    answer.status.BeforeWalk := by
  unfold readNode at h
  split at h
  · cases h
    exact .read file _
  · split at h
    · cases h
    · cases h
      exact .decode file

theorem beforeWalk_of_readSelector {answer : Answer} (h : readSelector read file = .error answer) :
    answer.status.BeforeWalk := by
  rw [readSelector] at h
  cases hn : readNode read file with
  | error answer' =>
    rw [hn] at h
    cases h
    exact beforeWalk_of_readNode hn
  | ok n =>
    cases hs : compile n with
    | ok s =>
      simp only [hn, bind, Except.bind, hs] at h
      cases h
    | error e =>
      simp only [hn, bind, Except.bind, hs] at h
      cases h
      exact .refused

theorem ne_done_of_readSelector {answer : Answer} (h : readSelector read file = .error answer) :
    answer.status ≠ .done := by
  intro hdone
  have hbefore := beforeWalk_of_readSelector h
  rw [hdone] at hbefore
  cases hbefore

theorem written_of_readNode {n : Node} (h : readNode read file = .ok n) : n.Written := by
  obtain ⟨source, -, hn⟩ := readNode_eq_ok_iff.1 h
  exact DagJson.written_of_decode hn

end Command

/-! ## Blocks -/

theorem BlockDirectory.exists_of_loader {directory : String} {l : Link} {p : Progress}
    {block : Node} (h : loader read directory l p = .ok block) :
    ∃ source, read (fileName directory l) = .ok source ∧ DagJson.decode source = .ok block := by
  unfold loader at h
  split at h
  · split at h
    · cases h
    · cases h
    · next source hsource =>
      split at h
      · next hn =>
        cases h
        exact ⟨source, hsource, hn⟩
      · cases h
  · cases h

namespace Command

/-- What is true of the nodes in all files is true of the blocks that a walk is served. -/
theorem Options.serves_config {P : Node → Prop} (o : Options)
    (h : ∀ file source n, read file = .ok source → DagJson.decode source = .ok n → P n) :
    (o.config read).Serves P := by
  intro loader hloader l p block hblock
  obtain ⟨directory, -, rfl⟩ := Option.map_eq_some_iff.1 hloader
  obtain ⟨source, hsource, hn⟩ := BlockDirectory.exists_of_loader hblock
  exact h _ source block hsource hn

end Command

end DagSelect
