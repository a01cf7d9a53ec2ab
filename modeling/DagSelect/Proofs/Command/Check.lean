import DagSelect.Proofs.Command.Reading

/-!
# What `check` prints

`check` prints the text of the selector that it has read, with a newline behind it. A selector that
was read from a text is read back from its own, so what `check` prints is a selector file again,
with the same selector in it, and `check` prints the same of it.
-/

namespace DagSelect

namespace Command

variable {read : Reader} {file : String}

theorem check_of_readSelector {s : Selector} (h : readSelector read file = .ok s) :
    check read file = ⟨.done, DagJson.encodePretty s.toNode ++ "\n", []⟩ := by
  rw [check, h]
  rfl

/-- What keeps a selector from being read is no success. -/
theorem exists_readSelector_of_done (h : (check read file).status = .done) :
    ∃ s, readSelector read file = .ok s := by
  cases hs : readSelector read file with
  | ok s => exact ⟨s, rfl⟩
  | error answer =>
    rw [check, hs] at h
    exact absurd h (ne_done_of_readSelector hs)

/-! ## Its own output -/

/-- The selectors that are read back from their texts, and what `check` makes of what it has
printed. -/
theorem check_of_own_output :
    (∀ (n : Node) (s : Selector), compile n = .ok s →
      (compileText (DagJson.encode s.toNode) = .ok s ↔ s.NoneReserved) ∧
      (compileText (DagJson.encodePretty s.toNode) = .ok s ↔ s.NoneReserved)) ∧
    ∀ (read : Reader) (file : String), (check read file).status = .done →
      ∃ s, readSelector read file = .ok s ∧
        ∀ (read' : Reader) (file' : String), read' file' = .ok (check read file).output →
          readSelector read' file' = .ok s ∧ check read' file' = check read file := by
  constructor
  · intro n s hcompile
    have hblanks : ∀ c ∈ "".toList, c = ' ' ∨ c = '\n' := by simp
    have htexts (hs : s.NoneReserved) :=
      compileText_append_of_noneReserved (wellFormed_of_compile hcompile) hs hblanks
    simp only [String.append_empty] at htexts
    exact ⟨⟨noneReserved_of_compileText, fun hs => (htexts hs).1⟩,
      noneReserved_of_compileText, fun hs => (htexts hs).2⟩
  · intro read file hdone
    obtain ⟨s, hs⟩ := exists_readSelector_of_done hdone
    refine ⟨s, hs, fun read' file' hread => ?_⟩
    obtain ⟨source, -, hsource⟩ := readSelector_eq_ok_iff.1 hs
    obtain ⟨n, -, hcompile⟩ := compileText_eq_ok_iff.1 hsource
    have hback : compileText (DagJson.encodePretty s.toNode ++ "\n") = .ok s :=
      (compileText_append_of_noneReserved (wellFormed_of_compile hcompile)
        (noneReserved_of_compileText hsource) (by simp)).2
    rw [check_of_readSelector hs] at hread
    have hs' : readSelector read' file' = .ok s := readSelector_eq_ok_iff.2 ⟨_, hread, hback⟩
    exact ⟨hs', by rw [check_of_readSelector hs', check_of_readSelector hs]⟩

/-- The reserved key may select a field besides others. Alone it may not, though the node
compiles. -/
theorem check_of_own_output_reserved :
    let both : Reader := fun _ =>
      .ok "\x7b\"f\": \x7b\"f>\": \x7b\"/\": true, \"\\n\": \x7b\".\": \x7b\x7d\x7d\x7d\x7d\x7d"
    let lone : Selector := .fields [("/", .matcher)]
    (check both "s").status = .done ∧
      check (fun _ => .ok (check both "s").output) "t" = check both "s" ∧
      compile lone.toNode = .ok lone ∧ compileText (DagJson.encode lone.toNode) ≠ .ok lone := by
  intro both lone
  have hdone : (check both "s").status = .done := by decide +kernel
  have hlone : compile lone.toNode = .ok lone := rfl
  obtain ⟨s, -, hagain⟩ := check_of_own_output.2 both "s" hdone
  refine ⟨hdone, (hagain (fun _ => .ok (check both "s").output) "t" rfl).2, hlone, fun htext => ?_⟩
  have hnone : (Selector.fields [("/", .matcher)]).NoneReserved :=
    (check_of_own_output.1 _ lone hlone).1.1 htext
  cases hnone with
  | fields unreserved _ => exact unreserved rfl

end Command

end DagSelect
