import DagSelect.Proofs.Json.Tokens

/-!
# Texts on one line

There is no newline in the compact text of a value. Those of its strings are written as escapes, and
nothing stands between its tokens. Doubles are left to whoever knows about their text, as they are
for the tokens.
-/

namespace DagSelect.Json

theorem newline_notMem_escape (c : Char) : '\n' ∉ escape c := by
  have hplain {x : Char} (hx : 0x20 ≤ x.toNat) : '\n' ≠ x := by
    rintro rfl
    exact absurd hx (by decide)
  rcases escape_cases c with ⟨e, he, -, hmeant⟩ | ⟨a, b, he, -, ha, hb⟩ | ⟨he, -, -, hc⟩
  · have hletter : '\n' ≠ e := by
      rintro rfl
      exact absurd (isEscapable_of_unescape? hmeant) (by decide)
    simp [he, hletter]
  · simp [he, hplain (plain_of_hexDigit? ha).2.2, hplain (plain_of_hexDigit? hb).2.2]
  · simp [he, hplain hc]

theorem newline_notMem_writeLiteral (text : List Char) : '\n' ∉ writeLiteral text := by
  simp [writeLiteral, newline_notMem_escape]

theorem newline_notMem_ofInt (i : Int) : '\n' ∉ Text.ofInt i := by
  intro h
  rcases Text.mem_ofInt h with h | h
  · cases h
  · cases h

namespace Value

/-- A text, written in front of what may follow it, that adds no newline. -/
def OneLine (text : List Char → List Char) : Prop := ∀ rest, '\n' ∉ rest → '\n' ∉ text rest

theorem oneLine_of_notMem {text : List Char} (h : '\n' ∉ text) : OneLine (text ++ ·) := by
  intro rest hrest
  rw [List.mem_append, not_or]
  exact ⟨h, hrest⟩

theorem OneLine.cons {text : List Char → List Char} (h : OneLine text) {c : Char} (hc : '\n' ≠ c) :
    OneLine fun rest => c :: text rest := by
  intro rest hrest
  rw [List.mem_cons, not_or]
  exact ⟨hc, h rest hrest⟩

theorem oneLine_separate {texts : List (List Char → List Char)} (h : ∀ t ∈ texts, OneLine t) :
    OneLine (separate texts) := by
  induction texts with
  | nil => exact fun _ hrest => hrest
  | cons t more ih =>
    have hmore := ih fun u hu => h u (List.mem_cons_of_mem t hu)
    cases more with
    | nil => exact h t List.mem_cons_self
    | cons u more =>
      exact fun rest hrest => h t List.mem_cons_self _ (hmore.cons (by decide) rest hrest)

theorem OneLine.between {text : List Char → List Char} (h : OneLine text)
    (opening closing : Symbol) :
    OneLine fun rest => opening.char :: text (closing.char :: rest) := by
  have hsymbol (s : Symbol) : '\n' ≠ s.char := by cases s <;> decide
  have hclosing : OneLine fun rest => text (closing.char :: rest) := fun rest hrest =>
    h _ (by simp [hsymbol closing, hrest])
  exact hclosing.cons (hsymbol opening)

theorem oneLine_compact {v : Value} (h : v.EveryFloat fun x => '\n' ∉ floatText x) :
    OneLine v.compact := by
  induction h with
  | null => exact oneLine_of_notMem (by decide)
  | @bool b => exact oneLine_of_notMem (by cases b <;> decide)
  | @int i => exact oneLine_of_notMem (newline_notMem_ofInt i)
  | float hx => exact oneLine_of_notMem hx
  | @string s => exact oneLine_of_notMem (newline_notMem_writeLiteral s.toList)
  | @array items _ ih =>
    have hitems : OneLine (compactItems items) := by
      rw [compactItems_eq]
      refine oneLine_separate fun t ht => ?_
      obtain ⟨v, hv, rfl⟩ := List.mem_map.1 ht
      exact ih v hv
    exact hitems.between .openBracket .closeBracket
  | @object entries _ ih =>
    have hentries : OneLine (compactEntries entries) := by
      rw [compactEntries_eq]
      refine oneLine_separate fun t ht => ?_
      obtain ⟨e, he, rfl⟩ := List.mem_map.1 ht
      intro rest hrest
      have hvalue := (ih e he).cons (c := ':') (by decide) rest hrest
      exact oneLine_of_notMem (newline_notMem_writeLiteral e.1.toList) _ hvalue
    exact hentries.between .openBrace .closeBrace

end Value

end DagSelect.Json
