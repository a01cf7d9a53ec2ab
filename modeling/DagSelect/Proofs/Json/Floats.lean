import DagSelect.Proofs.Binary64.Text
import DagSelect.Proofs.Json.Numeral
import DagSelect.Proofs.Json.Tokens

/-!
# Doubles in the text of a value

A double that is finite and not below ten to the sixteenth is written with a plus sign, which breaks
the scanner off; every other one is a token. So a value has its tokens in its compact text, or the
text is not scanned at all because of one such double in it (`breaks_compact`).
-/

namespace DagSelect

namespace Binary64

def IsLarge (x : Binary64) : Prop := x.isFinite = true ∧ 10 ^ 16 ≤ x.value

def IsModerate (x : Binary64) : Prop := x.isFinite = true ∧ x.value < 10 ^ 16

instance (x : Binary64) : Decidable x.IsModerate := inferInstanceAs (Decidable (_ ∧ _))

theorem isModerate_iff {x : Binary64} : x.IsModerate ↔ x.isFinite = true ∧ ¬ x.IsLarge :=
  ⟨fun h => ⟨h.1, fun hlarge => not_le.2 h.2 hlarge.2⟩,
    fun h => ⟨h.1, not_le.1 fun hle => h.2 ⟨h.1, hle⟩⟩⟩

end Binary64

theorem Numeral.newline_notMem_text (n : Numeral) : '\n' ∉ n.text := by
  have hdigit {c : Char} (hc : c.isDigit = true) : c ≠ '\n' := Text.ne_of_isDigit hc rfl
  rw [text, List.mem_append, not_or]
  constructor
  · intro h
    rcases n.mem_mantissa h with h | h
    · exact hdigit h rfl
    · cases h
  · rw [exponentText]
    cases n.exponent with
    | none => exact List.not_mem_nil
    | some e =>
      have hdigits := List.all_eq_true.1 (Text.all_isDigit_toDigits e.natAbs)
      have hnone : '\n' ∉ Nat.toDigits 10 e.natAbs := fun h => hdigit (hdigits _ h) rfl
      by_cases hneg : e < 0
      · simp [hneg, hnone]
      · simp [hneg, hnone]

namespace Json

namespace Value

theorem newline_notMem_floatText (x : Binary64) : '\n' ∉ floatText x := by
  rw [floatText]
  split_ifs with hfinite
  · obtain ⟨n, htext, -⟩ := Binary64.exists_numeral hfinite
    rw [htext, List.mem_append, not_or]
    exact ⟨by cases x.isNegative <;> decide, n.newline_notMem_text⟩
  · decide

theorem scans_floatText {x : Binary64} (h : ¬ x.IsLarge) :
    Scans .lenient (floatText x) [.atom (floatAtom x)] := by
  rw [floatText, floatAtom]
  split_ifs with hfinite
  · obtain ⟨n, htext, -, -, hlarge⟩ := Binary64.exists_numeral hfinite
    rw [htext]
    apply scans_numeral
    intro e he
    by_contra hnonneg
    exact h ⟨hfinite, hlarge.2 ⟨e, not_lt.1 hnonneg, he⟩⟩
  · exact scans_null

theorem breaks_floatText {x : Binary64} (h : x.IsLarge) : Breaks .lenient (floatText x) := by
  obtain ⟨n, htext, -, -, hlarge⟩ := Binary64.exists_numeral h.1
  obtain ⟨e, he, hexponent⟩ := hlarge.1 h.2
  rw [floatText, if_pos h.1, htext]
  exact breaks_numeral he hexponent _

/-! ## What follows a text -/

/-- What follows a text is only put behind it. -/
def Prepends (text : List Char → List Char) : Prop := ∀ rest, text rest = text [] ++ rest

theorem prepends_append (a : List Char) : Prepends (a ++ ·) := by
  intro rest
  exact (congrArg (· ++ rest) (List.append_nil a)).symm

theorem prepends_cons (c : Char) : Prepends (c :: ·) := prepends_append [c]

theorem Prepends.comp {f g : List Char → List Char} (hf : Prepends f) (hg : Prepends g) :
    Prepends fun rest => f (g rest) := by
  intro rest
  change f (g rest) = f (g []) ++ rest
  rw [hf (g rest), hf (g []), hg rest, List.append_assoc]

theorem prepends_separate {α : Type} {text : α → List Char → List Char} {parts : List α}
    (h : ∀ x ∈ parts, Prepends (text x)) : Prepends (separate (parts.map text)) := by
  induction parts with
  | nil => exact fun _ => rfl
  | cons x more ih =>
    have hx := h x (by simp)
    have hmore := ih fun y hy => h y (List.mem_cons_of_mem x hy)
    cases more with
    | nil => exact hx
    | cons y more => exact hx.comp ((prepends_cons ',').comp hmore)

theorem prepends_compactEntry {e : String × Value} (h : Prepends e.2.compact) :
    Prepends (compactEntry e) :=
  (prepends_append (writeLiteral e.1.toList)).comp ((prepends_cons ':').comp h)

theorem prepends_compact (v : Value) : Prepends v.compact := by
  induction v with
  | null => exact prepends_append nullText
  | bool b => exact prepends_append (boolText b)
  | int i => exact prepends_append (Text.ofInt i)
  | float x => exact prepends_append (floatText x)
  | string s => exact prepends_append (writeLiteral s.toList)
  | array items ih =>
    have hitems : Prepends (compactItems items) := by
      rw [compactItems_eq]
      exact prepends_separate ih
    exact (prepends_cons '[').comp (hitems.comp (prepends_cons ']'))
  | object entries ih =>
    have hentries : Prepends (compactEntries entries) := by
      rw [compactEntries_eq]
      exact prepends_separate fun e he => prepends_compactEntry (ih e he)
    exact (prepends_cons '\x7b').comp (hentries.comp (prepends_cons '\x7d'))

/-! ## Breaking off -/

/-- Where every part scans or breaks off and one of them does break off, so do all together. -/
theorem breaks_separate {α : Type} {text : α → List Char → List Char} {parts : List α}
    (happend : ∀ x ∈ parts, Prepends (text x))
    (hparts : ∀ x ∈ parts, Breaks .lenient (text x []) ∨ ∃ ts, Scans .lenient (text x []) ts)
    (hbreaks : ∃ x ∈ parts, Breaks .lenient (text x [])) (rest : List Char) :
    Breaks .lenient (separate (parts.map text) rest) := by
  induction parts with
  | nil =>
    obtain ⟨x, hx, -⟩ := hbreaks
    cases hx
  | cons x more ih =>
    have hx := happend x (by simp)
    have hfirst (h : Breaks .lenient (text x [])) (rest : List Char) :
        Breaks .lenient (text x rest) := by
      rw [hx rest]
      exact h.append rest
    cases more with
    | nil =>
      obtain ⟨y, hy, hbreak⟩ := hbreaks
      obtain rfl := List.mem_singleton.1 hy
      exact hfirst hbreak rest
    | cons y more =>
      obtain ⟨z, hz, hbreak⟩ := hbreaks
      rcases List.mem_cons.1 hz with rfl | hz
      · exact hfirst hbreak _
      rcases hparts x (by simp) with hbreak | ⟨ts, hscan⟩
      · exact hfirst hbreak _
      · have hmore := ih (fun w hw => happend w (List.mem_cons_of_mem x hw))
          (fun w hw => hparts w (List.mem_cons_of_mem x hw)) ⟨z, hz, hbreak⟩
        change Breaks .lenient (text x (',' :: separate ((y :: more).map text) rest))
        rw [hx]
        exact hscan.append_breaks hmore .comma

/-- Parts without a large double scan, and those with one break off. So all together break off if
there is a large double in any of them. -/
theorem breaks_separate_of_large {α : Type} (text : α → List Char → List Char) (value : α → Value)
    {parts : List α} (happend : ∀ x ∈ parts, Prepends (text x))
    (hscans : ∀ x ∈ parts, ((value x).EveryFloat fun y => ¬ y.IsLarge) →
      ∃ ts, Scans .lenient (text x []) ts)
    (hbreaks : ∀ x ∈ parts, ¬ ((value x).EveryFloat fun y => ¬ y.IsLarge) →
      Breaks .lenient (text x []))
    (h : ¬ ∀ x ∈ parts, (value x).EveryFloat fun y => ¬ y.IsLarge) (rest : List Char) :
    Breaks .lenient (separate (parts.map text) rest) := by
  push Not at h
  obtain ⟨x, hx, hlarge⟩ := h
  refine breaks_separate happend (fun y hy => ?_) ⟨x, hx, hbreaks x hx hlarge⟩ rest
  by_cases hsmall : (value y).EveryFloat fun z => ¬ z.IsLarge
  · exact .inr (hscans y hy hsmall)
  · exact .inl (hbreaks y hy hsmall)

theorem breaks_compactEntry {e : String × Value} (h : Breaks .lenient (e.2.compact [])) :
    Breaks .lenient (compactEntry e []) :=
  (scans_writeLiteral e.1.toList).append_breaks h .colon

theorem scans_compactEntry {e : String × Value}
    (h : e.2.EveryFloat fun x => Scans .lenient (floatText x) [.atom (floatAtom x)]) :
    ∃ ts, Scans .lenient (compactEntry e []) ts :=
  ⟨_, lays_compactEntry (lays_compact h) Follows.nil⟩

/-- A large double anywhere in a value breaks the scanner off. -/
theorem breaks_compact {v : Value} (h : ¬ v.EveryFloat fun x => ¬ x.IsLarge) :
    Breaks .lenient (v.compact []) := by
  induction v with
  | null => exact absurd .null h
  | bool b => exact absurd .bool h
  | int i => exact absurd .int h
  | float x =>
    have hlarge : x.IsLarge := by
      by_contra hsmall
      exact h (.float hsmall)
    exact (breaks_floatText hlarge).append []
  | string s => exact absurd .string h
  | array items ih =>
    have hinner := breaks_separate_of_large compact id (fun v _ => prepends_compact v)
      (fun v _ hv => ⟨_, scans_compact (hv.mono fun _ => scans_floatText)⟩) ih
      (fun hall => h (.array hall)) [']']
    rw [← compactItems_eq] at hinner
    exact hinner.cons .openBracket
  | object entries ih =>
    have hinner := breaks_separate_of_large compactEntry Prod.snd
      (fun e _ => prepends_compactEntry (prepends_compact e.2))
      (fun e _ he => scans_compactEntry (he.mono fun _ => scans_floatText))
      (fun e he hlarge => breaks_compactEntry (ih e he hlarge)) (fun hall => h (.object hall))
      ['\x7d']
    rw [← compactEntries_eq] at hinner
    exact hinner.cons .openBrace

end Value

end Json

end DagSelect
