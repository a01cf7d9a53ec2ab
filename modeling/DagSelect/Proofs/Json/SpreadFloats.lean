import DagSelect.Proofs.Json.Floats
import DagSelect.Proofs.Json.Spread

/-!
# Large doubles in the spread text

Blanks and newlines in front of a text that breaks the scanner off change nothing about that. So the
spread text of a value breaks off wherever the compact one does, for a large double in it
(`breaks_spread`); where the compact text has the tokens of the value, the spread one has them too.
-/

namespace DagSelect.Json

open Scanner

variable {text : List Char}

theorem Breaks.blank {c : Char} (hc : c = ' ' ∨ c = '\n') (h : Breaks .lenient text) :
    Breaks .lenient (c :: text) := by
  intro s before hs
  obtain ⟨r, hr, hbetween⟩ := hs.begin?_blank hc
  rw [run?_cons, hs.step? (delimits_blank hc).1, hr]
  exact h hbetween

theorem Breaks.blanks {blanks : List Char} (hblanks : ∀ c ∈ blanks, c = ' ' ∨ c = '\n')
    (h : Breaks .lenient text) : Breaks .lenient (blanks ++ text) := by
  induction blanks with
  | nil => exact h
  | cons c blanks ih =>
    exact (ih fun x hx => hblanks x (List.mem_cons_of_mem c hx)).blank
      (hblanks c List.mem_cons_self)

namespace Value

theorem breaks_newline (depth : Nat) (h : Breaks .lenient text) :
    Breaks .lenient (newline depth ++ text) := by
  refine Breaks.blanks (fun c hc => ?_) h
  rcases List.mem_cons.1 hc with rfl | hc
  · exact .inr rfl
  · exact .inl (List.eq_of_mem_replicate hc)

/-! ## What follows a text -/

theorem prepends_spreadItem {depth : Nat} {v : Value} (h : Prepends (v.spread depth)) :
    Prepends (spreadItem depth v) :=
  (prepends_append (newline depth)).comp h

theorem prepends_spreadEntry {depth : Nat} {e : String × Value} (h : Prepends (e.2.spread depth)) :
    Prepends (spreadEntry depth e) :=
  (prepends_append (newline depth)).comp ((prepends_append (writeLiteral e.1.toList)).comp
    ((prepends_cons ':').comp ((prepends_cons ' ').comp h)))

theorem prepends_spread (v : Value) (depth : Nat) : Prepends (v.spread depth) := by
  induction v generalizing depth with
  | null => exact prepends_append nullText
  | bool b => exact prepends_append (boolText b)
  | int i => exact prepends_append (Text.ofInt i)
  | float x => exact prepends_append (floatText x)
  | string s => exact prepends_append (writeLiteral s.toList)
  | array items ih =>
    cases items with
    | nil => exact (prepends_cons '[').comp (prepends_cons ']')
    | cons v more =>
      have hitems : Prepends (spreadItems (depth + 1) (v :: more)) := by
        rw [spreadItems_eq]
        exact prepends_separate fun w hw => prepends_spreadItem (ih w hw (depth + 1))
      exact (prepends_cons '[').comp (hitems.comp
        ((prepends_append (newline depth)).comp (prepends_cons ']')))
  | object entries ih =>
    cases entries with
    | nil => exact (prepends_cons '\x7b').comp (prepends_cons '\x7d')
    | cons e more =>
      have hentries : Prepends (spreadEntries (depth + 1) (e :: more)) := by
        rw [spreadEntries_eq]
        exact prepends_separate fun f hf => prepends_spreadEntry (ih f hf (depth + 1))
      exact (prepends_cons '\x7b').comp (hentries.comp
        ((prepends_append (newline depth)).comp (prepends_cons '\x7d')))

/-! ## Breaking off -/

theorem breaks_spreadEntry {depth : Nat} {e : String × Value}
    (h : Breaks .lenient (e.2.spread depth [])) : Breaks .lenient (spreadEntry depth e []) :=
  breaks_newline depth
    ((scans_writeLiteral e.1.toList).append_breaks (h.blank (.inl rfl)) .colon)

/-- A large double anywhere in a value breaks the scanner off in the spread text as well. -/
theorem breaks_spread {v : Value} (h : ¬ v.EveryFloat fun x => ¬ x.IsLarge) (depth : Nat) :
    Breaks .lenient (v.spread depth []) := by
  induction v generalizing depth with
  | null => exact absurd .null h
  | bool b => exact absurd .bool h
  | int i => exact absurd .int h
  | float x => exact breaks_compact h
  | string s => exact absurd .string h
  | array items ih =>
    cases items with
    | nil => exact absurd (.array fun _ hv => nomatch hv) h
    | cons v more =>
      have hinner := breaks_separate_of_large (spreadItem (depth + 1)) id
        (fun w _ => prepends_spreadItem (prepends_spread w (depth + 1)))
        (fun w _ hw => ⟨_, (lays_newline (depth + 1)
          (lays_spread (hw.mono fun _ => scans_floatText) (depth + 1))).scans⟩)
        (fun w hw hlarge => breaks_newline (depth + 1) (ih w hw hlarge (depth + 1)))
        (fun hall => h (.array hall)) (newline depth ++ [']'])
      rw [← spreadItems_eq] at hinner
      exact hinner.cons .openBracket
  | object entries ih =>
    cases entries with
    | nil => exact absurd (.object fun _ he => nomatch he) h
    | cons e more =>
      have hinner := breaks_separate_of_large (spreadEntry (depth + 1)) Prod.snd
        (fun f _ => prepends_spreadEntry (prepends_spread f.2 (depth + 1)))
        (fun f _ hf => ⟨_, (lays_spreadEntry
          (lays_spread (hf.mono fun _ => scans_floatText) (depth + 1))).scans⟩)
        (fun f hf hlarge => breaks_spreadEntry (ih f hf hlarge (depth + 1)))
        (fun hall => h (.object hall)) (newline depth ++ ['\x7d'])
      rw [← spreadEntries_eq] at hinner
      exact hinner.cons .openBrace

end Value

end DagSelect.Json
