import DagSelect.Proofs.Binary64.Numeral
import DagSelect.Proofs.Json.Scan

/-!
# Scanning written numbers

A numeral is one token unless there is a plus sign in its exponent. The lenient grammar has no such
sign, so there the scanner breaks off.
-/

namespace DagSelect.Json

namespace Scanner

variable {s : Scanner} {text : List Char} {ts : List Token}

theorem next?_ofDigit_point (c : Char) :
    (NumberPart.ofDigit c).next? .lenient '.' = some .point := by
  rw [NumberPart.ofDigit]
  split <;> rfl

theorem next?_ofDigit_mark (c : Char) : (NumberPart.ofDigit c).next? .lenient 'e' = some .mark := by
  rw [NumberPart.ofDigit]
  split <;> rfl

/-- In front of the exponent the number may be over, or the mark may follow. -/
theorem Starting.run?_mantissa (h : s.Starting .lenient text ts) (n : Numeral) :
    ∃ part r, s.run? .lenient (n.first :: n.whole ++ n.fractionText) = some r ∧
      r.Counting part ((n.first :: n.whole ++ n.fractionText).reverse ++ text) ts ∧
      part.isComplete .lenient = true ∧ part.next? .lenient 'e' = some .mark := by
  obtain ⟨r, hr, hwhole⟩ := h.run?_digits n.proper fun c hc =>
    n.isDigit c (List.mem_append_left n.fraction hc)
  have hdigits : ∀ c ∈ n.fraction, c.isDigit = true := fun c hc =>
    n.isDigit c (List.mem_append_right (n.first :: n.whole) hc)
  cases hfraction : n.fraction with
  | nil =>
    have hnone : n.fractionText = [] := if_pos hfraction
    rw [hnone, List.append_nil]
    exact ⟨_, r, hr, hwhole, NumberPart.isComplete_ofDigit n.first, next?_ofDigit_mark n.first⟩
  | cons c rest =>
    have hsome : n.fractionText = '.' :: c :: rest := by
      rw [Numeral.fractionText, hfraction, if_neg (List.cons_ne_nil c rest)]
    rw [hfraction] at hdigits
    have hc : c.isDigit = true := hdigits c (by simp)
    obtain ⟨p, hp, hpoint⟩ :=
      hwhole.step? (d := .lenient) (c := '.') (by decide) (next?_ofDigit_point n.first)
    obtain ⟨f, hf, hfirst⟩ := hpoint.step? (d := .lenient) (ne_nul_of_isDigit hc) (if_pos hc)
    obtain ⟨q, hq, hend⟩ := hfirst.run?_digits (d := .lenient) (fun x hx => if_pos hx)
      fun x hx => hdigits x (List.mem_cons_of_mem c hx)
    refine ⟨.fraction, q, ?_, ?_, rfl, rfl⟩
    · rw [hsome, run?_append, hr, Option.bind_some, run?_cons, hp, Option.bind_some, run?_cons, hf]
      exact hq
    · have htext : (n.first :: n.whole ++ n.fractionText).reverse ++ text =
          rest.reverse ++ (c :: '.' :: ((n.first :: n.whole).reverse ++ text)) := by
        simp [hsome]
      rw [htext]
      exact hend

/-- A negative exponent is read to its end. -/
theorem Counting.run?_exponent {part : NumberPart} (h : s.Counting part text ts)
    (hmark : part.next? .lenient 'e' = some .mark) {n : Numeral} {e : ℤ} (he : e < 0)
    (hexponent : n.exponent = some e) :
    ∃ r, s.run? .lenient n.exponentText = some r ∧
      r.Counting .exponent (n.exponentText.reverse ++ text) ts := by
  obtain ⟨c, rest, hdigits, -⟩ := Text.exists_toDigits_eq e.natAbs
  have hall := List.all_eq_true.1 (Text.all_isDigit_toDigits e.natAbs)
  have htext : n.exponentText = 'e' :: '-' :: c :: rest := by
    simp only [Numeral.exponentText, hexponent, if_pos he, hdigits]
  rw [hdigits] at hall
  have hc : c.isDigit = true := hall c (by simp)
  obtain ⟨m, hm, hmarked⟩ := h.step? (d := .lenient) (c := 'e') (by decide) hmark
  obtain ⟨g, hg, hsigned⟩ := hmarked.step? (d := .lenient) (c := '-') (by decide) rfl
  obtain ⟨f, hf, hfirst⟩ := hsigned.step? (d := .lenient) (ne_nul_of_isDigit hc) (if_pos hc)
  obtain ⟨q, hq, hend⟩ := hfirst.run?_digits (d := .lenient) (fun x hx => if_pos hx)
    fun x hx => hall x (List.mem_cons_of_mem c hx)
  refine ⟨q, ?_, ?_⟩
  · rw [htext, run?_cons, hm, Option.bind_some, run?_cons, hg, Option.bind_some, run?_cons, hf]
    exact hq
  · have hreverse : n.exponentText.reverse ++ text =
        rest.reverse ++ (c :: '-' :: 'e' :: text) := by
      simp [htext]
    rw [hreverse]
    exact hend

/-- A plus sign cannot stand behind the mark. -/
theorem Counting.run?_exponent_plus {part : NumberPart} (h : s.Counting part text ts)
    (hmark : part.next? .lenient 'e' = some .mark) {n : Numeral} {e : ℤ} (he : 0 ≤ e)
    (hexponent : n.exponent = some e) : s.run? .lenient n.exponentText = none := by
  have htext : n.exponentText = 'e' :: '+' :: Nat.toDigits 10 e.natAbs := by
    simp only [Numeral.exponentText, hexponent, if_neg (not_lt.2 he)]
  obtain ⟨m, hm, ⟨start, hmode⟩, -⟩ := h.step? (d := .lenient) (c := 'e') (by decide) hmark
  have hplus : m.step? .lenient '+' = none := by
    rw [Scanner.step?, hmode]
    rfl
  rw [htext, run?_cons, hm, Option.bind_some, run?_cons, hplus]
  rfl

end Scanner

open Scanner

theorem scans_numeral {n : Numeral} (h : ∀ e, n.exponent = some e → e < 0) (negative : Bool) :
    Scans .lenient (Text.signText negative ++ n.text)
      [.atom (.number (Text.signText negative ++ n.text))] := by
  intro s before hs
  obtain ⟨r, hr, hstarting⟩ := hs.run?_sign negative
  obtain ⟨part, q, hq, hmantissa, hcomplete, hmark⟩ := hstarting.run?_mantissa n
  obtain ⟨last, p, hp, hend, hover⟩ : ∃ last p, q.run? .lenient n.exponentText = some p ∧
      p.Counting last (n.exponentText.reverse ++
        ((n.first :: n.whole ++ n.fractionText).reverse ++ Text.signText negative)) before ∧
      last.isComplete .lenient = true := by
    cases hexponent : n.exponent with
    | none =>
      have hnone : n.exponentText = [] := by rw [Numeral.exponentText, hexponent]
      rw [hnone]
      exact ⟨part, q, rfl, hmantissa, hcomplete⟩
    | some e =>
      obtain ⟨p, hp, hend⟩ := hmantissa.run?_exponent hmark (h e hexponent) hexponent
      exact ⟨.exponent, p, hp, hend, rfl⟩
  refine ⟨p, ?_, ?_⟩
  · rw [Numeral.text, run?_append, hr, Option.bind_some, run?_append, hq]
    exact hp
  · have hbehind := hend.behind (d := .lenient) hover
    rwa [← List.append_assoc, ← List.reverse_append, List.reverse_append, List.reverse_reverse,
      Text.reverse_signText] at hbehind

theorem breaks_numeral {n : Numeral} {e : ℤ} (he : 0 ≤ e) (hexponent : n.exponent = some e)
    (negative : Bool) : Breaks .lenient (Text.signText negative ++ n.text) := by
  intro s before hs
  obtain ⟨r, hr, hstarting⟩ := hs.run?_sign negative
  obtain ⟨part, q, hq, hmantissa, -, hmark⟩ := hstarting.run?_mantissa n
  rw [Numeral.text, run?_append, hr, Option.bind_some, run?_append, hq]
  exact hmantissa.run?_exponent_plus hmark he hexponent

end DagSelect.Json
