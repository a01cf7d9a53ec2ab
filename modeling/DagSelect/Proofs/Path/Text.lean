import DagSelect.Proofs.Walk.Alike
import Mathlib.Tactic.SplitIfs

/-!
# The text of a path

Texts are cut at slashes and empty pieces are dropped, so what can be read back from the text of a
path is what has neither: a path reads back, segment by segment, exactly when none of its segments
is empty or contains a slash (`Path.texts_ofText_text_iff`). What is read from a text is always such
a path, whose segments are keys, and so it is its own text read (`Path.ofText_text_ofText`).
-/

namespace DagSelect

def IsPiece (text : String) : Prop := text ≠ "" ∧ '/' ∉ text.toList

namespace Path

/-! ## Pieces -/

theorem pieces_eq_splitOn (text : List Char) : pieces text = text.splitOn '/' := by
  induction text with
  | nil => rfl
  | cons c rest ih =>
    rw [List.splitOn_cons_eq_if_modifyHead, pieces, ih]
    by_cases hc : c = '/'
    · rw [if_pos hc, if_pos (by simpa using hc)]
    · rw [if_neg hc, if_neg (by simpa using hc)]
      obtain ⟨first, more, hsplit⟩ := List.exists_cons_of_ne_nil (List.splitOn_ne_nil '/' rest)
      rw [hsplit]
      rfl

theorem slash_notMem_of_mem_pieces {text piece : List Char} (h : piece ∈ pieces text) :
    '/' ∉ piece := by
  rw [pieces_eq_splitOn] at h
  induction text generalizing piece with
  | nil =>
    rw [List.mem_singleton.1 h]
    exact List.not_mem_nil
  | cons c rest ih =>
    rw [List.splitOn_cons_eq_if_modifyHead] at h
    split_ifs at h with hc
    · rcases List.mem_cons.1 h with rfl | h
      · exact List.not_mem_nil
      · exact ih h
    · obtain ⟨first, more, hsplit⟩ := List.exists_cons_of_ne_nil (List.splitOn_ne_nil '/' rest)
      rw [hsplit] at h ih
      rcases List.mem_cons.1 h with rfl | h
      · have hfirst := ih List.mem_cons_self
        simp only [List.mem_cons, not_or]
        exact ⟨fun heq => hc (beq_iff_eq.2 heq.symm), hfirst⟩
      · exact ih (List.mem_cons_of_mem first h)

/-- Pieces that are joined by slashes are found again. -/
theorem pieces_intercalate {texts : List String} (h : ∀ t ∈ texts, IsPiece t) (hne : texts ≠ []) :
    pieces ("/".intercalate texts).toList = texts.map String.toList := by
  rw [pieces_eq_splitOn, String.toList_intercalate]
  apply List.splitOn_intercalate
  · intro piece hpiece
    obtain ⟨t, ht, rfl⟩ := List.mem_map.1 hpiece
    exact (h t ht).2
  · simpa using hne

/-! ## Reading back -/

def asKeys (p : Path) : Path := ⟨p.segments.map fun s => .key s.text⟩

theorem texts_asKeys (p : Path) : p.asKeys.texts = p.texts := by
  simp [asKeys, texts]

theorem asKeys_ofText (text : String) : (ofText text).asKeys = ofText text := by
  simp [asKeys, ofText]

def Readable (p : Path) : Prop := ∀ s ∈ p.segments, IsPiece s.text

theorem readable_iff {p : Path} : p.Readable ↔ ∀ t ∈ p.texts, IsPiece t := by
  simp [Readable, texts]

theorem readable_ofText (text : String) : (ofText text).Readable := by
  intro s hs
  obtain ⟨piece, hpiece, rfl⟩ := List.mem_map.1 hs
  obtain ⟨hmem, hne⟩ := List.mem_filter.1 hpiece
  refine ⟨?_, ?_⟩
  · simpa using hne
  · rw [Segment.text_key, String.toList_ofList]
    exact slash_notMem_of_mem_pieces hmem

theorem ofText_text {p : Path} (h : p.Readable) : ofText p.text = p.asKeys := by
  by_cases hne : p.texts = []
  · obtain rfl : p = root := by
      obtain ⟨segments⟩ := p
      obtain rfl : segments = [] := List.map_eq_nil_iff.1 hne
      rfl
    rfl
  · have hpieces : pieces p.text.toList = p.texts.map String.toList :=
      pieces_intercalate (readable_iff.1 h) hne
    have hkept : (p.texts.map String.toList).filter (!·.isEmpty) = p.texts.map String.toList := by
      refine List.filter_eq_self.2 fun piece hpiece => ?_
      obtain ⟨t, ht, rfl⟩ := List.mem_map.1 hpiece
      simpa using (readable_iff.1 h t ht).1
    rw [ofText, hpieces, hkept]
    simp [asKeys, texts]

theorem texts_ofText_text_iff (p : Path) :
    (ofText p.text).texts = p.texts ↔ ∀ s ∈ p.segments, s.text ≠ "" ∧ '/' ∉ s.text.toList := by
  constructor
  · intro h
    have hread := readable_iff.1 (readable_ofText p.text)
    rw [h] at hread
    exact readable_iff.2 hread
  · intro h
    rw [ofText_text h, texts_asKeys]

theorem ofText_text_ofText (text : String) : ofText (ofText text).text = ofText text := by
  rw [ofText_text (readable_ofText text), asKeys_ofText]

end Path

end DagSelect
