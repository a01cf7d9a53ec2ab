import DagSelect.Selector.Expr
import DagSelect.Proofs.Selector.RoundTrip
import DagSelect.Proofs.Walk.Pruning

/-!
# Selectors that follow a path

The expression for a path compiles to a chain of fields, one for each segment, and at every
container on the way the selector explores at most one child. Which one, it says by the text of a
segment; a search for the path looks the child up by the segment itself. The two ways of naming a
child agree on all segments that are written as the integers they are read as (`Segment.Decimal`),
whatever the container is and however often it repeats a key (`explored_along`).
-/

namespace DagSelect

/-! ## Segments and their texts -/

namespace Segment

/-- If the segment is read as an index, then as one of 64 bits whose decimal text it has. -/
def Decimal (s : Segment) : Prop :=
  ∀ i, s.index? = some i → ∃ j : Int64, i = j.toInt ∧ s.text = String.ofList (Text.ofInt i)

theorem Decimal.fits {s : Segment} (hs : s.Decimal) : s.Fits := by
  cases s with
  | key k => trivial
  | index i =>
    obtain ⟨j, hj, -⟩ := hs i rfl
    exact ⟨j, hj⟩

end Segment

namespace Node

variable {n : Node} {s : Segment}

/-- The child that a segment addresses has a segment with the same text. -/
theorem text_of_position?_of_decimal (hs : s.Decimal) {i : Nat} (hi : n.position? s = some i)
    {e : Segment × Node} (he : n.children[i]? = some e) : e.1.text = s.text := by
  obtain ⟨t, c⟩ := e
  cases n with
  | map entries =>
    obtain ⟨f, hf, rfl⟩ := getElem?_children_map he
    exact (text_of_position? hf hi).symm
  | list items =>
    obtain ⟨rfl, -⟩ := getElem?_children_list he
    obtain ⟨-, -, htext⟩ := hs i (position?_list_eq_some_iff.1 hi).1
    exact htext.symm
  | _ => simp [children] at he

theorem children_eq_singleton {e : Segment × Node} (he : e ∈ n.children) (hfew : n.length ≤ 1) :
    n.children = [e] := by
  rw [← n.length_children] at hfew
  obtain ⟨f, hf⟩ := List.length_eq_one_iff.1 (Nat.le_antisymm hfew (List.length_pos_of_mem he))
  rw [hf, List.mem_singleton] at he
  rw [hf, he]

/-- An only child is addressed by every segment with the text of its own. -/
theorem position?_of_children_eq_singleton (hs : s.Decimal) {e : Segment × Node}
    (he : n.children = [e]) (htext : e.1.text = s.text) : n.position? s = some 0 := by
  have hfirst : n.children[0]? = some e := by rw [he]; rfl
  obtain ⟨t, c⟩ := e
  cases n with
  | map entries =>
    obtain ⟨f, hf, rfl⟩ := getElem?_children_map hfirst
    obtain ⟨hlt, rfl⟩ := List.getElem?_eq_some_iff.1 hf
    rw [position?, List.findIdx?_eq_some_iff_getElem]
    exact ⟨hlt, by simpa using htext, fun j hj => absurd hj (Nat.not_lt_zero j)⟩
  | list items =>
    obtain ⟨rfl, hlt⟩ := getElem?_children_list hfirst
    have hindex : (Segment.key s.text).index? = some 0 := by
      rw [← htext]
      exact Segment.index?_key_ofInt (by decide) (by decide)
    exact position?_list_eq_some_iff.2 ⟨hs.fits.index?_key_text ▸ hindex, hlt⟩
  | _ => simp [children] at he

end Node

/-! ## The selector for a path -/

namespace Selector

/-- Follows segments one field at a time; matches the last node, and those on the way if so
asked. -/
def along (matchPath : Bool) : List Segment → Selector
  | [] => .matcher
  | s :: rest =>
    let step : Selector := .fields [(s.text, along matchPath rest)]
    if matchPath then .union [.matcher, step] else step

variable {matchPath : Bool} {s : Segment} {rest : List Segment}

theorem wellFormed_along (segments : List Segment) : (along matchPath segments).WellFormed := by
  induction segments with
  | nil => exact .matcher
  | cons s rest ih =>
    have hstep : (Selector.fields [(s.text, along matchPath rest)]).WellFormed := by
      refine .fields (by simp) fun e he => ?_
      rw [List.mem_singleton.1 he]
      exact ih
    cases matchPath with
    | false => exact hstep
    | true =>
      refine .union (List.cons_ne_nil _ _) fun m hm => ?_
      rcases List.mem_cons.1 hm with rfl | hm
      · exact .matcher
      · rw [List.mem_singleton.1 hm]
        exact hstep

theorem toNode_along (segments : List Segment) :
    (Expr.alongSegments matchPath .matcher segments).toNode =
      (along matchPath segments).toNode := by
  induction segments with
  | nil => rfl
  | cons s rest ih =>
    cases matchPath <;>
      simp [Expr.alongSegments, along, Expr.toNode, toNode, ih]

theorem compile_ofPath (p : Path) (matchPath : Bool) :
    (Expr.ofPath p matchPath none).compile = .ok (along matchPath p.segments) := by
  rw [Expr.compile, Expr.ofPath, Option.getD_none, toNode_along]
  exact compile_toNode (wellFormed_along p.segments)

theorem isMatch_along (segments : List Segment) :
    (along matchPath segments).isMatch = (matchPath || segments.isEmpty) := by
  cases segments with
  | nil => simp [along, isMatch]
  | cons s rest => cases matchPath <;> simp [along, isMatch]

theorem explore?_along (n : Node) (t : Segment) :
    (along matchPath (s :: rest)).explore? n t =
      if t.text = s.text then some (along matchPath rest) else none := by
  have hlookup : [(s.text, along matchPath rest)].lookup t.text =
      if t.text = s.text then some (along matchPath rest) else none := by
    rw [List.lookup_cons, List.lookup_nil]
    by_cases h : t.text = s.text
    · simp [h]
    · rw [if_neg h, beq_eq_false_iff_ne.2 h]
  cases matchPath with
  | false => exact hlookup
  | true =>
    simp only [along, if_true, explore?, exploreIn, Option.toList_none, List.nil_append,
      List.append_nil, hlookup]
    split <;> rfl

theorem picks?_along (n : Node) :
    (along matchPath (s :: rest)).picks? n =
      if 1 < n.length then some (n.position? (.key s.text)).toList else none := by
  have hinterests : (along matchPath (s :: rest)).interests? n.length = some [.key s.text] := by
    cases matchPath <;> rfl
  rw [picks?, hinterests]
  cases h : n.position? (.key s.text) <;> simp [h]

end Selector

theorem keepPicked_singleton {α : Type} (i : Nat) (xs : List α) :
    keepPicked (some [i]) xs = xs[i]?.toList := by
  have hfrom (start : Nat) (hstart : start ≤ i) :
      (((xs.zipIdx start).filter fun e => isPicked (some [i]) e.2).map Prod.fst) =
        xs[i - start]?.toList := by
    induction xs generalizing start with
    | nil => rfl
    | cons x xs ih =>
      rw [List.zipIdx_cons]
      rcases Nat.eq_or_lt_of_le hstart with rfl | hlt
      · have hrest : ((xs.zipIdx (start + 1)).filter fun e => isPicked (some [start]) e.2) =
            [] := by
          rw [List.filter_eq_nil_iff]
          rintro ⟨y, j⟩ hy
          have hj := (List.mem_zipIdx hy).1
          simp [isPicked]
          omega
        rw [List.filter_cons_of_pos (by simp [isPicked]), hrest]
        simp
      · rw [List.filter_cons_of_neg (by simp [isPicked]; omega), ih (start + 1) hlt]
        have hshift : i - start = i - (start + 1) + 1 := by omega
        rw [hshift, List.getElem?_cons_succ]
  rw [keepPicked_eq_filter]
  exact hfrom 0 (Nat.zero_le i)

namespace Selector

theorem explored_along_nil (matchPath : Bool) (n : Node) :
    Pruning.explored picks? (along matchPath []) n = [] :=
  List.filter_eq_nil_iff.2 fun e _ => by simp [along, explore?]

/-- The one child that is explored is the one that the segment addresses. -/
theorem explored_along {s : Segment} (hs : s.Decimal) (matchPath : Bool) (rest : List Segment)
    (n : Node) :
    (n.get? s = none ∧ Pruning.explored picks? (along matchPath (s :: rest)) n = []) ∨
      ∃ e, n.get? s = some e.2 ∧ e.1.text = s.text ∧
        Pruning.explored picks? (along matchPath (s :: rest)) n = [e] := by
  have hexplored (e : Segment × Node) :
      ((along matchPath (s :: rest)).explore? n e.1).isSome = decide (e.1.text = s.text) := by
    rw [explore?_along]
    split <;> simp [*]
  simp only [Pruning.explored, hexplored, picks?_along, Node.position?_key_text_of_fits hs.fits]
  cases hi : n.position? s with
  | none =>
    refine .inl ⟨by simp [Node.get?, Node.find?, hi], ?_⟩
    by_cases hmany : 1 < n.length
    · rw [if_pos hmany]
      simp [keepPicked]
    · rw [if_neg hmany, keepPicked, List.filter_eq_nil_iff]
      intro e he htext
      have honly := Node.children_eq_singleton he (Nat.le_of_not_lt hmany)
      rw [Node.position?_of_children_eq_singleton hs honly (of_decide_eq_true htext)] at hi
      cases hi
  | some i =>
    have hlt : i < n.children.length := by
      rw [n.length_children]
      exact Node.position?_lt hi
    obtain ⟨e, he⟩ : ∃ e, n.children[i]? = some e := ⟨_, List.getElem?_eq_getElem hlt⟩
    have htext := Node.text_of_position?_of_decimal hs hi he
    refine .inr ⟨e, by simp [Node.get?, Node.find?, Node.child?, hi, he], htext, ?_⟩
    by_cases hmany : 1 < n.length
    · rw [if_pos hmany, Option.toList_some, keepPicked_singleton, he]
      simp [htext]
    · have honly := Node.children_eq_singleton (List.mem_of_getElem? he) (Nat.le_of_not_lt hmany)
      rw [if_neg hmany, keepPicked, honly]
      simp [htext]

end Selector

end DagSelect
