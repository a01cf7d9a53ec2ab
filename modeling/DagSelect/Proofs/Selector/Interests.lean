import DagSelect.Proofs.Node.Everywhere
import DagSelect.Proofs.Selector.Step
import DagSelect.Proofs.Text.Decimal

/-!
# Interests are exhaustive

A child that a selector explores is among the children that its interests look up. Segments have
two spellings, a key and an index, so this is said of positions: exploring a segment that stands at
a position gives something only if a listed segment stands at that position too
(`exists_interest_of_explore?`). The lists that pruning works with contain every position that
matters, whatever the selector is made of.

Fields list an index by its text. That leads back to the same position as long as the index has 64
bits (`Segment.Fits`), which is so of every position in a list that is not longer than there are
indices (`Node.ItemsIndexed`).
-/

namespace DagSelect

namespace Segment

/-- The decimal text of an index within the range of 64 bits is read as that index. -/
theorem index?_key_ofInt {i : Int} (lower : Int64.minValue.toInt ≤ i)
    (upper : i ≤ Int64.maxValue.toInt) :
    (Segment.key (String.ofList (Text.ofInt i))).index? = some i := by
  simp only [index?, String.toList_ofList, Text.toInt64_ofInt lower upper]
  simp only [Except.toOption, Option.map_some]
  rw [Int64.toInt_ofInt_of_le lower (Int.lt_of_le_of_lt upper (by decide))]

def Fits : Segment → Prop
  | .key _ => True
  | .index i => ∃ j : Int64, i = j.toInt

/-- A segment that can be written down and its text as a key are the same index. -/
theorem Fits.index?_key_text {s : Segment} (hs : s.Fits) :
    (Segment.key s.text).index? = s.index? := by
  cases s with
  | key k => rfl
  | index i =>
    obtain ⟨j, rfl⟩ := hs
    exact index?_key_ofInt (Int64.le_toInt j) (Int64.toInt_le j)

end Segment

namespace Node

/-- In a list the position of a child is its index. -/
theorem position?_list_eq_some_iff {items : List Node} {s : Segment} {i : Nat} :
    (Node.list items).position? s = some i ↔ s.index? = some (i : Int) ∧ i < items.length := by
  simp only [position?]
  cases h : s.index? with
  | none => simp
  | some j =>
    simp only [Option.ite_none_right_eq_some, Option.some.injEq]
    omega

theorem position?_index {n : Node} (hn : n.kind = .list) {s : Segment} {i : Int}
    (h : s.index? = some i) : n.position? (.index i) = n.position? s := by
  cases n with
  | list items => simp only [position?, h, Segment.index?_index]
  | _ => simp [kind] at hn

theorem index?_of_position? {n : Node} (hn : n.kind = .list) {s : Segment} {i : Nat}
    (h : n.position? s = some i) : s.index? = some (i : Int) := by
  cases n with
  | list items => exact (position?_list_eq_some_iff.1 h).1
  | _ => simp [kind] at hn

/-- A segment that can be written down and its text as a key address the same child. -/
theorem position?_key_text_of_fits {s : Segment} (hs : s.Fits) (n : Node) :
    n.position? (.key s.text) = n.position? s := by
  cases n with
  | list items => simp only [position?, hs.index?_key_text]
  | _ => rfl

/-- A segment that addresses a child of a list and its text as a key address the same child, unless
the list has more items than there are indices. -/
theorem position?_key_text {n : Node} (hn : n.ItemsIndexed) {s : Segment} {i : Nat}
    (h : n.position? s = some i) : n.position? (.key s.text) = some i := by
  cases n with
  | map entries => exact h
  | list items =>
    cases s with
    | key k => exact h
    | index j =>
      obtain ⟨hj, hi⟩ := position?_list_eq_some_iff.1 h
      simp only [Segment.index?_index, Option.some.injEq] at hj
      simp only [ItemsIndexed] at hn
      refine position?_list_eq_some_iff.2 ⟨?_, hi⟩
      rw [Segment.text, Segment.index?_key_ofInt, hj]
      · simp only [Int64.toInt_minValue]; omega
      · simp only [Int64.toInt_maxValue]; omega
  | _ => simp [position?] at h

/-- What a segment finds is the child at the position that it addresses. -/
theorem find?_eq_some_iff {n : Node} {s : Segment} {i : Nat} {c : Node} :
    n.find? s = some (i, c) ↔ n.position? s = some i ∧ (n.child? i).map Prod.snd = some c := by
  simp only [find?, Option.bind_eq_bind, Option.bind_eq_some_iff, Option.pure_def,
    Option.some.injEq, Prod.mk.injEq, Option.map_eq_some_iff]
  constructor
  · rintro ⟨j, hj, e, he, rfl, rfl⟩
    exact ⟨hj, e, he, rfl⟩
  · rintro ⟨hi, e, he, rfl⟩
    exact ⟨i, hi, e, he, rfl, rfl⟩

end Node

namespace Selector

/-- What the members of a union list is what the union lists. -/
theorem interestsIn?_eq_some {length : Nat} {members : List Selector} {segments : List Segment}
    (h : interestsIn? length members = some segments) {m : Selector} (hm : m ∈ members) :
    ∃ own, m.interests? length = some own ∧ ∀ t ∈ own, t ∈ segments := by
  induction members generalizing segments with
  | nil => cases hm
  | cons first rest ih =>
    simp only [interestsIn?, Option.bind_eq_bind, Option.bind_eq_some_iff, Option.pure_def,
      Option.some.injEq] at h
    obtain ⟨own, hown, others, hothers, rfl⟩ := h
    rcases List.mem_cons.1 hm with rfl | hm
    · exact ⟨own, hown, fun t ht => List.mem_append_left _ ht⟩
    · obtain ⟨mine, hmine, hsub⟩ := ih hothers hm
      exact ⟨mine, hmine, fun t ht => List.mem_append_right _ (hsub t ht)⟩

theorem mem_indicesBetween {start stop i : Int} {length : Nat} (lower : start ≤ i)
    (upper : i < stop)
    (short : i < length) : Segment.index i ∈ indicesBetween start stop length := by
  simp only [indicesBetween, List.mem_map, List.mem_range]
  exact ⟨(i - start).toNat, by omega, by congr 1; omega⟩

/-- A segment that stands at a position and is explored is looked up by some listed segment: none of
the children that matter is missing from the interests. -/
theorem exists_interest_of_explore? {parent : Node} {here : Segment} {i : Nat}
    (hi : parent.position? here = some i) (htext : parent.position? (.key here.text) = some i)
    (s : Selector) {next : Selector} {segments : List Segment}
    (hs : s.explore? parent here = some next)
    (hl : s.interests? parent.length = some segments) :
    ∃ t ∈ segments, parent.position? t = some i := by
  induction s generalizing next segments with
  | matcher | edge => simp [explore?] at hs
  | all following => simp [interests?] at hl
  | fields selections =>
    simp only [explore?] at hs
    obtain ⟨l, r, hlr, -⟩ := List.lookup_eq_some_iff.1 hs
    simp only [interests?, Option.some.injEq] at hl
    refine ⟨.key here.text, ?_, htext⟩
    rw [← hl, hlr]
    simp
  | index position following =>
    simp only [explore?, Option.ite_none_right_eq_some] at hs
    obtain ⟨⟨hk, hx⟩, -⟩ := hs
    simp only [interests?, Option.some.injEq] at hl
    refine ⟨.index position.toInt, by simp [← hl], ?_⟩
    rw [Node.position?_index hk hx, hi]
  | range start stop following =>
    simp only [explore?] at hs
    split at hs
    · next j hk hx =>
      rw [Option.ite_none_right_eq_some] at hs
      obtain ⟨⟨lower, upper⟩, -⟩ := hs
      simp only [interests?, Option.some.injEq] at hl
      subst hl
      have hj := Node.index?_of_position? hk hi
      rw [hx, Option.some.injEq] at hj
      have short := Node.position?_lt hi
      refine ⟨.index j, mem_indicesBetween lower upper (by omega), ?_⟩
      rw [Node.position?_index hk hx, hi]
    · simp at hs
  | union members ih =>
    simp only [explore?, exploreIn_eq_filterMap] at hs
    obtain ⟨m, hm⟩ := List.exists_mem_of_ne_nil _ (ne_nil_of_collapse?_eq_some hs)
    obtain ⟨member, hmember, hsome⟩ := List.mem_filterMap.1 hm
    obtain ⟨own, hown, hsub⟩ := interestsIn?_eq_some hl hmember
    obtain ⟨t, ht, hti⟩ := ih member hmember hsome hown
    exact ⟨t, hsub t ht, hti⟩
  | recursive limit sequence current _ ih =>
    simp only [explore?, Option.bind_eq_some_iff] at hs
    obtain ⟨step, hstep, -⟩ := hs
    exact ih hstep hl

/-- Interests miss no child that matters. Where a segment finds a child of a container and the
selector explores it, a segment that the selector lists for the container finds the same child at
the same position. -/
theorem exists_interest_at_position (s : Selector) (n : Node) {here : Segment} (hfits : here.Fits)
    {i : Nat} {c : Node} (hfound : n.find? here = some (i, c)) {interests : List Segment}
    (hlisted : s.interests? n.length = some interests) (hexplored : (s.explore? n here).isSome) :
    ∃ t ∈ interests, n.find? t = some (i, c) := by
  obtain ⟨hi, hc⟩ := Node.find?_eq_some_iff.1 hfound
  obtain ⟨next, hnext⟩ := Option.isSome_iff_exists.1 hexplored
  have htext : n.position? (.key here.text) = some i := by
    rw [Node.position?_key_text_of_fits hfits, hi]
  obtain ⟨t, ht, hti⟩ := exists_interest_of_explore? hi htext s hnext hlisted
  exact ⟨t, ht, Node.find?_eq_some_iff.2 ⟨hti, hc⟩⟩

/-- The item of a list that the key `+2` finds, explored by a range and by a field of that name on
the last but one lap of a recursion, with a range that reaches far beyond the end of the list. -/
theorem exists_interest_at_position_signed_key :
    let n : Node := .list [.null, .int 1, .map [("k", .null), ("k", .int 2)]]
    let s : Selector := .recursion (.depth 2)
      (.union [.matcher, .range 1 9223372036854775807 .edge, .fields [("+2", .matcher)]])
    let here : Segment := .key "+2"
    let child : Node := .map [("k", .null), ("k", .int 2)]
    here.Fits ∧ n.find? here = some (2, child) ∧
      s.interests? n.length = some [.index 1, .index 2, .key "+2"] ∧
      (s.explore? n here).isSome ∧
      ∃ t ∈ [Segment.index 1, .index 2, .key "+2"], n.find? t = some (2, child) := by
  intro n s here child
  have hfits : here.Fits := trivial
  have hfound : n.find? here = some (2, child) := by decide
  have hlisted : s.interests? n.length = some [.index 1, .index 2, .key "+2"] := by decide
  have hexplored : (s.explore? n here).isSome := by decide
  exact ⟨hfits, hfound, hlisted, hexplored,
    exists_interest_at_position s n hfits hfound hlisted hexplored⟩

end Selector

end DagSelect
