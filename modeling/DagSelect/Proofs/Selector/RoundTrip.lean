import DagSelect.Proofs.Selector.WellFormed

/-!
# Selectors and their written form

Compiling undoes writing on the well-formed selectors. The induction is on the derivation of
well-formedness, which has the flag of the compiler as its index: below a recursion both say that
edges are allowed. A limit needs its bound because a depth past the integers is written cut off, and
the names of fields need to differ because the compiler carries along those it has seen.
-/

namespace DagSelect

namespace Compile

open Selector

theorem field_cons_self {kind name key : String} {inside : Bool} {n : Node}
    {rest : List (String × Node)} :
    field kind name key inside ((key, n) :: rest) = selector inside n := by
  rw [field, if_pos rfl]

theorem field_cons_of_ne {kind name key k : String} {inside : Bool} {n : Node}
    {rest : List (String × Node)} (h : key ≠ k) :
    field kind name key inside ((k, n) :: rest) = field kind name key inside rest := by
  rw [field, if_neg h]

theorem selectionsField_cons_self {inside : Bool} {entries rest : List (String × Node)} :
    selectionsField inside ((Wire.selections, .map entries) :: rest) =
      selections inside [] entries := by
  rw [selectionsField, if_pos rfl]

theorem natural_int {selector field : String} {i : Int64} (h : 0 ≤ i) :
    natural selector field (.int i) = .ok i := by
  rw [natural, if_neg (Int64.not_lt.2 h)]

theorem naturalField_of_lookup {selector field key : String}
    {body : List (String × Node)} {i : Int64} (hi : 0 ≤ i) (h : body.lookup key = some (.int i)) :
    naturalField selector field key body = .ok i := by
  rw [naturalField, h]
  exact natural_int hi

theorem limit_toNode {l : Limit} (h : l.Writable) : limit l.toNode = .ok l := by
  cases l with
  | unbounded => rfl
  | depth laps =>
    have hmin : min (laps : Int) Int64.maxValue.toInt = laps := Int.min_eq_left h
    have hback : (Int64.ofInt laps).toInt = laps := by
      refine Int64.toInt_ofInt_of_le ?_ ?_
      · exact Int.le_trans (by decide) (Int.natCast_nonneg laps)
      · exact Int.lt_of_le_of_lt h (by decide)
    have hnonneg : 0 ≤ Int64.ofInt laps := by
      rw [Int64.le_iff_toInt_le, hback]
      exact Int.natCast_nonneg laps
    rw [Limit.toNode, Wire.keyed, hmin, limit, if_pos (.inl rfl), natural_int hnonneg]
    simp [Except.map, hback]

theorem members_map_toNode {inside : Bool} {ms : List Selector}
    (h : ∀ m ∈ ms, selector inside m.toNode = .ok m) :
    members inside (ms.map toNode) = .ok ms := by
  induction ms with
  | nil => rfl
  | cons m rest ih =>
    have hrest := ih fun x hx => h x (List.mem_cons_of_mem _ hx)
    rw [List.map_cons, members, h m (by simp), hrest]
    rfl

theorem selected_toNode {inside : Bool} {name : String} {s : Selector}
    (h : selector inside s.toNode = .ok s) : selected inside name s.toNode = .ok s := by
  cases s <;> exact h

theorem selections_map_toNode {inside : Bool} {ss : List (String × Selector)} {seen : List String}
    (fresh : FreshKeys seen ss) (h : ∀ e ∈ ss, selector inside e.2.toNode = .ok e.2) :
    selections inside seen (ss.map fun e => (e.1, e.2.toNode)) = .ok ss := by
  induction ss generalizing seen with
  | nil => rfl
  | cons e rest ih =>
    obtain ⟨name, s⟩ := e
    obtain ⟨hnew, fresh⟩ := freshKeys_cons_iff.1 fresh
    have hrest := ih fresh fun e he => h e (List.mem_cons_of_mem _ he)
    rw [List.map_cons, selections_cons, if_neg hnew, selected_toNode (h (name, s) (by simp)), hrest]
    rfl

theorem selector_toNode {inside : Bool} {s : Selector} (h : WellFormedIn inside s) :
    selector inside s.toNode = .ok s := by
  induction h with
  | matcher => rfl
  | edge => rfl
  | all _ ih =>
    have hkey : Wire.all ≠ Wire.matcher := by decide
    rw [toNode, Wire.keyed, selector, if_neg hkey, if_pos rfl, field_cons_self, ih]
    rfl
  | fields distinct _ ih =>
    have hselections := selections_map_toNode (freshKeys_of_nodup distinct) ih
    rw [toNode, Wire.keyed, selector, if_neg (by decide), if_neg (by decide), if_pos rfl,
      selectionsToNode_eq_map, selectionsField_cons_self, hselections]
    rfl
  | index natural _ ih =>
    rw [toNode, Wire.keyed, selector, if_neg (by decide), if_neg (by decide), if_neg (by decide),
      if_pos rfl, naturalField_of_lookup natural rfl, field_cons_of_ne (by decide), field_cons_self,
      ih]
    rfl
  | range natural rising _ ih =>
    have hstop := Int64.le_trans natural (Int64.le_of_lt rising)
    rw [toNode, Wire.keyed, selector, if_neg (by decide), if_neg (by decide), if_neg (by decide),
      if_neg (by decide), if_pos rfl, naturalField_of_lookup natural rfl,
      naturalField_of_lookup hstop rfl, field_cons_of_ne (by decide), field_cons_of_ne (by decide),
      field_cons_self, ih]
    exact if_neg (Int64.not_le.2 rising)
  | union nonempty _ ih =>
    rw [toNode, Wire.keyed, membersToNode_eq_map, selector, if_pos rfl,
      if_neg (by simpa using nonempty), members_map_toNode ih]
    rfl
  | @recursive _ limit sequence writable returns _ ih =>
    have hlimit : limitField [(Wire.limit, limit.toNode), (Wire.sequence, sequence.toNode)] =
        .ok limit :=
      limit_toNode writable
    rw [toNode, Wire.keyed, selector, if_neg (by decide), if_neg (by decide), if_neg (by decide),
      if_neg (by decide), if_neg (by decide), if_pos rfl, hlimit, field_cons_of_ne (by decide),
      field_cons_self, ih]
    exact if_pos (hasOwnEdge_iff.2 returns)

end Compile

theorem compile_toNode {s : Selector} (h : s.WellFormed) : compile s.toNode = .ok s :=
  Compile.selector_toNode h

/-- The well-formed selectors are the ones that compile from something, and they do so from their
own written form. -/
theorem compile_image_round_trip :
    (∀ s : Selector, (∃ n, compile n = .ok s) ↔ s.WellFormed) ∧
      (∀ s : Selector, s.WellFormed → compile s.toNode = .ok s) ∧
      ∀ (n : Node) (s : Selector), compile n = .ok s → compile s.toNode = .ok s := by
  constructor
  · intro s
    constructor
    · rintro ⟨n, h⟩
      exact wellFormed_of_compile h
    · intro h
      exact ⟨s.toNode, compile_toNode h⟩
  constructor
  · intro s h
    exact compile_toNode h
  · intro n s h
    exact compile_toNode (wellFormed_of_compile h)

/-- The limit is read here under the keys that are never written. -/
theorem compile_image_round_trip_aliases :
    compile (.map [("R", .map [("l", .map [("depth", .int 5)]),
      (":>", .map [("a", .map [(">", .map [("@", .map [])])])])])]) =
        .ok (.recursion (.depth 5) (.all .edge)) ∧
      compile (Selector.recursion (.depth 5) (.all .edge)).toNode =
        .ok (.recursion (.depth 5) (.all .edge)) := by
  have h : compile (.map [("R", .map [("l", .map [("depth", .int 5)]),
      (":>", .map [("a", .map [(">", .map [("@", .map [])])])])])]) =
        .ok (.recursion (.depth 5) (.all .edge)) := rfl
  exact ⟨h, compile_image_round_trip.2.2 _ _ h⟩

end DagSelect
