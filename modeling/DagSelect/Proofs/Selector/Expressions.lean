import DagSelect.Selector.Expr
import DagSelect.Proofs.Selector.UnderWay

/-!
# Expressions and what they compile to

An expression has its parts where the selector that it stands for has them, so it can be turned into
one without any check, `Expr.toSelector`; only the depth of a recursion is cut off where integers
end. The two have one written form. Nothing but this selector can be read from it
(`Compile.eq_toSelector_of_selector`), and it is read exactly if the expression is legal, which says
of expressions what `Selector.WellFormed` says of selectors.
-/

namespace DagSelect

/-- The limit as it is read back from its written form. -/
def Limit.cutOff : Limit → Limit
  | .depth laps => .depth (min laps Int64.maxValue.toInt.toNat)
  | .unbounded => .unbounded

theorem Limit.writable_cutOff (l : Limit) : l.cutOff.Writable := by
  cases l with
  | unbounded => trivial
  | depth laps =>
    rw [cutOff, Writable, Int64.toInt_maxValue]
    omega

theorem Limit.toNode_cutOff (l : Limit) : l.cutOff.toNode = l.toNode := by
  cases l with
  | unbounded => rfl
  | depth laps =>
    have hmin : min ((min laps Int64.maxValue.toInt.toNat : Nat) : Int) Int64.maxValue.toInt =
        min (laps : Int) Int64.maxValue.toInt := by
      rw [Int64.toInt_maxValue]
      omega
    rw [cutOff, toNode, toNode, hmin]

namespace Expr

/-- What holds of an expression whenever it holds of all its parts holds of every expression. -/
@[induction_eliminator]
theorem induct {P : Expr → Prop} (matcher : P .matcher) (all : ∀ next, P next → P (.all next))
    (fields : ∀ selections, (∀ e ∈ selections, P e.2) → P (.fields selections))
    (index : ∀ i next, P next → P (.index i next))
    (range : ∀ start stop next, P next → P (.range start stop next))
    (union : ∀ members, (∀ m ∈ members, P m) → P (.union members))
    (recursive : ∀ limit sequence, P sequence → P (.recursive limit sequence))
    (edge : P .edge) : ∀ e, P e := by
  intro e
  refine Expr.rec (motive_1 := P) (motive_2 := fun es => ∀ e ∈ es, P e.2)
    (motive_3 := fun ms => ∀ m ∈ ms, P m) (motive_4 := fun e => P e.2)
    matcher all fields index range union recursive edge ?_ ?_ ?_ ?_ ?_ e
  · simp
  · intro e es he hes x hx
    rcases List.mem_cons.1 hx with rfl | h
    · exact he
    · exact hes _ h
  · simp
  · intro x xs hx hxs y hy
    rcases List.mem_cons.1 hy with rfl | h
    · exact hx
    · exact hxs _ h
  · intro _ _ h
    exact h

/-! ## The selector of an expression -/

mutual
/-- The selector with the parts of the expression, whether or not it makes sense. -/
def toSelector : Expr → Selector
  | .matcher => .matcher
  | .all next => .all (toSelector next)
  | .fields selections => .fields (selectionsToSelector selections)
  | .index position next => .index position (toSelector next)
  | .range start stop next => .range start stop (toSelector next)
  | .union members => .union (membersToSelector members)
  | .recursive limit sequence => .recursion limit.cutOff (toSelector sequence)
  | .edge => .edge

def selectionsToSelector : List (String × Expr) → List (String × Selector)
  | [] => []
  | (name, e) :: rest => (name, toSelector e) :: selectionsToSelector rest

def membersToSelector : List Expr → List Selector
  | [] => []
  | e :: rest => toSelector e :: membersToSelector rest
end

@[simp] theorem selectionsToSelector_eq_map (selections : List (String × Expr)) :
    selectionsToSelector selections = selections.map fun e => (e.1, e.2.toSelector) := by
  induction selections with
  | nil => rfl
  | cons e rest ih => rw [selectionsToSelector, ih, List.map_cons]

@[simp] theorem membersToSelector_eq_map (members : List Expr) :
    membersToSelector members = members.map toSelector := by
  induction members with
  | nil => rfl
  | cons e rest ih => rw [membersToSelector, ih, List.map_cons]

/-- An expression and its selector have one written form. -/
theorem toNode_toSelector (e : Expr) : e.toSelector.toNode = e.toNode := by
  induction e with
  | matcher | edge => rfl
  | all next ih => rw [toSelector, Selector.toNode, toNode, ih]
  | fields selections ih =>
    have hselections : (selections.map fun e => (e.1, e.2.toSelector.toNode)) =
        selections.map fun e => (e.1, e.2.toNode) :=
      List.map_congr_left fun e he => by rw [ih e he]
    simp only [toSelector, Selector.toNode, toNode, selectionsToSelector_eq_map,
      Selector.selectionsToNode_eq_map, selectionsToNode_eq_map, List.map_map,
      Function.comp_def, hselections]
  | index position next ih => rw [toSelector, Selector.toNode, toNode, ih]
  | range start stop next ih => rw [toSelector, Selector.toNode, toNode, ih]
  | union members ih =>
    simp only [toSelector, Selector.toNode, toNode, membersToSelector_eq_map,
      Selector.membersToNode_eq_map, membersToNode_eq_map, List.map_map, Function.comp_def,
      List.map_congr_left ih]
  | recursive limit sequence ih =>
    rw [toSelector, Selector.recursion, Selector.toNode, toNode, Limit.toNode_cutOff, ih]

/-! ## Legal expressions -/

inductive HasOwnEdge : Expr → Prop
  | edge : HasOwnEdge .edge
  | all {next : Expr} : HasOwnEdge next → HasOwnEdge (.all next)
  | fields {selections : List (String × Expr)} {e : String × Expr} :
      e ∈ selections → HasOwnEdge e.2 → HasOwnEdge (.fields selections)
  | index {position : Int64} {next : Expr} : HasOwnEdge next → HasOwnEdge (.index position next)
  | range {start stop : Int64} {next : Expr} : HasOwnEdge next → HasOwnEdge (.range start stop next)
  | union {members : List Expr} {m : Expr} : m ∈ members → HasOwnEdge m →
      HasOwnEdge (.union members)

/-- An expression is legal, where `inside` tells whether it is beneath a recursion: its numbers make
sense, its unions have members, the names of its fields differ, every edge is beneath a recursion
and every recursion has an edge that is not beneath a nested one. -/
inductive LegalIn : Bool → Expr → Prop
  | matcher {inside : Bool} : LegalIn inside .matcher
  | all {inside : Bool} {next : Expr} (rest : LegalIn inside next) : LegalIn inside (.all next)
  | fields {inside : Bool} {selections : List (String × Expr)}
      (distinct : (selections.map Prod.fst).Nodup)
      (each : ∀ e ∈ selections, LegalIn inside e.2) : LegalIn inside (.fields selections)
  | index {inside : Bool} {position : Int64} {next : Expr} (natural : 0 ≤ position)
      (rest : LegalIn inside next) : LegalIn inside (.index position next)
  | range {inside : Bool} {start stop : Int64} {next : Expr} (natural : 0 ≤ start)
      (rising : start < stop) (rest : LegalIn inside next) : LegalIn inside (.range start stop next)
  | union {inside : Bool} {members : List Expr} (nonempty : members ≠ [])
      (each : ∀ m ∈ members, LegalIn inside m) : LegalIn inside (.union members)
  | recursive {inside : Bool} {limit : Limit} {sequence : Expr} (returns : sequence.HasOwnEdge)
      (rest : LegalIn true sequence) : LegalIn inside (.recursive limit sequence)
  | edge : LegalIn true .edge

def Legal (e : Expr) : Prop := LegalIn false e

theorem hasOwnEdge_toSelector_iff {e : Expr} : e.toSelector.HasOwnEdge ↔ e.HasOwnEdge := by
  induction e with
  | matcher | recursive => exact ⟨nofun, nofun⟩
  | edge => exact ⟨fun _ => .edge, fun _ => .edge⟩
  | all next ih => exact ⟨fun | .all h => .all (ih.1 h), fun | .all h => .all (ih.2 h)⟩
  | index position next ih =>
    exact ⟨fun | .index h => .index (ih.1 h), fun | .index h => .index (ih.2 h)⟩
  | range start stop next ih =>
    exact ⟨fun | .range h => .range (ih.1 h), fun | .range h => .range (ih.2 h)⟩
  | fields selections ih =>
    rw [toSelector, selectionsToSelector_eq_map]
    constructor
    · intro h
      cases h with
      | fields hmem h =>
        obtain ⟨e, he, rfl⟩ := List.mem_map.1 hmem
        exact .fields he ((ih e he).1 h)
    · intro h
      cases h with
      | fields he h => exact .fields (List.mem_map_of_mem he) ((ih _ he).2 h)
  | union members ih =>
    rw [toSelector, membersToSelector_eq_map]
    constructor
    · intro h
      cases h with
      | union hmem h =>
        obtain ⟨m, hm, rfl⟩ := List.mem_map.1 hmem
        exact .union hm ((ih m hm).1 h)
    · intro h
      cases h with
      | union hm h => exact .union (List.mem_map_of_mem hm) ((ih _ hm).2 h)

theorem wellFormedIn_toSelector_iff {inside : Bool} {e : Expr} :
    e.toSelector.WellFormedIn inside ↔ e.LegalIn inside := by
  induction e generalizing inside with
  | matcher => exact ⟨fun _ => .matcher, fun _ => .matcher⟩
  | edge => exact ⟨fun | .edge => .edge, fun | .edge => .edge⟩
  | all next ih => exact ⟨fun | .all h => .all (ih.1 h), fun | .all h => .all (ih.2 h)⟩
  | index position next ih =>
    exact ⟨fun | .index hnat h => .index hnat (ih.1 h), fun | .index hnat h => .index hnat (ih.2 h)⟩
  | range start stop next ih =>
    exact ⟨fun | .range hnat hrise h => .range hnat hrise (ih.1 h),
      fun | .range hnat hrise h => .range hnat hrise (ih.2 h)⟩
  | fields selections ih =>
    have hnames : (selections.map fun e => (e.1, e.2.toSelector)).map Prod.fst =
        selections.map Prod.fst := by simp
    rw [toSelector, selectionsToSelector_eq_map]
    constructor
    · intro h
      cases h with
      | fields distinct each =>
        rw [List.forall_mem_map] at each
        exact .fields (hnames ▸ distinct) fun e he => (ih e he).1 (each e he)
    · intro h
      cases h with
      | fields distinct each =>
        refine .fields (hnames ▸ distinct) ?_
        rw [List.forall_mem_map]
        exact fun e he => (ih e he).2 (each e he)
  | union members ih =>
    rw [toSelector, membersToSelector_eq_map]
    constructor
    · intro h
      cases h with
      | union nonempty each =>
        rw [List.forall_mem_map] at each
        exact .union (by simpa using nonempty) fun m hm => (ih m hm).1 (each m hm)
    · intro h
      cases h with
      | union nonempty each =>
        refine .union (by simpa using nonempty) ?_
        rw [List.forall_mem_map]
        exact fun m hm => (ih m hm).2 (each m hm)
  | recursive limit sequence ih =>
    constructor
    · intro h
      cases h with
      | recursive _ returns rest =>
        exact .recursive (hasOwnEdge_toSelector_iff.1 returns) (ih.1 rest)
    · intro h
      cases h with
      | recursive returns rest =>
        exact .recursive limit.writable_cutOff (hasOwnEdge_toSelector_iff.2 returns) (ih.2 rest)

end Expr

/-! ## What is read -/

namespace Compile

open Selector

variable {inside : Bool} {s : Selector}

/-- An integer that is read back is the one that was written. -/
theorem naturalField_eq_ok_of_lookup {selector field key : String} {body : List (String × Node)}
    {i j : Int64} (h : naturalField selector field key body = .ok j)
    (hi : body.lookup key = some (.int i)) : j = i := by
  rw [naturalField, hi] at h
  exact (Node.int.inj (natural_eq_ok h).1).symm

theorem index_eq_ok {position : Int64} {next : Selector}
    (h : selector inside (Selector.index position next).toNode = .ok s) :
    ∃ t, selector inside next.toNode = .ok t ∧ s = .index position t := by
  rw [toNode, Wire.keyed, selector, if_neg (by decide), if_neg (by decide), if_neg (by decide),
    if_pos rfl, field_cons_of_ne (by decide), field_cons_self] at h
  simp only [Except.bind_eq_ok_iff] at h
  obtain ⟨i, hi, t, ht, hs⟩ := h
  cases hs
  obtain rfl := naturalField_eq_ok_of_lookup hi rfl
  exact ⟨t, ht, rfl⟩

theorem range_eq_ok {start stop : Int64} {next : Selector}
    (h : selector inside (Selector.range start stop next).toNode = .ok s) :
    ∃ t, selector inside next.toNode = .ok t ∧ s = .range start stop t := by
  rw [toNode, Wire.keyed, selector, if_neg (by decide), if_neg (by decide), if_neg (by decide),
    if_neg (by decide), if_pos rfl, field_cons_of_ne (by decide), field_cons_of_ne (by decide),
    field_cons_self] at h
  obtain ⟨i, hi, hrest⟩ := Except.bind_eq_ok_iff.1 h
  obtain ⟨j, hj, hrest⟩ := Except.bind_eq_ok_iff.1 hrest
  simp only [] at hrest
  split at hrest
  · cases hrest
  · obtain ⟨t, ht, hs⟩ := Except.bind_eq_ok_iff.1 hrest
    cases hs
    have hstart : i = start := naturalField_eq_ok_of_lookup hi rfl
    have hstop : j = stop := naturalField_eq_ok_of_lookup hj rfl
    exact ⟨t, ht, by rw [hstart, hstop]⟩

theorem union_eq_ok {ms : List Selector}
    (h : selector inside (Selector.union ms).toNode = .ok s) :
    ∃ ts, members inside (ms.map toNode) = .ok ts ∧ s = .union ts := by
  by_cases nonempty : ms = []
  · subst nonempty
    cases h
  · rw [selector_toNode_union inside nonempty] at h
    obtain ⟨ts, hts, rfl⟩ := Except.map_eq_ok_iff.1 h
    exact ⟨ts, hts, rfl⟩

theorem recursion_eq_ok {limit : Limit} (writable : limit.Writable) {sequence : Selector}
    (h : selector inside (Selector.recursion limit sequence).toNode = .ok s) :
    ∃ t, selector true sequence.toNode = .ok t ∧ s = .recursion limit t := by
  have hlimit : limitField [(Wire.limit, limit.toNode), (Wire.sequence, sequence.toNode)] =
      .ok limit :=
    limit_toNode writable
  rw [recursion, toNode, Wire.keyed, selector, if_neg (by decide), if_neg (by decide),
    if_neg (by decide), if_neg (by decide), if_neg (by decide), if_pos rfl, hlimit,
    field_cons_of_ne (by decide), field_cons_self] at h
  obtain ⟨l, hl, hrest⟩ := Except.bind_eq_ok_iff.1 h
  obtain ⟨t, ht, hrest⟩ := Except.bind_eq_ok_iff.1 hrest
  cases hl
  split at hrest
  · cases hrest
    exact ⟨t, ht, rfl⟩
  · cases hrest

/-- Members that are read one by one as themselves, if at all, are so together. -/
theorem members_map_toNode_eq_ok {ms ts : List Selector}
    (hmember : ∀ m ∈ ms, ∀ t, selector inside m.toNode = .ok t → t = m)
    (h : members inside (ms.map toNode) = .ok ts) : ts = ms := by
  induction ms generalizing ts with
  | nil =>
    cases h
    rfl
  | cons m rest ih =>
    simp only [List.map_cons, members, Except.bind_eq_ok_iff] at h
    obtain ⟨t, ht, others, hothers, hts⟩ := h
    cases hts
    rw [hmember m List.mem_cons_self t ht,
      ih (fun x hx => hmember x (List.mem_cons_of_mem m hx)) hothers]

theorem selections_map_toNode_eq_ok {ss ts : List (String × Selector)} {seen : List String}
    (hselection : ∀ e ∈ ss, ∀ t, selector inside e.2.toNode = .ok t → t = e.2)
    (h : selections inside seen (ss.map fun e => (e.1, e.2.toNode)) = .ok ts) : ts = ss := by
  induction ss generalizing seen ts with
  | nil =>
    cases h
    rfl
  | cons e rest ih =>
    rw [List.map_cons, selections_cons, selected_toNode_eq] at h
    split at h
    · cases h
    · obtain ⟨t, ht, h⟩ := Except.bind_eq_ok_iff.1 h
      obtain ⟨others, hothers, rfl⟩ := Except.map_eq_ok_iff.1 h
      rw [hselection e List.mem_cons_self t ht,
        ih (fun x hx => hselection x (List.mem_cons_of_mem e hx)) hothers]

/-- Nothing else is read from the written form of an expression than the selector with its parts. -/
theorem eq_toSelector_of_selector {e : Expr} (h : selector inside e.toSelector.toNode = .ok s) :
    s = e.toSelector := by
  induction e generalizing inside s with
  | matcher =>
    cases h
    rfl
  | edge =>
    cases inside <;> cases h
    rfl
  | all next ih =>
    rw [Expr.toSelector, selector_toNode_all] at h
    obtain ⟨t, ht, rfl⟩ := Except.map_eq_ok_iff.1 h
    rw [Expr.toSelector, ih ht]
  | fields ss ih =>
    rw [Expr.toSelector, selector_toNode_fields] at h
    obtain ⟨ts, hts, rfl⟩ := Except.map_eq_ok_iff.1 h
    rw [Expr.toSelector]
    congr 1
    refine selections_map_toNode_eq_ok (fun x hx t ht => ?_) hts
    rw [Expr.selectionsToSelector_eq_map] at hx
    obtain ⟨e, he, rfl⟩ := List.mem_map.1 hx
    exact ih e he ht
  | index position next ih =>
    obtain ⟨t, ht, rfl⟩ := index_eq_ok h
    rw [Expr.toSelector, ih ht]
  | range start stop next ih =>
    obtain ⟨t, ht, rfl⟩ := range_eq_ok h
    rw [Expr.toSelector, ih ht]
  | union ms ih =>
    obtain ⟨ts, hts, rfl⟩ := union_eq_ok h
    rw [Expr.toSelector]
    congr 1
    refine members_map_toNode_eq_ok (fun x hx t ht => ?_) hts
    rw [Expr.membersToSelector_eq_map] at hx
    obtain ⟨m, hm, rfl⟩ := List.mem_map.1 hx
    exact ih m hm ht
  | recursive limit sequence ih =>
    obtain ⟨t, ht, rfl⟩ := recursion_eq_ok limit.writable_cutOff h
    rw [Expr.toSelector, ih ht]

end Compile

namespace Expr

theorem compile_eq_ok_iff {e : Expr} {s : Selector} :
    e.compile = .ok s ↔ e.Legal ∧ s = e.toSelector := by
  rw [compile, ← toNode_toSelector]
  constructor
  · intro h
    obtain rfl := Compile.eq_toSelector_of_selector h
    exact ⟨wellFormedIn_toSelector_iff.1 (wellFormed_of_compile h), rfl⟩
  · rintro ⟨hlegal, rfl⟩
    exact compile_toNode (wellFormedIn_toSelector_iff.2 hlegal)

end Expr

/-- The legal expressions are the ones that compile, and what they compile to has the written form
of the expression. -/
theorem compile_expr_written_form :
    (∀ e : Expr, (∃ s, e.compile = .ok s) ↔ e.Legal) ∧
      ∀ (e : Expr) (s : Selector), e.compile = .ok s → s.toNode = e.toNode := by
  constructor
  · intro e
    simp only [Expr.compile_eq_ok_iff, exists_and_left, exists_eq, and_true]
  · intro e s h
    rw [(Expr.compile_eq_ok_iff.1 h).2, Expr.toNode_toSelector]

/-- A depth past the integers, and below it a path at whose end the recursion goes round. -/
theorem compile_expr_written_form_deep :
    let e : Expr := .recursive (.depth 18446744073709551615)
      (.union [.ofPath ⟨[.key "a", .index (-1)]⟩ true (some (.all .edge)), .index 0 .matcher,
        .range 0 Int64.maxValue .matcher])
    ∃ s, e.compile = .ok s ∧ s.toNode = e.toNode := by
  intro e
  have hcompile : e.compile = .ok e.toSelector := rfl
  exact ⟨e.toSelector, hcompile, compile_expr_written_form.2 e e.toSelector hcompile⟩

end DagSelect
