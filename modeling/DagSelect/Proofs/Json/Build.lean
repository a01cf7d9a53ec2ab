import DagSelect.Json.Tree
import DagSelect.Proofs.Json.Tokens

/-!
# Putting tokens together again

The tokens of a value give one tree, and that tree is the value's own but for the places of its
parts. `Tree.strip` forgets the places, and `Value.tree` is what remains. The machine with the stack
is followed one value at a time: from any state that takes a value, the tokens of a value do what
placing its tree does.
-/

namespace DagSelect.Json

mutual
def Tree.strip : Tree → Tree
  | .atom a _ => .atom a default
  | .array items _ => .array (stripItems items) default
  | .object entries _ => .object (stripEntries entries) default

def stripItems : List Tree → List Tree
  | [] => []
  | t :: rest => t.strip :: stripItems rest

def stripEntries : List (Key × Tree) → List (Key × Tree)
  | [] => []
  | (key, t) :: rest => (⟨key.literal, default⟩, t.strip) :: stripEntries rest
end

theorem stripItems_eq_map (items : List Tree) : stripItems items = items.map Tree.strip := by
  induction items with
  | nil => rfl
  | cons t rest ih => rw [stripItems, ih, List.map_cons]

def stripEntry (e : Key × Tree) : Key × Tree := (⟨e.1.literal, default⟩, e.2.strip)

theorem stripEntries_eq_map (entries : List (Key × Tree)) :
    stripEntries entries = entries.map stripEntry := by
  induction entries with
  | nil => rfl
  | cons e rest ih => rw [stripEntries, ih, List.map_cons, stripEntry]

namespace Value

mutual
def tree : Value → Tree
  | .null => .atom .null default
  | .bool b => .atom (.bool b) default
  | .int i => .atom (.number (Text.ofInt i)) default
  | .float x => .atom (floatAtom x) default
  | .string s => .atom (.string (writeLiteral s.toList)) default
  | .array items => .array (itemsTree items) default
  | .object entries => .object (entriesTree entries) default

def itemsTree : List Value → List Tree
  | [] => []
  | v :: rest => tree v :: itemsTree rest

def entriesTree : List (String × Value) → List (Key × Tree)
  | [] => []
  | (k, v) :: rest => (⟨writeLiteral k.toList, default⟩, tree v) :: entriesTree rest
end

theorem itemsTree_eq_map (items : List Value) : itemsTree items = items.map tree := by
  induction items with
  | nil => rfl
  | cons v rest ih => rw [itemsTree, ih, List.map_cons]

theorem entriesTree_eq_map (entries : List (String × Value)) :
    entriesTree entries = entries.map fun e => (⟨writeLiteral e.1.toList, default⟩, e.2.tree) := by
  induction entries with
  | nil => rfl
  | cons e rest ih => rw [entriesTree, ih, List.map_cons]

/-- Wherever a value may stand, these tokens put one there. -/
def Builds (ts : List Token) (u : Tree) : Prop :=
  ∀ ⦃ls : List Lexeme⦄, ls.map Lexeme.token = ts → ∀ b : Builder, b.takesValue = true →
    ∃ t : Tree, t.strip = u ∧ b.run? ls = b.place? t

theorem builds_atom (a : Atom) : Builds [.atom a] (.atom a default) := by
  intro ls hls b hb
  obtain ⟨l, rest, rfl, hl, hrest⟩ := List.map_eq_cons_iff.1 hls
  obtain rfl := List.map_eq_nil_iff.1 hrest
  refine ⟨.atom a l.span, rfl, ?_⟩
  rw [Builder.run?_cons, Builder.step?, hl]
  simp only [hb, if_true]
  cases b.place? (.atom a l.span) <;> rfl

/-! ## The parts of a container -/

/-- In a container that is open, whose frame is made from the parts it holds, these tokens add a
part that is known up to its places. -/
def Adds {α : Type} (frame : List α → Frame) (strip : α → α) (ts : List Token) (u : α) : Prop :=
  ∀ ⦃ls : List Lexeme⦄, ls.map Lexeme.token = ts → ∀ (done : List α) (stack : List Frame)
    (values : List Tree) (awaited : Awaited), awaited = .first ∨ awaited = .part →
    ∃ x : α, strip x = u ∧ (Builder.mk (frame done :: stack) values awaited).run? ls =
      some ⟨frame (x :: done) :: stack, values, .next⟩

theorem adds_item {ts : List Token} {u : Tree} (h : Builds ts u) (start : Nat) :
    Adds (.array start) Tree.strip ts u := by
  intro ls hls done stack values awaited ha
  have htakes : (Builder.mk (.array start done :: stack) values awaited).takesValue = true := by
    rcases ha with rfl | rfl <;> rfl
  obtain ⟨t, ht, hrun⟩ := h hls _ htakes
  exact ⟨t, ht, hrun⟩

theorem adds_entry {k : String} {ts : List Token} {u : Tree} (h : Builds ts u) (start : Nat) :
    Adds (.object start) stripEntry (entryTokens k ts) (⟨writeLiteral k.toList, default⟩, u) := by
  intro ls hls done stack values awaited ha
  obtain ⟨key, behind, rfl, hkey, hbehind⟩ := List.map_eq_cons_iff.1 hls
  obtain ⟨colon, value, rfl, hcolon, hvalue⟩ := List.map_eq_cons_iff.1 hbehind
  let waiting : Frame := .entry start done ⟨writeLiteral k.toList, key.span⟩
  obtain ⟨t, ht, hrun⟩ := h hvalue ⟨waiting :: stack, values, .value⟩ rfl
  refine ⟨(⟨writeLiteral k.toList, key.span⟩, t), by rw [stripEntry, ht], ?_⟩
  have hstep : (Builder.mk (.object start done :: stack) values awaited).step? key =
      some ⟨waiting :: stack, values, .colon⟩ := by
    rw [Builder.step?, hkey]
    rcases ha with rfl | rfl <;> rfl
  have hnext : (Builder.mk (waiting :: stack) values .colon).step? colon =
      some ⟨waiting :: stack, values, .value⟩ := by
    rw [Builder.step?, hcolon]
    rfl
  rw [Builder.run?_cons, hstep, Option.bind_some, Builder.run?_cons, hnext, Option.bind_some, hrun]
  rfl

/-- A comma behind a part of a container. -/
theorem step?_comma {l : Lexeme} (h : l.token = .symbol .comma) (f : Frame) (stack : List Frame)
    (values : List Tree) :
    (Builder.mk (f :: stack) values .next).step? l = some ⟨f :: stack, values, .part⟩ := by
  rw [Builder.step?, h]

theorem run?_separateTokens {α β : Type} {frame : List α → Frame} {strip : α → α}
    {ts : β → List Token} {u : β → α} {parts : List β}
    (h : ∀ x ∈ parts, Adds frame strip (ts x) (u x)) (hne : parts ≠ []) {ls : List Lexeme}
    (hls : ls.map Lexeme.token = separateTokens (parts.map ts)) {done : List α}
    {stack : List Frame} {values : List Tree} {awaited : Awaited}
    (ha : awaited = .first ∨ awaited = .part) :
    ∃ xs : List α, xs.map strip = parts.map u ∧
      (Builder.mk (frame done :: stack) values awaited).run? ls =
        some ⟨frame (xs.reverse ++ done) :: stack, values, .next⟩ := by
  induction parts generalizing ls done awaited with
  | nil => exact absurd rfl hne
  | cons p more ih =>
    cases more with
    | nil =>
      obtain ⟨x, hx, hrun⟩ := h p (by simp) hls done stack values awaited ha
      exact ⟨[x], by rw [List.map_singleton, hx, List.map_singleton], hrun⟩
    | cons q more =>
      have hsplit : separateTokens ((p :: q :: more).map ts) =
          ts p ++ .symbol .comma :: separateTokens ((q :: more).map ts) := by
        rw [List.map_cons, List.map_cons, separateTokens]
        exact List.cons_ne_nil _ _
      rw [hsplit] at hls
      obtain ⟨first, behind, rfl, hfirst, hbehind⟩ := List.map_eq_append_iff.1 hls
      obtain ⟨comma, others, rfl, hcomma, hothers⟩ := List.map_eq_cons_iff.1 hbehind
      obtain ⟨x, hx, hrun⟩ := h p (by simp) hfirst done stack values awaited ha
      obtain ⟨xs, hxs, hrest⟩ :=
        ih (fun y hy => h y (List.mem_cons_of_mem p hy)) (by simp) hothers (.inr rfl)
      refine ⟨x :: xs, by rw [List.map_cons, hx, hxs]; rfl, ?_⟩
      rw [Builder.run?_append, hrun, Option.bind_some, Builder.run?_cons, step?_comma hcomma,
        Option.bind_some, hrest, List.reverse_cons, List.append_assoc]
      rfl

/-! ## Containers -/

theorem place?_eq (b : Builder) (awaited : Awaited) (t : Tree) :
    (Builder.mk b.stack b.values awaited).place? t = b.place? t := by
  obtain ⟨stack, values, was⟩ := b
  cases stack with
  | nil => rfl
  | cons f rest => cases f <;> rfl

/-- The tokens that open a container and close it put it where it may stand, made from the parts
between them. -/
theorem builds_container {α β : Type} (frame : Nat → List α → Frame) (make : List α → Span → Tree)
    (strip : α → α) {ts : β → List Token} {u : β → α} {parts : List β} {opening closing : Symbol}
    (hopen : ∀ (b : Builder) (l : Lexeme), b.takesValue = true → l.token = .symbol opening →
      b.step? l = some ⟨frame l.span.start [] :: b.stack, b.values, .first⟩)
    (hclose : ∀ (start : Nat) (xs : List α) (stack : List Frame) (values : List Tree)
      (awaited : Awaited) (l : Lexeme), awaited = .first ∨ awaited = .next →
      l.token = .symbol closing → (Builder.mk (frame start xs :: stack) values awaited).step? l =
        (Builder.mk stack values awaited).place? (make xs.reverse ⟨start, l.span.stop⟩))
    (hmake : ∀ (xs : List α) (span : Span), (make xs span).strip = make (xs.map strip) default)
    (h : ∀ x ∈ parts, ∀ start, Adds (frame start) strip (ts x) (u x)) :
    Builds (.symbol opening :: (separateTokens (parts.map ts) ++ [.symbol closing]))
      (make (parts.map u) default) := by
  intro ls hls b hb
  obtain ⟨first, behind, rfl, hfirst, hbehind⟩ := List.map_eq_cons_iff.1 hls
  obtain ⟨inner, rest, rfl, hinner, hrest⟩ := List.map_eq_append_iff.1 hbehind
  obtain ⟨last, none, rfl, hlast, hnone⟩ := List.map_eq_cons_iff.1 hrest
  obtain rfl := List.map_eq_nil_iff.1 hnone
  obtain ⟨xs, awaited, hxs, ha, hrun⟩ : ∃ (xs : List α) (awaited : Awaited),
      xs.map strip = parts.map u ∧ (awaited = .first ∨ awaited = .next) ∧
      (Builder.mk (frame first.span.start [] :: b.stack) b.values .first).run? inner =
        some ⟨frame first.span.start xs.reverse :: b.stack, b.values, awaited⟩ := by
    by_cases hne : parts = []
    · subst hne
      obtain rfl := List.map_eq_nil_iff.1 hinner
      exact ⟨[], .first, rfl, .inl rfl, rfl⟩
    · obtain ⟨xs, hxs, hrun⟩ :=
        run?_separateTokens (fun x hx => h x hx first.span.start) hne hinner (.inl rfl)
      exact ⟨xs, .next, hxs, .inr rfl, by rw [hrun, List.append_nil]⟩
  refine ⟨make xs ⟨first.span.start, last.span.stop⟩, by rw [hmake, hxs], ?_⟩
  rw [Builder.run?_cons, hopen b first hb hfirst, Option.bind_some, Builder.run?_append, hrun,
    Option.bind_some, Builder.run?_cons, hclose _ _ _ _ _ last ha hlast, List.reverse_reverse,
    place?_eq]
  exact Option.bind_fun_some _

theorem builds_array {items : List Value} (h : ∀ v ∈ items, Builds v.tokens v.tree) :
    Builds (tokens (.array items)) (tree (.array items)) := by
  rw [tokens, itemsTokens_eq_map, tree, itemsTree_eq_map]
  apply builds_container Frame.array Tree.array Tree.strip
  · intro b l hb hl
    rw [Builder.step?, hl]
    exact if_pos hb
  · intro start xs stack values awaited l ha hl
    rw [Builder.step?, hl]
    rcases ha with rfl | rfl <;> rfl
  · intro xs span
    rw [Tree.strip, stripItems_eq_map]
  · intro v hv start
    exact adds_item (h v hv) start

theorem builds_object {entries : List (String × Value)}
    (h : ∀ e ∈ entries, Builds e.2.tokens e.2.tree) :
    Builds (tokens (.object entries)) (tree (.object entries)) := by
  rw [tokens, entriesTokens_eq_map, tree, entriesTree_eq_map]
  apply builds_container Frame.object Tree.object stripEntry
  · intro b l hb hl
    rw [Builder.step?, hl]
    exact if_pos hb
  · intro start xs stack values awaited l ha hl
    rw [Builder.step?, hl]
    rcases ha with rfl | rfl <;> rfl
  · intro xs span
    rw [Tree.strip, stripEntries_eq_map]
  · intro e he start
    exact adds_entry (h e he) start

theorem builds (v : Value) : Builds v.tokens v.tree := by
  induction v with
  | null => exact builds_atom .null
  | bool b => exact builds_atom (.bool b)
  | int i => exact builds_atom (.number (Text.ofInt i))
  | float x => exact builds_atom (floatAtom x)
  | string s => exact builds_atom (.string (writeLiteral s.toList))
  | array items ih => exact builds_array ih
  | object entries ih => exact builds_object ih

/-- A text with the tokens of a value holds that value and nothing else. -/
theorem trees?_tokens {v : Value} {ls : List Lexeme} (h : ls.map Lexeme.token = v.tokens) :
    ∃ t, trees? ls = some [t] ∧ t.strip = v.tree := by
  obtain ⟨t, ht, hrun⟩ := builds v h .start rfl
  refine ⟨t, ?_, ht⟩
  rw [trees?, hrun]
  rfl

end Value

end DagSelect.Json
