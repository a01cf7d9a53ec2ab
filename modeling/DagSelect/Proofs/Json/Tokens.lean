import DagSelect.Json.Value
import DagSelect.Proofs.Json.Scan

/-!
# The tokens of a value

A layout of the text of a value decides what stands between its tokens, and nothing else. Doubles
are left to whoever knows about their text: `EveryFloat` says what is assumed of those in a value.
-/

namespace DagSelect.Json

namespace Value

@[induction_eliminator]
theorem induct {P : Value → Prop} (null : P .null) (bool : ∀ b, P (.bool b)) (int : ∀ i, P (.int i))
    (float : ∀ x, P (.float x)) (string : ∀ s, P (.string s))
    (array : ∀ items, (∀ v ∈ items, P v) → P (.array items))
    (object : ∀ entries, (∀ e ∈ entries, P e.2) → P (.object entries)) : ∀ v, P v := by
  intro v
  refine Value.rec (motive_1 := P) (motive_2 := fun vs => ∀ v ∈ vs, P v)
    (motive_3 := fun es => ∀ e ∈ es, P e.2) (motive_4 := fun e => P e.2)
    null bool int float string array object ?_ ?_ ?_ ?_ ?_ v
  · simp
  · intro x xs hx hxs y hy
    rcases List.mem_cons.1 hy with rfl | h
    · exact hx
    · exact hxs _ h
  · simp
  · intro e es he hes x hx
    rcases List.mem_cons.1 hx with rfl | h
    · exact he
    · exact hes _ h
  · intro _ _ h
    exact h

inductive EveryFloat (P : Binary64 → Prop) : Value → Prop
  | null : EveryFloat P .null
  | bool {b : Bool} : EveryFloat P (.bool b)
  | int {i : Int} : EveryFloat P (.int i)
  | float {x : Binary64} : P x → EveryFloat P (.float x)
  | string {s : String} : EveryFloat P (.string s)
  | array {items : List Value} : (∀ v ∈ items, EveryFloat P v) → EveryFloat P (.array items)
  | object {entries : List (String × Value)} :
      (∀ e ∈ entries, EveryFloat P e.2) → EveryFloat P (.object entries)

theorem EveryFloat.mono {P Q : Binary64 → Prop} {v : Value} (h : v.EveryFloat P)
    (himp : ∀ x, P x → Q x) : v.EveryFloat Q := by
  induction h with
  | null => exact .null
  | bool => exact .bool
  | int => exact .int
  | float hx => exact .float (himp _ hx)
  | string => exact .string
  | array _ ih => exact .array ih
  | object _ ih => exact .object ih

/-! ## Tokens -/

/-- A double that is not finite is written as null. -/
def floatAtom (x : Binary64) : Atom := if x.isFinite then .number (x.text .json) else .null

def separateTokens : List (List Token) → List Token
  | [] => []
  | [p] => p
  | p :: more => p ++ .symbol .comma :: separateTokens more

def entryTokens (k : String) (ts : List Token) : List Token :=
  .atom (.string (writeLiteral k.toList)) :: .symbol .colon :: ts

mutual
def tokens : Value → List Token
  | .null => [.atom .null]
  | .bool b => [.atom (.bool b)]
  | .int i => [.atom (.number (Text.ofInt i))]
  | .float x => [.atom (floatAtom x)]
  | .string s => [.atom (.string (writeLiteral s.toList))]
  | .array items =>
    .symbol .openBracket :: (separateTokens (itemsTokens items) ++ [.symbol .closeBracket])
  | .object entries =>
    .symbol .openBrace :: (separateTokens (entriesTokens entries) ++ [.symbol .closeBrace])

def itemsTokens : List Value → List (List Token)
  | [] => []
  | v :: rest => tokens v :: itemsTokens rest

def entriesTokens : List (String × Value) → List (List Token)
  | [] => []
  | (k, v) :: rest => entryTokens k (tokens v) :: entriesTokens rest
end

theorem itemsTokens_eq_map (items : List Value) : itemsTokens items = items.map tokens := by
  induction items with
  | nil => rfl
  | cons v rest ih => rw [itemsTokens, ih, List.map_cons]

theorem entriesTokens_eq_map (entries : List (String × Value)) :
    entriesTokens entries = entries.map fun e => entryTokens e.1 e.2.tokens := by
  induction entries with
  | nil => rfl
  | cons e rest ih => rw [entriesTokens, ih, List.map_cons]

/-! ## Layouts -/

/-- A text, written in front of what may follow it, that scans to the tokens. -/
def Lays (text : List Char → List Char) (ts : List Token) : Prop :=
  ∀ ⦃rest us⦄, Follows .lenient rest us → Scans .lenient (text rest) (ts ++ us)

theorem lays_of_scans {text : List Char} {ts : List Token} (h : Scans .lenient text ts) :
    Lays (text ++ ·) ts :=
  fun _ _ hrest => h.append hrest

/-- A text with nothing behind it. -/
theorem Lays.scans {text : List Char → List Char} {ts : List Token} (h : Lays text ts) :
    Scans .lenient (text []) ts := by
  have hscans := h Follows.nil
  rwa [List.append_nil] at hscans

theorem scans_boolText (b : Bool) : Scans .lenient (boolText b) [.atom (.bool b)] := by
  cases b with
  | true => exact scans_true
  | false => exact scans_false

def separate : List (List Char → List Char) → List Char → List Char
  | [], rest => rest
  | [p], rest => p rest
  | p :: more, rest => p (',' :: separate more rest)

theorem lays_separate {α : Type} {text : α → List Char → List Char} {ts : α → List Token}
    {parts : List α} (h : ∀ x ∈ parts, Lays (text x) (ts x)) (hne : parts ≠ []) :
    Lays (separate (parts.map text)) (separateTokens (parts.map ts)) := by
  induction parts with
  | nil => exact absurd rfl hne
  | cons x more ih =>
    have hx := h x (by simp)
    cases more with
    | nil => exact hx
    | cons y more =>
      have hmore := ih (fun z hz => h z (List.mem_cons_of_mem x hz)) (by simp)
      intro rest us hrest
      have hcomma := Follows.symbol .comma (hmore hrest)
      have htokens : separateTokens ((x :: y :: more).map ts) ++ us =
          ts x ++ (.symbol .comma :: (separateTokens ((y :: more).map ts) ++ us)) := by
        rw [List.map_cons, List.map_cons, separateTokens, List.append_assoc, List.cons_append]
        exact List.cons_ne_nil _ _
      rw [htokens]
      exact hx hcomma

/-- Parts, or none, between two symbols. -/
theorem lays_between {text : List Char → List Char} {ts : List Token} (opening closing : Symbol)
    (h : (text = id ∧ ts = []) ∨ Lays text ts) :
    Lays (fun rest => opening.char :: text (closing.char :: rest))
      (.symbol opening :: (ts ++ [.symbol closing])) := by
  intro rest us hrest
  have hclose := Follows.symbol closing hrest.scans
  have hinner : Scans .lenient (text (closing.char :: rest)) (ts ++ .symbol closing :: us) := by
    rcases h with ⟨rfl, rfl⟩ | h
    · exact hclose.scans
    · exact h hclose
  rw [List.cons_append, List.append_assoc]
  exact (Follows.symbol opening hinner).scans

/-! ## The compact text -/

theorem compactItems_eq (items : List Value) :
    compactItems items = separate (items.map compact) := by
  funext rest
  induction items generalizing rest with
  | nil => rfl
  | cons v more ih =>
    cases more with
    | nil => rfl
    | cons w more => exact congrArg (fun behind => v.compact (',' :: behind)) (ih rest)

def compactEntry (e : String × Value) (rest : List Char) : List Char :=
  writeLiteral e.1.toList ++ ':' :: e.2.compact rest

theorem compactEntries_eq (entries : List (String × Value)) :
    compactEntries entries = separate (entries.map compactEntry) := by
  funext rest
  induction entries generalizing rest with
  | nil => rfl
  | cons e more ih =>
    cases more with
    | nil => rfl
    | cons f more => exact congrArg (fun behind => compactEntry e (',' :: behind)) (ih rest)

theorem lays_compactEntry {e : String × Value} (h : Lays e.2.compact e.2.tokens) :
    Lays (compactEntry e) (entryTokens e.1 e.2.tokens) := by
  intro rest us hrest
  have hcolon := Follows.symbol .colon (h hrest)
  exact (scans_writeLiteral e.1.toList).append hcolon

theorem lays_compact {v : Value}
    (h : v.EveryFloat fun x => Scans .lenient (floatText x) [.atom (floatAtom x)]) :
    Lays v.compact v.tokens := by
  induction h with
  | null => exact lays_of_scans scans_null
  | @bool b => exact lays_of_scans (scans_boolText b)
  | @int i => exact lays_of_scans (scans_ofInt i)
  | float hx => exact lays_of_scans hx
  | @string s => exact lays_of_scans (scans_writeLiteral s.toList)
  | @array items _ ih =>
    apply lays_between .openBracket .closeBracket
    rw [compactItems_eq, itemsTokens_eq_map]
    by_cases hne : items = []
    · subst hne
      exact .inl ⟨rfl, rfl⟩
    · exact .inr (lays_separate ih hne)
  | @object entries _ ih =>
    apply lays_between .openBrace .closeBrace
    rw [compactEntries_eq, entriesTokens_eq_map]
    by_cases hne : entries = []
    · subst hne
      exact .inl ⟨rfl, rfl⟩
    · exact .inr (lays_separate (fun e he => lays_compactEntry (ih e he)) hne)

theorem scans_compact {v : Value}
    (h : v.EveryFloat fun x => Scans .lenient (floatText x) [.atom (floatAtom x)]) :
    Scans .lenient (v.compact []) v.tokens :=
  (lays_compact h).scans

end Value

end DagSelect.Json
