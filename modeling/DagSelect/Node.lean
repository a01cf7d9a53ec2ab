import DagSelect.Binary64

/-! # Data nodes

The value that documents stand for and that selectors walk over: scalars, byte strings, links to
other documents, maps and lists. A map keeps its entries in order and nothing forbids a key to occur
twice. Links are opaque here; only a loader knows what they lead to.
-/

namespace DagSelect

structure Link where
  text : String
deriving DecidableEq, Repr, Inhabited, Hashable

inductive Kind where
  | null
  | bool
  | int
  | float
  | string
  | bytes
  | link
  | map
  | list
deriving DecidableEq, Repr

namespace Kind

def name : Kind → String
  | .null => "Null"
  | .bool => "Bool"
  | .int => "Int"
  | .float => "Float"
  | .string => "String"
  | .bytes => "Bytes"
  | .link => "Link"
  | .map => "Map"
  | .list => "List"

/-- Only maps and lists have children. -/
def isContainer : Kind → Bool
  | .map | .list => true
  | _ => false

end Kind

inductive Node where
  | null
  | bool (value : Bool)
  | int (value : Int64)
  | float (value : Binary64)
  | string (value : String)
  | bytes (value : List UInt8)
  | link (target : Link)
  | map (entries : List (String × Node))
  | list (items : List Node)
deriving Repr, Inhabited

namespace Node

def kind : Node → Kind
  | .null => .null
  | .bool _ => .bool
  | .int _ => .int
  | .float _ => .float
  | .string _ => .string
  | .bytes _ => .bytes
  | .link _ => .link
  | .map _ => .map
  | .list _ => .list

def bool? : Node → Option Bool
  | .bool b => some b
  | _ => none

def int? : Node → Option Int64
  | .int i => some i
  | _ => none

def string? : Node → Option String
  | .string s => some s
  | _ => none

def bytes? : Node → Option (List UInt8)
  | .bytes b => some b
  | _ => none

def link? : Node → Option Link
  | .link l => some l
  | _ => none

def map? : Node → Option (List (String × Node))
  | .map entries => some entries
  | _ => none

def list? : Node → Option (List Node)
  | .list items => some items
  | _ => none

theorem link?_eq_some_iff {n : Node} {l : Link} : n.link? = some l ↔ n = .link l := by
  cases n <;> simp [link?]

/-! ## Induction over the children -/

/-- What holds of a node whenever it holds of all its children holds of every node. -/
@[induction_eliminator]
theorem induct {P : Node → Prop} (null : P .null) (bool : ∀ b, P (.bool b)) (int : ∀ i, P (.int i))
    (float : ∀ x, P (.float x)) (string : ∀ s, P (.string s)) (bytes : ∀ b, P (.bytes b))
    (link : ∀ l, P (.link l)) (map : ∀ entries, (∀ e ∈ entries, P e.2) → P (.map entries))
    (list : ∀ items, (∀ x ∈ items, P x) → P (.list items)) : ∀ n, P n := by
  intro n
  refine Node.rec (motive_1 := P) (motive_2 := fun es => ∀ e ∈ es, P e.2)
    (motive_3 := fun xs => ∀ x ∈ xs, P x)
    (motive_4 := fun e => P e.2) null bool int float string bytes link map list ?_ ?_ ?_ ?_ ?_ n
  · simp
  · intro e es he hes x hx
    rcases List.mem_cons.1 hx with rfl | h
    · exact he
    · exact hes _ h
  · simp
  · intro x xs hx hxs y hy
    rcases List.mem_cons.1 hy with rfl | h
    · exact hx
    · exact hxs _ h
  · intro _ _ h
    exact h

/-! ## Equality -/

mutual
/-- Equality of nodes where `same` compares the floats; order and repetition of entries count. -/
def eqWith (same : Binary64 → Binary64 → Bool) : Node → Node → Bool
  | .null, .null => true
  | .bool a, .bool b => a == b
  | .int a, .int b => a == b
  | .float a, .float b => same a b
  | .string a, .string b => a == b
  | .bytes a, .bytes b => a == b
  | .link a, .link b => a == b
  | .map a, .map b => eqEntries same a b
  | .list a, .list b => eqItems same a b
  | _, _ => false

def eqEntries (same : Binary64 → Binary64 → Bool) :
    List (String × Node) → List (String × Node) → Bool
  | [], [] => true
  | (k, a) :: as, (l, b) :: bs => k == l && eqWith same a b && eqEntries same as bs
  | _, _ => false

def eqItems (same : Binary64 → Binary64 → Bool) : List Node → List Node → Bool
  | [], [] => true
  | a :: as, b :: bs => eqWith same a b && eqItems same as bs
  | _, _ => false
end

theorem eqEntries_iff {same : Binary64 → Binary64 → Bool} {as : List (String × Node)}
    (h : ∀ e ∈ as, ∀ b, eqWith same e.2 b = true ↔ e.2 = b) (bs : List (String × Node)) :
    eqEntries same as bs = true ↔ as = bs := by
  induction as generalizing bs with
  | nil => cases bs <;> simp [eqEntries]
  | cons e as ih =>
    cases bs with
    | nil => simp [eqEntries]
    | cons f bs =>
      have he := h e (by simp)
      have hs := ih (fun x hx => h x (by simp [hx])) bs
      obtain ⟨k, a⟩ := e
      obtain ⟨l, b⟩ := f
      simp_all [eqEntries]

theorem eqItems_iff {same : Binary64 → Binary64 → Bool} {as : List Node}
    (h : ∀ a ∈ as, ∀ b, eqWith same a b = true ↔ a = b) (bs : List Node) :
    eqItems same as bs = true ↔ as = bs := by
  induction as generalizing bs with
  | nil => cases bs <;> simp [eqItems]
  | cons a as ih =>
    cases bs with
    | nil => simp [eqItems]
    | cons b bs =>
      have ha := h a (by simp)
      have hs := ih (fun x hx => h x (by simp [hx])) bs
      simp_all [eqItems]

/-- Compared bit by bit, nodes are equal exactly when they are the same. -/
theorem eqWith_beq_iff (a b : Node) : eqWith (· == ·) a b = true ↔ a = b := by
  induction a generalizing b with
  | map entries ih =>
    cases b <;> simp [eqWith]
    exact eqEntries_iff ih _
  | list items ih =>
    cases b <;> simp [eqWith]
    exact eqItems_iff ih _
  | _ => cases b <;> simp [eqWith]

instance : DecidableEq Node := fun a b => decidable_of_iff _ (eqWith_beq_iff a b)

/-- Equality of data: floats are compared as numbers. -/
def sameData : Node → Node → Bool := eqWith Binary64.sameValue

end Node

end DagSelect
