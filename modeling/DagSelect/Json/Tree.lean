import DagSelect.Json.Token

/-! # The structure of JSON text

Tokens are put together by a machine with a stack: one frame for each container that is open, the
innermost first, and a note of what may come next. Every token makes exactly one step, so the
machine is a fold over the tokens and needs no bound on the depth. A text may hold any number of
values one after the other; whoever reads it decides how many it wants.
-/

namespace DagSelect.Json

structure Key where
  literal : List Char
  span : Span
deriving DecidableEq, Repr

/-- A value as it is written, with the place of every part. -/
inductive Tree where
  | atom (a : Atom) (span : Span)
  | array (items : List Tree) (span : Span)
  | object (entries : List (Key × Tree)) (span : Span)
deriving Repr

def Tree.span : Tree → Span
  | .atom _ span => span
  | .array _ span => span
  | .object _ span => span

/-- What holds of a tree whenever it holds of all its parts holds of every tree. -/
@[induction_eliminator]
theorem Tree.induct {P : Tree → Prop} (atom : ∀ a span, P (.atom a span))
    (array : ∀ items span, (∀ t ∈ items, P t) → P (.array items span))
    (object : ∀ entries span, (∀ e ∈ entries, P e.2) → P (.object entries span)) : ∀ t, P t := by
  intro t
  refine Tree.rec (motive_1 := P) (motive_2 := fun ts => ∀ t ∈ ts, P t)
    (motive_3 := fun es => ∀ e ∈ es, P e.2)
    (motive_4 := fun e => P e.2) atom array object ?_ ?_ ?_ ?_ ?_ t
  · simp
  · intro x xs hx hxs y hy
    rcases List.mem_cons.1 hy with rfl | h
    · exact hx
    · exact hxs _ h
  · simp
  · intro e es he hes x hx
    rcases List.mem_cons.1 hx with rfl | h
    · exact he
    · exact hes _ h
  · intro _ _ h
    exact h

/-- A container that is open: where it began and what it holds so far, latest first. An object may
be waiting for the value of a key. -/
inductive Frame where
  | array (start : Nat) (items : List Tree)
  | object (start : Nat) (entries : List (Key × Tree))
  | entry (start : Nat) (entries : List (Key × Tree)) (key : Key)
deriving Repr

inductive Awaited where
  /-- A value. -/
  | value
  /-- The first part of a container, or its end. -/
  | first
  /-- Another part behind a comma. -/
  | part
  /-- A colon. -/
  | colon
  /-- A comma, or the end of a container. -/
  | next
deriving DecidableEq, Repr

/-- The state of the machine: open containers with the innermost first, complete values with the
latest first. -/
structure Builder where
  stack : List Frame
  values : List Tree
  awaited : Awaited
deriving Repr

namespace Builder

def start : Builder := ⟨[], [], .value⟩

/-- Puts a complete value where it belongs. -/
def place? (b : Builder) (t : Tree) : Option Builder :=
  match b.stack with
  | [] => some { b with values := t :: b.values, awaited := .value }
  | .array start items :: rest =>
    some { b with stack := .array start (t :: items) :: rest, awaited := .next }
  | .entry start entries key :: rest =>
    some { b with stack := .object start ((key, t) :: entries) :: rest, awaited := .next }
  | .object _ _ :: _ => none

/-- Whether a value may stand here: at the top, after a colon, and in a list at its start or behind
a comma. -/
def takesValue (b : Builder) : Bool :=
  match b.stack, b.awaited with
  | [], .value => true
  | .entry _ _ _ :: _, .value => true
  | .array _ _ :: _, .first => true
  | .array _ _ :: _, .part => true
  | _, _ => false

def step? (b : Builder) (l : Lexeme) : Option Builder :=
  match l.token with
  | .comment => some b
  | .atom a =>
    if b.takesValue then b.place? (.atom a l.span)
    else
      match a, b.stack, b.awaited with
      | .string literal, .object start entries :: rest, .first
      | .string literal, .object start entries :: rest, .part =>
        some { b with stack := .entry start entries ⟨literal, l.span⟩ :: rest, awaited := .colon }
      | _, _, _ => none
  | .symbol .openBracket =>
    if b.takesValue then
      some { b with stack := .array l.span.start [] :: b.stack, awaited := .first }
    else none
  | .symbol .openBrace =>
    if b.takesValue then
      some { b with stack := .object l.span.start [] :: b.stack, awaited := .first }
    else none
  | .symbol .closeBracket =>
    match b.stack, b.awaited with
    | .array start items :: rest, .first
    | .array start items :: rest, .next =>
      { b with stack := rest }.place? (.array items.reverse ⟨start, l.span.stop⟩)
    | _, _ => none
  | .symbol .closeBrace =>
    match b.stack, b.awaited with
    | .object start entries :: rest, .first
    | .object start entries :: rest, .next =>
      { b with stack := rest }.place? (.object entries.reverse ⟨start, l.span.stop⟩)
    | _, _ => none
  | .symbol .colon => if b.awaited = .colon then some { b with awaited := .value } else none
  | .symbol .comma =>
    match b.stack, b.awaited with
    | _ :: _, .next => some { b with awaited := .part }
    | _, _ => none

def run? (b : Builder) (lexemes : List Lexeme) : Option Builder := lexemes.foldlM step? b

@[simp] theorem run?_nil (b : Builder) : b.run? [] = some b := rfl

theorem run?_cons (b : Builder) (l : Lexeme) (rest : List Lexeme) :
    b.run? (l :: rest) = (b.step? l).bind fun b => b.run? rest := by
  simp only [run?, List.foldlM_cons]; rfl

theorem run?_append (b : Builder) (xs ys : List Lexeme) :
    b.run? (xs ++ ys) = (b.run? xs).bind fun b => b.run? ys := by
  simp only [run?, List.foldlM_append]; rfl

/-- The values of a text that ends here, unless a container is still open. -/
def finish? (b : Builder) : Option (List Tree) :=
  if b.stack.isEmpty then some b.values.reverse else none

end Builder

def trees? (lexemes : List Lexeme) : Option (List Tree) :=
  (Builder.start.run? lexemes).bind Builder.finish?

end DagSelect.Json
