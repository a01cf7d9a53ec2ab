import DagSelect.Proofs.Json.Tokens

/-!
# The spread text

Between the tokens of the spread text there are blanks and newlines, and they end a number that
stands in front of them. So the spread text has the tokens of the compact one, however deep it
begins, and so has every text that goes on with blanks behind its value.
-/

namespace DagSelect.Json

open Scanner

/-! ## Blanks -/

theorem delimits_blank {c : Char} (hc : c = ' ' ∨ c = '\n') : Delimits .lenient c := by
  constructor
  · rcases hc with rfl | rfl <;> decide
  · intro part
    rcases hc with rfl | rfl <;> cases part <;> rfl

theorem Scanner.Between.begin?_blank {r : Scanner} {before : List Token} (hr : r.Between before)
    {c : Char} (hc : c = ' ' ∨ c = '\n') :
    ∃ q, r.begin? .lenient c = some q ∧ q.Between (before ++ []) := by
  refine ⟨r.enter c (.gap .blank r.offset), ?_, ⟨r.offset, rfl⟩, ?_⟩
  · rcases hc with rfl | rfl <;> rfl
  · rw [List.append_nil]
    exact hr.2

variable {text : List Char} {ts : List Token}

theorem Follows.blank {c : Char} (hc : c = ' ' ∨ c = '\n') (h : Scans .lenient text ts) :
    Follows .lenient (c :: text) ts :=
  Follows.cons (delimits_blank hc) (fun _ _ hr => hr.begin?_blank hc) h

theorem Scans.blanks {blanks : List Char} (hblanks : ∀ c ∈ blanks, c = ' ' ∨ c = '\n')
    (h : Scans .lenient text ts) : Scans .lenient (blanks ++ text) ts := by
  induction blanks with
  | nil => exact h
  | cons c blanks ih =>
    have hrest := ih fun x hx => hblanks x (List.mem_cons_of_mem c hx)
    exact (Follows.blank (hblanks c List.mem_cons_self) hrest).scans

theorem Follows.blanks {blanks : List Char} (hblanks : ∀ c ∈ blanks, c = ' ' ∨ c = '\n') :
    Follows .lenient blanks [] := by
  cases blanks with
  | nil => exact .nil
  | cons c blanks =>
    refine Follows.blank (hblanks c List.mem_cons_self) ?_
    have hrest := Scans.blanks (fun x hx => hblanks x (List.mem_cons_of_mem c hx)) Follows.nil.scans
    rwa [List.append_nil] at hrest

theorem Scans.append_blanks (h : Scans .lenient text ts) {blanks : List Char}
    (hblanks : ∀ c ∈ blanks, c = ' ' ∨ c = '\n') : Scans .lenient (text ++ blanks) ts := by
  have hscans := h.append (Follows.blanks hblanks)
  rwa [List.append_nil] at hscans

namespace Value

theorem follows_newline (depth : Nat) (h : Scans .lenient text ts) :
    Follows .lenient (newline depth ++ text) ts := by
  refine Follows.blank (.inr rfl) (Scans.blanks (fun c hc => .inl ?_) h)
  exact List.eq_of_mem_replicate hc

/-! ## Layouts -/

theorem lays_newline (depth : Nat) {text : List Char → List Char} (h : Lays text ts) :
    Lays (fun rest => newline depth ++ text rest) ts :=
  fun _ _ hrest => (follows_newline depth (h hrest)).scans

/-- Parts between two symbols, the second of which stands on a line of its own. -/
theorem lays_enclosed (depth : Nat) (opening closing : Symbol) {text : List Char → List Char}
    (h : Lays text ts) :
    Lays (fun rest => opening.char :: text (newline depth ++ closing.char :: rest))
      (.symbol opening :: (ts ++ [.symbol closing])) := by
  have hline : Lays (fun rest => text (newline depth ++ rest)) ts :=
    fun _ _ hrest => h (follows_newline depth hrest.scans)
  exact lays_between opening closing (.inr hline)

def spreadItem (depth : Nat) (v : Value) (rest : List Char) : List Char :=
  newline depth ++ v.spread depth rest

theorem spreadItems_eq (depth : Nat) (items : List Value) :
    spreadItems depth items = separate (items.map (spreadItem depth)) := by
  funext rest
  induction items generalizing rest with
  | nil => rfl
  | cons v more ih =>
    cases more with
    | nil => rfl
    | cons w more => exact congrArg (fun behind => spreadItem depth v (',' :: behind)) (ih rest)

def spreadEntry (depth : Nat) (e : String × Value) (rest : List Char) : List Char :=
  newline depth ++ (writeLiteral e.1.toList ++ ':' :: ' ' :: e.2.spread depth rest)

theorem spreadEntries_eq (depth : Nat) (entries : List (String × Value)) :
    spreadEntries depth entries = separate (entries.map (spreadEntry depth)) := by
  funext rest
  induction entries generalizing rest with
  | nil => rfl
  | cons e more ih =>
    cases more with
    | nil => rfl
    | cons f more => exact congrArg (fun behind => spreadEntry depth e (',' :: behind)) (ih rest)

theorem lays_spreadEntry {depth : Nat} {e : String × Value}
    (h : Lays (e.2.spread depth) e.2.tokens) :
    Lays (spreadEntry depth e) (entryTokens e.1 e.2.tokens) := by
  refine lays_newline depth fun rest us hrest => ?_
  have hvalue := (Follows.blank (.inl rfl) (h hrest)).scans
  exact (scans_writeLiteral e.1.toList).append (Follows.symbol .colon hvalue)

theorem lays_spread {v : Value}
    (h : v.EveryFloat fun x => Scans .lenient (floatText x) [.atom (floatAtom x)]) (depth : Nat) :
    Lays (v.spread depth) v.tokens := by
  induction h generalizing depth with
  | null => exact lays_of_scans scans_null
  | @bool b => exact lays_of_scans (scans_boolText b)
  | @int i => exact lays_of_scans (scans_ofInt i)
  | float hx => exact lays_of_scans hx
  | @string s => exact lays_of_scans (scans_writeLiteral s.toList)
  | @array items _ ih =>
    cases items with
    | nil => exact lays_between .openBracket .closeBracket (.inl ⟨rfl, rfl⟩)
    | cons v more =>
      have hitems : Lays (spreadItems (depth + 1) (v :: more))
          (separateTokens (itemsTokens (v :: more))) := by
        rw [spreadItems_eq, itemsTokens_eq_map]
        exact lays_separate (fun w hw => lays_newline (depth + 1) (ih w hw (depth + 1)))
          (List.cons_ne_nil v more)
      exact lays_enclosed depth .openBracket .closeBracket hitems
  | @object entries _ ih =>
    cases entries with
    | nil => exact lays_between .openBrace .closeBrace (.inl ⟨rfl, rfl⟩)
    | cons e more =>
      have hentries : Lays (spreadEntries (depth + 1) (e :: more))
          (separateTokens (entriesTokens (e :: more))) := by
        rw [spreadEntries_eq, entriesTokens_eq_map]
        exact lays_separate (fun f hf => lays_spreadEntry (ih f hf (depth + 1)))
          (List.cons_ne_nil e more)
      exact lays_enclosed depth .openBrace .closeBrace hentries

theorem scans_spread {v : Value}
    (h : v.EveryFloat fun x => Scans .lenient (floatText x) [.atom (floatAtom x)]) (depth : Nat) :
    Scans .lenient (v.spread depth []) v.tokens :=
  (lays_spread h depth).scans

end Value

end DagSelect.Json
