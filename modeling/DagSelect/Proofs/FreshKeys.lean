/-!
# Keys that occur once

Readers of maps go through the entries with the keys they have seen and refuse a key they meet
again. What they accept is what `FreshKeys` says, and one entry more or less is one key more or less
that was seen.
-/

namespace DagSelect

variable {α β : Type}

/-- The keys differ from each other and from those seen before. -/
def FreshKeys (seen : List α) (entries : List (α × β)) : Prop :=
  (entries.map Prod.fst).Nodup ∧ ∀ e ∈ entries, e.1 ∉ seen

theorem freshKeys_nil (seen : List α) : FreshKeys seen ([] : List (α × β)) :=
  ⟨List.nodup_nil, fun _ he => nomatch he⟩

theorem freshKeys_cons_iff {seen : List α} {e : α × β} {rest : List (α × β)} :
    FreshKeys seen (e :: rest) ↔ e.1 ∉ seen ∧ FreshKeys (e.1 :: seen) rest := by
  constructor
  · rintro ⟨distinct, unseen⟩
    rw [List.map_cons, List.nodup_cons] at distinct
    constructor
    · exact unseen e List.mem_cons_self
    constructor
    · exact distinct.2
    · intro f hf hseen
      rcases List.mem_cons.1 hseen with heq | hseen
      · exact distinct.1 (List.mem_map.2 ⟨f, hf, heq⟩)
      · exact unseen f (List.mem_cons_of_mem e hf) hseen
  · rintro ⟨hnew, distinct, unseen⟩
    constructor
    · rw [List.map_cons, List.nodup_cons]
      have hfirst : e.1 ∉ rest.map Prod.fst := by
        intro hmem
        obtain ⟨f, hf, heq⟩ := List.mem_map.1 hmem
        exact unseen f hf (by simp [heq])
      exact ⟨hfirst, distinct⟩
    · intro f hf
      rcases List.mem_cons.1 hf with rfl | hf
      · exact hnew
      · exact fun hseen => unseen f hf (List.mem_cons_of_mem _ hseen)

theorem freshKeys_of_nodup {entries : List (α × β)} (h : (entries.map Prod.fst).Nodup) :
    FreshKeys [] entries :=
  ⟨h, fun _ _ => List.not_mem_nil⟩

end DagSelect
