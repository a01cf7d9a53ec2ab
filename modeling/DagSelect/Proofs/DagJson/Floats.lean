import DagSelect.Proofs.DagJson.RoundTrip
import DagSelect.Proofs.Json.Floats

/-!
# Nodes with floats read back from their text

A float is written so that it is read back, unless it is not finite, which has no form but null, or
so large that it is written with a plus sign, which is refused. A node that was read is read back
from its text exactly when all floats in it are of the first sort, and it is then the same.
-/

namespace DagSelect

namespace Node

theorem eqEntries_self {same : Binary64 → Binary64 → Bool} {entries : List (String × Node)}
    (h : ∀ e ∈ entries, eqWith same e.2 e.2 = true) : eqEntries same entries entries = true := by
  induction entries with
  | nil => rfl
  | cons e rest ih =>
    obtain ⟨k, n⟩ := e
    have hn : eqWith same n n = true := h (k, n) (by simp)
    rw [eqEntries, hn, ih fun f hf => h f (List.mem_cons_of_mem (k, n) hf), beq_self_eq_true]
    rfl

theorem eqItems_self {same : Binary64 → Binary64 → Bool} {items : List Node}
    (h : ∀ n ∈ items, eqWith same n n = true) : eqItems same items items = true := by
  induction items with
  | nil => rfl
  | cons n rest ih =>
    rw [eqItems, h n (by simp), ih fun m hm => h m (List.mem_cons_of_mem n hm)]
    rfl

/-- Only an undefined result keeps data from being equal to itself. -/
theorem sameData_self {n : Node} (h : n.EveryFloat fun x => x.isFinite = true) :
    n.sameData n = true := by
  induction n with
  | float x => exact Binary64.sameValue_self (Binary64.isNaN_of_isFinite (h.here x rfl))
  | map entries ih =>
    exact eqEntries_self fun e he => ih e he ((everywhere_map_iff.1 h).2 e he)
  | list items ih => exact eqItems_self fun n hn => ih n hn ((everywhere_list_iff.1 h).2 n hn)
  | null => rfl
  | _ => exact beq_self_eq_true _

end Node

namespace DagJson

open Node

variable {P : Binary64 → Prop}

theorem everyFloat_of_toJson {n : Node} (h : (toJson n).EveryFloat P) : n.EveryFloat P := by
  induction n with
  | float x =>
    cases h with
    | float hx => exact .float hx
  | map entries ih =>
    rw [toJson, entriesToJson_eq_map] at h
    cases h with
    | object hentries =>
      apply EveryFloat.map
      intro e he
      exact ih e he (hentries _ (List.mem_map_of_mem he))
  | list items ih =>
    rw [toJson, itemsToJson_eq_map] at h
    cases h with
    | array hitems =>
      apply EveryFloat.list
      intro v hv
      exact ih v hv (hitems _ (List.mem_map_of_mem hv))
  | _ => exact .leaf rfl (by rintro ⟨⟩)

/-! ## Finite floats -/

/-- The text of a float has a point or a mark, so it is not read as an integer. -/
theorem readNumber_text {x : Binary64} (h : x.isFinite = true) (span : Json.Span) :
    readNumber (x.text .json) span = .ok (.float x) := by
  have hmark : (x.text .json).any (fun c => c == '.' || c == 'e' || c == 'E') = true := by
    obtain ⟨n, htext, -, hfraction, -⟩ := Binary64.exists_numeral h
    rw [htext, List.any_append, Bool.or_eq_true, List.any_eq_true, List.any_eq_true]
    rcases n.mem_text hfraction with hmem | hmem
    · exact .inr ⟨_, hmem, rfl⟩
    · exact .inr ⟨_, hmem, rfl⟩
  rw [readNumber, if_pos hmark, Binary64.ofText_text h]

theorem readTree_float {x : Binary64} (h : x.isFinite = true) :
    readTree (Json.Value.tree (.float x)) = .ok (.float x) := by
  rw [Json.Value.tree, Json.Value.floatAtom, if_pos h]
  exact readNumber_text h default

/-- A float that is not finite is null in the tree. -/
theorem readTree_float_of_not_finite {x : Binary64} (h : ¬ x.isFinite = true) :
    readTree (Json.Value.tree (.float x)) = .ok .null := by
  rw [Json.Value.tree, Json.Value.floatAtom, if_neg h]
  rfl

/-! ## What is read back as equal data -/

theorem ofEntries_eq_ok_map {span : Json.Span} {entries fs : List (String × Node)}
    (h : ofEntries span entries = .ok (.map fs)) : entries = fs := by
  unfold ofEntries at h
  split at h
  · next value =>
    unfold readReserved at h
    split at h
    · cases h
    · split at h <;> cases h
    · cases h
    · cases h
  · exact Node.map.inj (Except.ok.inj h)

theorem of_readItems {Q : Node → Prop} {items ms : List Node}
    (step : ∀ n ∈ items, ∀ m, readTree (toJson n).tree = .ok m → n.sameData m = true → Q n)
    (h : readItems (Json.Value.itemsTree (itemsToJson items)) = .ok ms)
    (hsame : eqItems Binary64.sameValue items ms = true) : ∀ n ∈ items, Q n := by
  induction items generalizing ms with
  | nil => nofun
  | cons n rest ih =>
    simp only [itemsToJson, Json.Value.itemsTree, readItems, Except.bind_eq_ok_iff] at h
    obtain ⟨m, hm, others, hothers, hms⟩ := h
    cases hms
    rw [eqItems, Bool.and_eq_true] at hsame
    have hrest := ih (fun k hk => step k (List.mem_cons_of_mem n hk)) hothers hsame.2
    intro k hk
    rcases List.mem_cons.1 hk with rfl | hk
    · exact step k (by simp) m hm hsame.1
    · exact hrest k hk

theorem of_readEntries {Q : Node → Prop} {entries fs : List (String × Node)} {seen : List String}
    (step : ∀ e ∈ entries, ∀ m, readTree (toJson e.2).tree = .ok m → e.2.sameData m = true → Q e.2)
    (h : readEntries seen (Json.Value.entriesTree (entriesToJson entries)) = .ok fs)
    (hsame : eqEntries Binary64.sameValue entries fs = true) : ∀ e ∈ entries, Q e.2 := by
  induction entries generalizing seen fs with
  | nil => nofun
  | cons entry rest ih =>
    obtain ⟨k, n⟩ := entry
    simp only [entriesToJson, Json.Value.entriesTree, readEntries, Except.bind_eq_ok_iff] at h
    obtain ⟨k', -, h⟩ := h
    split at h
    · cases h
    · simp only [Except.bind_eq_ok_iff] at h
      obtain ⟨m, hm, others, hothers, hfs⟩ := h
      cases hfs
      rw [eqEntries, Bool.and_eq_true, Bool.and_eq_true] at hsame
      have hrest := ih (fun e he => step e (List.mem_cons_of_mem (k, n) he)) hothers hsame.2
      intro e he
      rcases List.mem_cons.1 he with rfl | he
      · exact step (k, n) (by simp) m hm hsame.1.2
      · exact hrest e he

/-- What is read back as equal data has finite floats only, since any other is read as null. -/
theorem finite_of_sameData {n m : Node} (h : readTree (toJson n).tree = .ok m)
    (hsame : n.sameData m = true) : n.EveryFloat fun x => x.isFinite = true := by
  induction n generalizing m with
  | float x =>
    apply EveryFloat.float
    by_contra hinfinite
    rw [toJson, readTree_float_of_not_finite hinfinite] at h
    cases h
    cases hsame
  | map entries ih =>
    obtain ⟨fs, rfl⟩ : ∃ fs, m = .map fs := by
      cases m with
      | map fs => exact ⟨fs, rfl⟩
      | _ => cases hsame
    simp only [toJson, Json.Value.tree, readTree, Except.bind_eq_ok_iff] at h
    obtain ⟨es, hes, hm⟩ := h
    obtain rfl := ofEntries_eq_ok_map hm
    exact .map (of_readEntries (fun e he _ => ih e he) hes hsame)
  | list items ih =>
    obtain ⟨ms, rfl⟩ : ∃ ms, m = .list ms := by
      cases m with
      | list ms => exact ⟨ms, rfl⟩
      | _ => cases hsame
    obtain ⟨_, hms, hm⟩ := Except.map_eq_ok_iff.1 h
    cases hm
    exact .list (of_readItems (fun n hn _ => ih n hn) hms hsame)
  | _ => exact .leaf rfl (by rintro ⟨⟩)

/-! ## Texts that are refused -/

theorem dropMark_cons {c : Char} (h : c ≠ '\ufeff') (rest : List Char) :
    dropMark (c :: rest) = (0, c :: rest) := by
  unfold dropMark
  split
  · next heq => exact absurd (List.cons.inj heq).1 h
  · rfl

/-- The text of a value does not begin with a byte-order mark. -/
theorem dropMark_compact (v : Json.Value) : dropMark (v.compact []) = (0, v.compact []) := by
  cases v with
  | bool b => cases b <;> exact dropMark_cons (by decide) _
  | int i =>
    have hscans := Json.scans_ofInt i
    rw [← List.append_nil (Text.ofInt i)] at hscans
    exact dropMark_of_scans hscans
  | float x =>
    rw [Json.Value.compact, Json.Value.floatText]
    split_ifs with hfinite
    · obtain ⟨n, htext, -⟩ := Binary64.exists_numeral hfinite
      rw [htext]
      cases x.isNegative with
      | true => exact dropMark_cons (by decide) _
      | false =>
        exact dropMark_cons (Text.ne_of_isDigit (n.isDigit n.first (by simp)) rfl) _
    · exact dropMark_cons (by decide) _
  | _ => exact dropMark_cons (by decide) _

theorem decode_of_breaks {source : String} (hmark : dropMark source.toList = (0, source.toList))
    (h : Json.Breaks .lenient source.toList) : decode source = .error ⟨.grammar, none⟩ := by
  have hscan := h.scan? 0
  rw [decode, hmark]
  simp only [hscan]

theorem decode_text_of_large {v : Json.Value} (h : ¬ v.EveryFloat fun x => ¬ x.IsLarge) :
    decode v.text = .error ⟨.grammar, none⟩ := by
  apply decode_of_breaks
  · rw [Json.Value.text, String.toList_ofList]
    exact dropMark_compact v
  · rw [Json.Value.text, String.toList_ofList]
    exact Json.Value.breaks_compact h

theorem decode_encode_of_large {n : Node} (h : ¬ n.EveryFloat fun x => ¬ x.IsLarge) :
    decode (encode n) = .error ⟨.grammar, none⟩ :=
  decode_text_of_large fun hsmall => h (everyFloat_of_toJson hsmall)

/-! ## The round trip -/

/-- A node that was read is read back as equal data exactly when all its floats are moderate, and it
is then the same node. One large float makes the whole text unreadable. -/
theorem exists_decode_encode_iff (source : String) (n : Node) (h : decode source = .ok n) :
    ((∃ m, decode (encode n) = .ok m ∧ n.sameData m = true) ↔ n.EveryFloat Binary64.IsModerate) ∧
      (n.EveryFloat Binary64.IsModerate → decode (encode n) = .ok n) ∧
      (¬ (n.EveryFloat fun x => ¬ x.IsLarge) → decode (encode n) = .error ⟨.grammar, none⟩) := by
  have hmoderate (hn : n.EveryFloat Binary64.IsModerate) : decode (encode n) = .ok n :=
    decode_encode (fun x hx => Json.Value.scans_floatText (Binary64.isModerate_iff.1 hx).2)
      (fun x hx => readTree_float hx.1) (written_of_decode h) hn
  refine ⟨⟨?_, ?_⟩, hmoderate, decode_encode_of_large⟩
  · rintro ⟨m, hm, hsame⟩
    have hsmall : n.EveryFloat fun x => ¬ x.IsLarge := by
      by_contra hlarge
      rw [decode_encode_of_large hlarge] at hm
      cases hm
    have hread := outcome_decode_encode
      (hsmall.mono fun _ hk x hx => Json.Value.scans_floatText (hk x hx))
    rw [hm] at hread
    have hfinite := finite_of_sameData (outcome_eq_ok_iff.1 hread.symm) hsame
    exact (hfinite.and hsmall).mono fun k hk x hx =>
      Binary64.isModerate_iff.2 ⟨hk.1 x hx, hk.2 x hx⟩
  · intro hn
    exact ⟨n, hmoderate hn, sameData_self (hn.mono fun k hk x hx => (hk x hx).1)⟩

/-- Negative zero, the least positive float and the greatest one below the bound. -/
theorem exists_decode_encode_iff_extremes :
    decode "[-0.0,5e-324,[9999999999999998.0,0.1]]" =
        .ok (.list [.float ⟨0x8000000000000000⟩, .float ⟨1⟩,
          .list [.float ⟨0x4341C37937E07FFF⟩, .float ⟨0x3FB999999999999A⟩]]) ∧
      decode (encode (.list [.float ⟨0x8000000000000000⟩, .float ⟨1⟩,
          .list [.float ⟨0x4341C37937E07FFF⟩, .float ⟨0x3FB999999999999A⟩]])) =
        .ok (.list [.float ⟨0x8000000000000000⟩, .float ⟨1⟩,
          .list [.float ⟨0x4341C37937E07FFF⟩, .float ⟨0x3FB999999999999A⟩]]) := by
  have hread : decode "[-0.0,5e-324,[9999999999999998.0,0.1]]" =
      .ok (.list [.float ⟨0x8000000000000000⟩, .float ⟨1⟩,
        .list [.float ⟨0x4341C37937E07FFF⟩, .float ⟨0x3FB999999999999A⟩]]) := by
    decide +kernel
  exact ⟨hread, (exists_decode_encode_iff _ _ hread).2.1 (by decide +kernel)⟩

/-- Ten to the sixteenth is read, but its text has a plus sign and is refused. -/
theorem exists_not_decode_encode :
    decode "1e16" = .ok (.float ⟨0x4341C37937E08000⟩) ∧
      encode (.float ⟨0x4341C37937E08000⟩) = "1e+16" ∧
      ¬ ∀ (source : String) (n : Node), decode source = .ok n →
        ∃ m, decode (encode n) = .ok m ∧ n.sameData m = true := by
  have hread : decode "1e16" = .ok (.float ⟨0x4341C37937E08000⟩) := by decide +kernel
  refine ⟨hread, by decide +kernel, ?_⟩
  intro hall
  obtain ⟨m, hm, -⟩ := hall _ _ hread
  have hrefused : decode (encode (.float ⟨0x4341C37937E08000⟩)) = .error ⟨.grammar, none⟩ := by
    decide +kernel
  rw [hrefused] at hm
  cases hm

end DagJson

end DagSelect
