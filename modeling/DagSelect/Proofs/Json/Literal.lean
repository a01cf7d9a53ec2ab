import DagSelect.Json.Literal
import DagSelect.Json.Token

/-!
# String literals read back

A character is written in one of three ways: by a letter behind a backslash, by its code unit, or as
it is. `escape_cases` tells these apart once; reading a literal back and scanning it both go through
it.
-/

namespace DagSelect.Json

theorem hexDigit?_digitChar {n : Nat} (h : n < 16) : hexDigit? (Nat.digitChar n) = some n := by
  revert n
  decide

/-- The ways a character is written. -/
theorem escape_cases (c : Char) :
    (∃ e, escape c = ['\\', e] ∧ e ≠ 'u' ∧ unescape? e = some c) ∨
      (∃ a b, escape c = ['\\', 'u', '0', '0', a, b] ∧ c.toNat < 0x20 ∧
        hexDigit? a = some (c.toNat / 16) ∧ hexDigit? b = some (c.toNat % 16)) ∨
      (escape c = [c] ∧ c ≠ '"' ∧ c ≠ '\\' ∧ 0x20 ≤ c.toNat) := by
  unfold escape
  split
  · exact .inl ⟨'"', rfl, by decide, rfl⟩
  · exact .inl ⟨'\\', rfl, by decide, rfl⟩
  · exact .inl ⟨'b', rfl, by decide, rfl⟩
  · exact .inl ⟨'f', rfl, by decide, rfl⟩
  · exact .inl ⟨'n', rfl, by decide, rfl⟩
  · exact .inl ⟨'r', rfl, by decide, rfl⟩
  · exact .inl ⟨'t', rfl, by decide, rfl⟩
  · next hquote hbackslash _ _ _ _ _ =>
    by_cases hcontrol : c.toNat < 0x20
    · rw [if_pos hcontrol]
      exact .inr (.inl ⟨_, _, rfl, hcontrol, hexDigit?_digitChar (by omega),
        hexDigit?_digitChar (by omega)⟩)
    · rw [if_neg hcontrol]
      exact .inr (.inr ⟨rfl, hquote, hbackslash, Nat.le_of_not_lt hcontrol⟩)

theorem isEscapable_of_unescape? {e c : Char} (h : unescape? e = some c) :
    isEscapable e = true := by
  unfold unescape? at h
  split at h <;> first | rfl | cases h

/-- A hexadecimal digit stands for itself in a literal. -/
theorem plain_of_hexDigit? {c : Char} {n : Nat} (h : hexDigit? c = some n) :
    c ≠ '"' ∧ c ≠ '\\' ∧ 0x20 ≤ c.toNat := by
  have hlow : '0'.toNat ≤ c.toNat := by
    unfold hexDigit? at h
    split at h
    · next hdigit => exact (Char.isDigit_iff_toNat.1 hdigit).1
    split at h
    · next hlower => exact Nat.le_trans (by decide) (UInt32.le_iff_toNat_le.1 hlower.1)
    split at h
    · next hupper => exact Nat.le_trans (by decide) (UInt32.le_iff_toNat_le.1 hupper.1)
    · cases h
  refine ⟨?_, ?_, Nat.le_trans (by decide) hlow⟩
  · rintro rfl
    exact absurd hlow (by decide)
  · rintro rfl
    cases h

theorem codeUnit?_control {n : Nat} {a b : Char} (ha : hexDigit? a = some (n / 16))
    (hb : hexDigit? b = some (n % 16)) (rest : List Char) :
    codeUnit? ('0' :: '0' :: a :: b :: rest) = some n := by
  have hzero : hexDigit? '0' = some 0 := rfl
  simp only [codeUnit?, hzero, ha, hb]
  congr 1
  omega

/-- A written character is read back, wherever the literal stands. -/
theorem literalRest_escape (p : Position) (c : Char) (rest : List Char) :
    ∃ q, literalRest p (escape c ++ rest) = (literalRest q rest).map (c :: ·) := by
  rcases escape_cases c with ⟨e, he, hu, hmeant⟩ | ⟨a, b, he, hcontrol, ha, hb⟩ |
    ⟨he, hquote, hbackslash, hplain⟩
  · refine ⟨(p.pass '\\').pass e, ?_⟩
    rw [he, List.cons_append, List.cons_append, List.nil_append, literalRest]
    · rw [hmeant]
    · exact hu
  · have hunit := codeUnit?_control ha hb rest
    have htrailing : isTrailing c.toNat = false := by
      simp only [isTrailing, Bool.and_eq_false_iff, decide_eq_false_iff_not]
      omega
    have hleading : isLeading c.toNat = false := by
      simp only [isLeading, Bool.and_eq_false_iff, decide_eq_false_iff_not]
      omega
    refine ⟨⟨((p.pass '\\').pass 'u').line, ((p.pass '\\').pass 'u').column + 4⟩, ?_⟩
    rw [he]
    simp only [List.cons_append, List.nil_append]
    rw [literalRest, hunit]
    simp only [htrailing, hleading, Char.ofNat_toNat]
    rfl
  · refine ⟨p.pass c, ?_⟩
    rw [he, List.cons_append, List.nil_append, literalRest]
    · rw [if_neg (Nat.not_lt.2 hplain)]
    · exact hquote
    · exact fun h _ => hbackslash h
    · exact fun _ h _ => hbackslash h
    · exact fun _ _ h _ => hbackslash h

theorem literalRest_flatMap_escape (p : Position) (text rest : List Char) :
    literalRest p (text.flatMap escape ++ '"' :: rest) = .ok text := by
  induction text generalizing p with
  | nil => rw [List.flatMap_nil, List.nil_append, literalRest]
  | cons c text ih =>
    obtain ⟨q, hq⟩ := literalRest_escape p c (text.flatMap escape ++ '"' :: rest)
    rw [List.flatMap_cons, List.append_assoc, hq, ih]
    rfl

/-- The literal written for a text denotes it. -/
theorem readLiteral_writeLiteral (text : List Char) :
    readLiteral (writeLiteral text) = .ok (String.ofList text) := by
  have h := literalRest_flatMap_escape ⟨1, 1⟩ text []
  rw [readLiteral, writeLiteral, List.drop_one, List.tail_cons, h]
  rfl

end DagSelect.Json
