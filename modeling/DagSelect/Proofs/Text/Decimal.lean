import DagSelect.Text.Integer

/-!
# Decimal text read back

Every integer is read back from its own decimal text, and every 64-bit integer from the text that
is written for it. The text never begins like that of another sign: `ofInt i` has a minus sign
exactly when `i` is negative, and behind it stand digits only.
-/

namespace DagSelect.Text

theorem naturalOfDigits_toDigits (n : Nat) : naturalOfDigits (Nat.toDigits 10 n) = n :=
  Nat.ofDigitChars_ten_toDigits

/-- Zeros in front of digits do not count. -/
theorem naturalOfDigits_zeros_append (k : Nat) (digits : List Char) :
    naturalOfDigits (List.replicate k '0' ++ digits) = naturalOfDigits digits := by
  have h := Nat.ofDigitChars_append (b := 10) (l := List.replicate k '0') (m := digits) 0
  rw [Nat.ofDigitChars_replicate_zero, Nat.mul_zero] at h
  exact h

theorem naturalOfDigits_append_zeros (k : Nat) (digits : List Char) :
    naturalOfDigits (digits ++ List.replicate k '0') = Nat.pow 10 k * naturalOfDigits digits := by
  have h := Nat.ofDigitChars_append (b := 10) (l := digits) (m := List.replicate k '0') 0
  rw [Nat.ofDigitChars_replicate_zero] at h
  exact h

theorem isDigit_of_mem_zeros {k : Nat} {c : Char} (h : c ∈ List.replicate k '0') :
    c.isDigit = true := by
  rw [List.eq_of_mem_replicate h]
  rfl

theorem all_isDigit_toDigits (n : Nat) : (Nat.toDigits 10 n).all Char.isDigit = true := by
  rw [List.all_eq_true]
  intro c hc
  exact Nat.isDigit_of_mem_toDigits (by decide) (by decide) hc

/-- The decimal text of a positive number begins with a digit other than zero. -/
theorem exists_toDigits_eq_cons {n : Nat} (h : 0 < n) :
    ∃ c rest, Nat.toDigits 10 n = c :: rest ∧ c ≠ '0' := by
  induction n using Nat.strongRecOn with
  | _ n ih =>
    by_cases hsmall : n < 10
    · refine ⟨n.digitChar, [], Nat.toDigits_of_lt_base hsmall, fun hzero => ?_⟩
      have hvalue := congrArg Char.toNat hzero
      rw [Nat.toNat_digitChar_of_lt_ten hsmall] at hvalue
      have : '0'.toNat = 48 := rfl
      omega
    · obtain ⟨c, rest, hrest, hc⟩ := ih (n / 10) (by omega) (by omega)
      refine ⟨c, rest ++ [(n % 10).digitChar], ?_, hc⟩
      rw [Nat.toDigits_of_base_le (by decide) (Nat.le_of_not_lt hsmall), hrest, List.cons_append]

/-- The first digit of a decimal text is zero only where it is the only one. -/
theorem exists_toDigits_eq (n : Nat) :
    ∃ c rest, Nat.toDigits 10 n = c :: rest ∧ (c = '0' → rest = []) := by
  rcases Nat.eq_zero_or_pos n with rfl | hpos
  · exact ⟨'0', [], rfl, fun _ => rfl⟩
  · obtain ⟨c, rest, hdigits, hc⟩ := exists_toDigits_eq_cons hpos
    exact ⟨c, rest, hdigits, fun hzero => absurd hzero hc⟩

def signText (negative : Bool) : List Char := if negative then ['-'] else []

theorem reverse_signText (negative : Bool) : (signText negative).reverse = signText negative := by
  cases negative <;> rfl

theorem ofInt_eq (i : Int) : ofInt i = signText (decide (i < 0)) ++ Nat.toDigits 10 i.natAbs := by
  by_cases h : i < 0 <;> simp [ofInt, signText, h]

theorem ne_of_isDigit {c d : Char} (hc : c.isDigit = true) (hd : d.isDigit = false) : c ≠ d := by
  rintro rfl
  exact Bool.noConfusion (hc.symm.trans hd)

theorem mem_ofInt {c : Char} {i : Int} (h : c ∈ ofInt i) : c = '-' ∨ c.isDigit = true := by
  have hdigits := List.all_eq_true.1 (all_isDigit_toDigits i.natAbs)
  unfold ofInt at h
  split at h
  · rcases List.mem_cons.1 h with rfl | h
    · exact .inl rfl
    · exact .inr (hdigits c h)
  · exact .inr (hdigits c h)

/-- A run of digits without a sign is the number it writes. -/
theorem toInt?_of_all_isDigit {digits : List Char} (hne : digits ≠ [])
    (hd : digits.all Char.isDigit = true) :
    toInt? digits = some (naturalOfDigits digits : Int) := by
  unfold toInt?
  split
  · simp at hd
  · simp at hd
  · rw [if_pos ⟨hne, hd⟩]

theorem toInt?_ofInt (i : Int) : toInt? (ofInt i) = some i := by
  unfold ofInt
  split
  · have hd := all_isDigit_toDigits i.natAbs
    simp only [toInt?]
    rw [if_pos ⟨Nat.toDigits_ne_nil, hd⟩, naturalOfDigits_toDigits]
    congr 1
    omega
  · rw [toInt?_of_all_isDigit Nat.toDigits_ne_nil (all_isDigit_toDigits _),
      naturalOfDigits_toDigits]
    congr 1
    omega

/-- An integer within the range of 64 bits is read back from its text. -/
theorem toInt64_ofInt {i : Int} (lower : Int64.minValue.toInt ≤ i)
    (upper : i ≤ Int64.maxValue.toInt) : toInt64 (ofInt i) = .ok (Int64.ofInt i) := by
  simp only [toInt64, toInt?_ofInt]
  rw [if_neg (by omega), if_neg (by omega)]

theorem toInt64_ofInt_toInt (i : Int64) : toInt64 (ofInt i.toInt) = .ok i := by
  rw [toInt64_ofInt (Int64.le_toInt i) (Int64.toInt_le i), Int64.ofInt_toInt]

end DagSelect.Text
