import DagSelect.Base64
import DagSelect.Proofs.Except

/-!
# Base64 read back

Writing and reading meet at the six-bit digits: `digits` cuts a byte string into them, and the text
is one symbol for each. The last group is read in a way of its own, and that is the group the
induction ends with.
-/

namespace DagSelect.Base64

def digits : List UInt8 → List Nat
  | a :: b :: c :: rest =>
    let n := a.toNat * 65536 + b.toNat * 256 + c.toNat
    n / 262144 :: n / 4096 % 64 :: n / 64 % 64 :: n % 64 :: digits rest
  | [a, b] =>
    let n := a.toNat * 1024 + b.toNat * 4
    [n / 4096, n / 64 % 64, n % 64]
  | [a] =>
    let n := a.toNat * 16
    [n / 64, n % 64]
  | [] => []

theorem encode_eq_map_digits (bs : List UInt8) : encode bs = (digits bs).map symbol := by
  fun_induction digits bs with
  | case1 a b c rest n ih => rw [encode, ih]; rfl
  | case2 => rfl
  | case3 => rfl
  | case4 => rfl

theorem digits_lt (bs : List UInt8) : ∀ d ∈ digits bs, d < 64 := by
  fun_induction digits bs with
  | case1 a b c rest n ih =>
    have ha := a.toNat_lt
    have hb := b.toNat_lt
    have hc := c.toNat_lt
    intro d hd
    simp only [List.mem_cons] at hd
    rcases hd with rfl | rfl | rfl | rfl | hd
    · omega
    · omega
    · omega
    · omega
    · exact ih d hd
  | case2 a b n =>
    have ha := a.toNat_lt
    have hb := b.toNat_lt
    intro d hd
    simp only [List.mem_cons, List.not_mem_nil, or_false] at hd
    omega
  | case3 a n =>
    have ha := a.toNat_lt
    intro d hd
    simp only [List.mem_cons, List.not_mem_nil, or_false] at hd
    omega
  | case4 => exact fun _ hd => nomatch hd

theorem digits_eq_nil_iff {bs : List UInt8} : digits bs = [] ↔ bs = [] := by
  constructor
  · intro h
    fun_cases digits bs with
    | case1 | case2 | case3 => cases h
    | case4 => rfl
  · rintro rfl
    rfl

/-! ## The text as bytes -/

def symbolByte (d : Nat) : UInt8 := UInt8.ofNat (symbol d).toNat

theorem utf8EncodeChar_symbol {d : Nat} (h : d < 64) :
    String.utf8EncodeChar (symbol d) = [symbolByte d] := by
  revert d
  decide

theorem digit?_symbolByte {d : Nat} (h : d < 64) : digit? (symbolByte d) = some d := by
  revert d
  decide

theorem symbolByte_ne_pad {d : Nat} (h : d < 64) : symbolByte d ≠ pad := by
  revert d
  decide

theorem flatMap_symbol {ds : List Nat} (h : ∀ d ∈ ds, d < 64) :
    (ds.map symbol).flatMap String.utf8EncodeChar = ds.map symbolByte := by
  induction ds with
  | nil => rfl
  | cons d ds ih =>
    rw [List.map_cons, List.flatMap_cons, utf8EncodeChar_symbol (h d (by simp)),
      ih fun x hx => h x (by simp [hx])]
    rfl

theorem bytes_encode (bs : List UInt8) :
    (String.ofList (encode bs)).toUTF8.data.toList = (digits bs).map symbolByte := by
  rw [String.toUTF8_eq_toByteArray, String.toByteArray_ofList, List.utf8Encode,
    List.toList_data_toByteArray, encode_eq_map_digits, flatMap_symbol (digits_lt bs)]

/-! ## Reading digits -/

theorem digitsBefore_map {ds : List Nat} (h : ∀ d ∈ ds, d < 64) (offset : Nat) :
    digitsBefore offset (ds.map symbolByte) = .ok ds := by
  induction ds generalizing offset with
  | nil => rfl
  | cons d ds ih =>
    rw [List.map_cons, digitsBefore, digit?_symbolByte (h d (by simp))]
    simp only [ih (fun x hx => h x (by simp [hx])) (offset + 1)]
    rfl

theorem digitsLast_map {ds : List Nat} (h : ∀ d ∈ ds, d < 64) (start offset : Nat) :
    digitsLast start none offset (ds.map symbolByte) = .ok (ds.map fun d => (d, symbolByte d)) := by
  induction ds generalizing offset with
  | nil => rfl
  | cons d ds ih =>
    rw [List.map_cons, digitsLast, if_neg (symbolByte_ne_pad (h d (by simp)))]
    simp only [digit?_symbolByte (h d (by simp)), ih (fun x hx => h x (by simp [hx])) (offset + 1)]
    rfl

theorem checkLone_map {ds : List Nat} (h : ∀ d ∈ ds, d < 64) :
    checkLone (ds.map symbolByte) = .ok () := by
  unfold checkLone
  split
  · next byte _ hlast =>
    obtain ⟨d, hd, rfl⟩ := List.mem_map.1 (List.mem_of_getLast? hlast)
    rw [if_pos (.inr (by rw [digit?_symbolByte (h d hd)]; rfl))]
  · rfl

/-! ## Reading groups -/

theorem ofNat_eq {n : Nat} {a : UInt8} (h : n = a.toNat) : UInt8.ofNat n = a := by
  rw [h, UInt8.ofNat_toNat]

/-- Four digits are three bytes. -/
theorem bytesOfGroups_cons (a b c : UInt8) (ds : List Nat) :
    let n := a.toNat * 65536 + b.toNat * 256 + c.toNat
    bytesOfGroups (n / 262144 :: n / 4096 % 64 :: n / 64 % 64 :: n % 64 :: ds) =
      a :: b :: c :: bytesOfGroups ds := by
  have ha := a.toNat_lt
  have hb := b.toNat_lt
  have hc := c.toNat_lt
  intro n
  rw [bytesOfGroups, ofNat_eq (a := a) (by omega), ofNat_eq (a := b) (by omega),
    ofNat_eq (a := c) (by omega)]

/-- Where the last group of so many digits starts. -/
def lastStart (count : Nat) : Nat := (count - 1) / 4 * 4

theorem lastStart_eq_zero {count : Nat} (h : count ≤ 4) : lastStart count = 0 := by
  unfold lastStart
  omega

theorem lastStart_add_four {count : Nat} (h : 0 < count) :
    lastStart (count + 4) = lastStart count + 4 := by
  unfold lastStart
  omega

/-- The digits of the last group, with their bytes. -/
theorem bytesOfLast_one (a : UInt8) (k : Nat) :
    let n := a.toNat * 16
    bytesOfLast k ([n / 64, n % 64].map fun d => (d, symbolByte d)) = .ok [a] := by
  have ha := a.toNat_lt
  intro n
  simp only [List.map_cons, List.map_nil]
  rw [bytesOfLast, if_pos (by omega), ofNat_eq (a := a) (by omega)]

theorem bytesOfLast_two (a b : UInt8) (k : Nat) :
    let n := a.toNat * 1024 + b.toNat * 4
    bytesOfLast k ([n / 4096, n / 64 % 64, n % 64].map fun d => (d, symbolByte d)) =
      .ok [a, b] := by
  have ha := a.toNat_lt
  have hb := b.toNat_lt
  intro n
  simp only [List.map_cons, List.map_nil]
  rw [bytesOfLast, if_pos (by omega), ofNat_eq (a := a) (by omega), ofNat_eq (a := b) (by omega)]

theorem bytesOfLast_three (a b c : UInt8) (k : Nat) :
    let n := a.toNat * 65536 + b.toNat * 256 + c.toNat
    bytesOfLast k ([n / 262144, n / 4096 % 64, n / 64 % 64, n % 64].map
      fun d => (d, symbolByte d)) = .ok [a, b, c] := by
  intro n
  simp only [List.map_cons, List.map_nil]
  rw [bytesOfLast, bytesOfGroups_cons]
  rfl

/-- The last group and those in front of it are the byte string again. -/
theorem exists_bytesOfLast {bs : List UInt8} (hne : bs ≠ []) (k : Nat) :
    ∃ tail, bytesOfLast k (((digits bs).drop (lastStart (digits bs).length)).map
        fun d => (d, symbolByte d)) = .ok tail ∧
      bytesOfGroups ((digits bs).take (lastStart (digits bs).length)) ++ tail = bs := by
  fun_induction digits bs with
  | case4 => exact absurd rfl hne
  | case3 a n =>
    rw [lastStart_eq_zero (by simp), List.drop_zero, List.take_zero]
    exact ⟨[a], bytesOfLast_one a k, rfl⟩
  | case2 a b n =>
    rw [lastStart_eq_zero (by simp), List.drop_zero, List.take_zero]
    exact ⟨[a, b], bytesOfLast_two a b k, rfl⟩
  | case1 a b c rest n ih =>
    by_cases hrest : rest = []
    · subst hrest
      rw [lastStart_eq_zero (by simp [digits]), List.drop_zero, List.take_zero]
      exact ⟨[a, b, c], bytesOfLast_three a b c k, rfl⟩
    · obtain ⟨tail, htail, hbs⟩ := ih hrest
      have hpos : 0 < (digits rest).length :=
        List.length_pos_iff.2 fun h => hrest (digits_eq_nil_iff.1 h)
      have hstart : lastStart (n / 262144 :: n / 4096 % 64 :: n / 64 % 64 :: n % 64 ::
          digits rest).length = lastStart (digits rest).length + 4 :=
        lastStart_add_four hpos
      refine ⟨tail, ?_, ?_⟩
      · rw [hstart]
        exact htail
      · rw [hstart, List.take_succ_cons, List.take_succ_cons, List.take_succ_cons,
          List.take_succ_cons, bytesOfGroups_cons, List.cons_append, List.cons_append,
          List.cons_append, hbs]

/-- Every byte string is read back from its text. -/
theorem decode_bytes_encode (bs : List UInt8) :
    decode (String.ofList (encode bs)).toUTF8.data.toList = .ok bs := by
  rw [bytes_encode]
  have hlt := digits_lt bs
  by_cases hne : bs = []
  · subst hne
    rfl
  · have hempty : ((digits bs).map symbolByte).isEmpty = false := by
      simp [digits_eq_nil_iff, hne]
    obtain ⟨tail, htail, hbs⟩ := exists_bytesOfLast hne (lastStart (digits bs).length)
    have hbefore : ∀ d ∈ (digits bs).take (lastStart (digits bs).length), d < 64 :=
      fun d hd => hlt d (List.mem_of_mem_take hd)
    have hlast : ∀ d ∈ (digits bs).drop (lastStart (digits bs).length), d < 64 :=
      fun d hd => hlt d (List.mem_of_mem_drop hd)
    have hstart : (((digits bs).map symbolByte).length - 1) / 4 * 4 =
        lastStart (digits bs).length := by
      rw [List.length_map, lastStart]
    have hrest : (do
        let before ← digitsBefore 0
          (((digits bs).map symbolByte).take (lastStart (digits bs).length))
        let last ← digitsLast (lastStart (digits bs).length) none (lastStart (digits bs).length)
          (((digits bs).map symbolByte).drop (lastStart (digits bs).length))
        let tail ← bytesOfLast (lastStart (digits bs).length) last
        return bytesOfGroups before ++ tail) = Except.ok bs := by
      rw [← List.map_take, ← List.map_drop, digitsBefore_map hbefore]
      refine Except.bind_eq_ok_iff.2 ⟨_, rfl, ?_⟩
      rw [digitsLast_map hlast]
      refine Except.bind_eq_ok_iff.2 ⟨_, rfl, ?_⟩
      rw [htail]
      exact congrArg Except.ok hbs
    rw [decode, hempty, checkLone_map hlt, hstart]
    exact hrest

end DagSelect.Base64
