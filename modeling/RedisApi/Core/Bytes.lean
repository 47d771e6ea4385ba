import Mathlib.Data.Nat.Digits.Lemmas

/-!
# Byte strings

Strings as a key-value server keeps them: bytes, which some commands read as a decimal integer and
some as a row of bits.

* `decimal`, `parseInt` — the decimal text of an integer, and the strict reading of it, which takes
  neither blanks nor a plus sign nor leading zeros; `parseInt_decimal`.
* `getBit`, `setBit` — bit `offset` is the bit `7 - offset % 8` of byte `offset / 8`; a string is as
  long as it has to be, and what is behind its end is zero.  `getBit_setBit`.
-/

namespace Core

abbrev Bytes := List UInt8

/-! ## Decimal integers -/

/-- The byte of a digit. -/
def digit (d : ℕ) : UInt8 := UInt8.ofNat (0x30 + d)

def digitOf (b : UInt8) : Option ℕ :=
  if 0x30 ≤ b.toNat ∧ b.toNat ≤ 0x39 then some (b.toNat - 0x30) else none

/-- The digits of a number, the first one first. -/
def numeral (n : ℕ) : List ℕ := if n = 0 then [0] else (Nat.digits 10 n).reverse

def decimal : ℤ → Bytes
  | .ofNat n => (numeral n).map digit
  | .negSucc n => 0x2D :: (numeral (n + 1)).map digit

/-- Digits without leading zeros. -/
def parseNat (bytes : Bytes) : Option ℕ :=
  match bytes.mapM digitOf with
  | none | some [] => none
  | some [0] => some 0
  | some (0 :: _) => none
  | some digits => some (Nat.ofDigits 10 digits.reverse)

def parseInt : Bytes → Option ℤ
  | [] => none
  | b :: bytes =>
      if b = 0x2D then
        match parseNat bytes with
        | none | some 0 => none
        | some n => some (-n)
      else (parseNat (b :: bytes)).map Int.ofNat

lemma toNat_digit {d : ℕ} (hd : d < 10) : (digit d).toNat = 0x30 + d :=
  UInt8.toNat_ofNat_of_lt' (by show 0x30 + d < 256; omega)

lemma digitOf_digit {d : ℕ} (hd : d < 10) : digitOf (digit d) = some d := by
  rw [digitOf, toNat_digit hd, if_pos (by omega)]
  simp

lemma mapM_digitOf {ds : List ℕ} (hds : ∀ d ∈ ds, d < 10) :
    (ds.map digit).mapM digitOf = some ds := by
  induction ds with
  | nil => rfl
  | cons d ds ih =>
      rw [List.map_cons, List.mapM_cons, digitOf_digit (hds d List.mem_cons_self),
        ih fun d' hd' => hds d' (List.mem_cons_of_mem d hd')]
      rfl

lemma numeral_lt {n d : ℕ} (hd : d ∈ numeral n) : d < 10 := by
  rw [numeral] at hd
  split_ifs at hd with hn
  · rw [List.mem_singleton.mp hd]
    decide
  · exact Nat.digits_lt_base (by decide) (List.mem_reverse.mp hd)

/-- A numeral is one zero, or does not begin with one. -/
lemma numeral_cases (n : ℕ) :
    (n = 0 ∧ numeral n = [0]) ∨
      ∃ d ds, numeral n = (d + 1) :: ds ∧ Nat.ofDigits 10 ((d + 1) :: ds).reverse = n := by
  rw [numeral]
  split_ifs with hn
  · exact Or.inl ⟨hn, rfl⟩
  · right
    have hne : Nat.digits 10 n ≠ [] := Nat.digits_ne_nil_iff_ne_zero.mpr hn
    have hlast := Nat.getLast_digit_ne_zero 10 hn
    cases hds : (Nat.digits 10 n).reverse with
    | nil => exact absurd (List.reverse_eq_nil_iff.mp hds) hne
    | cons d ds =>
        have hd : d ≠ 0 := by
          rw [List.getLast_eq_head_reverse] at hlast
          simpa [hds] using hlast
        cases d with
        | zero => exact absurd rfl hd
        | succ d =>
            refine ⟨d, ds, rfl, ?_⟩
            rw [← hds, List.reverse_reverse]
            exact Nat.ofDigits_digits 10 n

/-- The digits of a numeral have its value. -/
lemma numeral_eq (n : ℕ) :
    ∃ d ds, numeral n = d :: ds ∧ Nat.ofDigits 10 (d :: ds).reverse = n := by
  rcases numeral_cases n with ⟨rfl, hzero⟩ | ⟨d, ds, hds, hvalue⟩
  · exact ⟨0, [], hzero, rfl⟩
  · exact ⟨d + 1, ds, hds, hvalue⟩

/-- No digit is one of the signs. -/
lemma digit_ne {d : ℕ} (hd : d < 10) {b : UInt8} (hb : b.toNat < 0x30) : digit d ≠ b := by
  rintro rfl
  rw [toNat_digit hd] at hb
  omega

lemma parseNat_numeral (n : ℕ) : parseNat ((numeral n).map digit) = some n := by
  rw [parseNat, mapM_digitOf fun d => numeral_lt]
  rcases numeral_cases n with ⟨rfl, hzero⟩ | ⟨d, ds, hds, hvalue⟩
  · rw [hzero]
    rfl
  · rw [hds]
    exact congrArg some hvalue

/-- **What was written as a decimal is read back.** -/
theorem parseInt_decimal (n : ℤ) : parseInt (decimal n) = some n := by
  cases n with
  | ofNat n =>
      have hparse := parseNat_numeral n
      rcases numeral_eq n with ⟨d, ds, hds, -⟩
      have hd : d < 10 := numeral_lt (hds ▸ List.mem_cons_self)
      rw [decimal]
      rw [hds, List.map_cons] at hparse ⊢
      rw [parseInt, if_neg (digit_ne hd (by decide)), hparse]
      rfl
  | negSucc n =>
      rw [decimal, parseInt, if_pos rfl, parseNat_numeral]
      rfl

/-- The bytes of a decimal are digits, but for the sign. -/
lemma mem_decimal {n : ℤ} {b : UInt8} (hb : b ∈ decimal n) :
    b = 0x2D ∨ 0x30 ≤ b.toNat ∧ b.toNat ≤ 0x39 := by
  have hdigits : ∀ m, b ∈ (numeral m).map digit → 0x30 ≤ b.toNat ∧ b.toNat ≤ 0x39 := by
    intro m hm
    rcases List.mem_map.mp hm with ⟨d, hd, rfl⟩
    have hlt := numeral_lt hd
    rw [toNat_digit hlt]
    omega
  cases n with
  | ofNat n => exact Or.inr (hdigits n hb)
  | negSucc n =>
      rcases List.mem_cons.mp hb with rfl | hb
      · exact Or.inl rfl
      · exact Or.inr (hdigits (n + 1) hb)

/-! ## Bits -/

def getBit (bytes : Bytes) (offset : ℕ) : Bool :=
  (bytes.getD (offset / 8) 0).toBitVec.getLsbD (7 - offset % 8)

/-- The byte with one bit as given. -/
def setByte (b : UInt8) (i : ℕ) (bit : Bool) : UInt8 :=
  ⟨if bit then b.toBitVec ||| BitVec.twoPow 8 i else b.toBitVec &&& ~~~ BitVec.twoPow 8 i⟩

/-- The string, at least as long as it has to be for this byte. -/
def grow (bytes : Bytes) (i : ℕ) : Bytes := bytes ++ List.replicate (i + 1 - bytes.length) 0

def setBit (bytes : Bytes) (offset : ℕ) (bit : Bool) : Bytes :=
  let i := offset / 8
  (grow bytes i).set i (setByte (bytes.getD i 0) (7 - offset % 8) bit)

lemma getLsbD_setByte {b : UInt8} {i j : ℕ} {bit : Bool} (hj : j < 8) :
    (setByte b i bit).toBitVec.getLsbD j = if j = i then bit else b.toBitVec.getLsbD j := by
  cases bit with
  | false =>
      by_cases hij : j = i
      · subst hij
        simp [setByte, hj]
      · simp [setByte, hij, hj]
  | true =>
      by_cases hij : j = i
      · subst hij
        simp [setByte, hj]
      · simp [setByte, hij, Ne.symm hij]

lemma length_grow (bytes : Bytes) (i : ℕ) : i < (grow bytes i).length := by
  rw [grow, List.length_append, List.length_replicate]
  omega

/-- Growing adds nothing but zeros. -/
lemma getD_grow (bytes : Bytes) (i k : ℕ) : (grow bytes i).getD k 0 = bytes.getD k 0 := by
  rw [grow, List.getD_eq_getElem?_getD, List.getD_eq_getElem?_getD]
  rcases Nat.lt_or_ge k bytes.length with hk | hk
  · rw [List.getElem?_append_left hk]
  · rw [List.getElem?_append_right hk, List.getElem?_eq_none hk, List.getElem?_replicate]
    split_ifs <;> rfl

/-- **Setting a bit changes this bit alone.** -/
theorem getBit_setBit (bytes : Bytes) (offset p : ℕ) (bit : Bool) :
    getBit (setBit bytes offset bit) p = if p = offset then bit else getBit bytes p := by
  rw [getBit, setBit]
  by_cases hbyte : p / 8 = offset / 8
  · rw [hbyte, List.getD_eq_getElem?_getD, List.getElem?_set_self (length_grow bytes _),
      Option.getD_some, getLsbD_setByte (by omega)]
    by_cases hp : p = offset
    · rw [if_pos hp, if_pos (by omega)]
    · rw [if_neg hp, if_neg (by omega), getBit, hbyte]
  · have hp : p ≠ offset := fun hc => hbyte (hc ▸ rfl)
    rw [if_neg hp, List.getD_eq_getElem?_getD, List.getElem?_set_ne (Ne.symm hbyte),
      ← List.getD_eq_getElem?_getD, getD_grow, getBit]

/-- A string that is not there has no bit set. -/
@[simp] lemma getBit_nil (p : ℕ) : getBit [] p = false := by
  simp [getBit]

end Core
