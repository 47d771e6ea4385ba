import RedisApi.Auth.BloomFilter
import Mathlib.Data.List.Induction
import Mathlib.Tactic.NormNum

/-!
# The hashes of a username

`fnv1a` and `djb2` go back and forth between signed and unsigned 32-bit numbers: `^` and
`Math.imul` yield signed ones, `>>> 0` makes them unsigned again.  Each loop nevertheless computes a
hash that is defined on natural numbers alone.

* `fnv1aNat`, `djb2Nat` — these hashes.
* `fnv1a_eq`, `djb2_eq` — the loops compute them.  A round reads the 32 bits behind the number, and
  these are the same whether the number is taken as signed or as unsigned.
* `hashes_modular` — both together, with the range of the results and the negative numbers on the
  way.
-/

namespace RedisApi.Auth

open Core EcmaScript

/-- FNV-1a with 32 bits. -/
def fnv1aNat (value : JsString) : ℕ :=
  value.foldl (fun h c => (h ^^^ c.toNat) * 16777619 % 2 ^ 32) 2166136261

/-- DJB2 with 32 bits. -/
def djb2Nat (value : JsString) : ℕ :=
  value.foldl (fun h c => (h * 33 % 2 ^ 32) ^^^ c.toNat) 5381

/-- A code unit fits in 32 bits. -/
lemma codeUnit_lt (c : UInt16) : c.toNat < 2 ^ 32 :=
  lt_trans c.toNat_lt (by norm_num)

/-! ## One round -/

/-- A round of `fnv1a`. -/
lemma fnv1a_round {h : ℕ} (c : UInt16) (hh : h < 2 ^ 32) :
    toUint32 (imul (bitXor h c.toNat) 0x01000193) =
      ((h ^^^ c.toNat) * 16777619 % 2 ^ 32 : ℕ) := by
  have hxor : h ^^^ c.toNat < 2 ^ 32 := Nat.xor_lt_two_pow hh (codeUnit_lt c)
  have hprime : word 0x01000193 = BitVec.ofNat 32 16777619 := rfl
  rw [toUint32_eq, word_imul, word_bitXor, word_natCast, word_natCast, hprime, ← BitVec.ofNat_xor,
    BitVec.toNat_mul, BitVec.toNat_ofNat, BitVec.toNat_ofNat, Nat.mod_eq_of_lt hxor]

/-- A round of `djb2`. -/
lemma djb2_round (h : ℕ) (c : UInt16) :
    toUint32 (bitXor (imul h 33) c.toNat) = ((h * 33 % 2 ^ 32) ^^^ c.toNat : ℕ) := by
  have hfactor : word 33 = BitVec.ofNat 32 33 := rfl
  rw [toUint32_eq, word_bitXor, word_imul, word_natCast, word_natCast, hfactor, BitVec.toNat_xor,
    ← BitVec.ofNat_mul, BitVec.toNat_ofNat, BitVec.toNat_ofNat, Nat.mod_eq_of_lt (codeUnit_lt c)]

/-! ## The loops -/

lemma fnv1a_concat (value : JsString) (c : UInt16) :
    fnv1a (value ++ [c]) = toUint32 (imul (bitXor (fnv1a value) c.toNat) 0x01000193) := by
  rw [fnv1a, List.foldl_append, List.foldl_cons, List.foldl_nil, fnv1a]

lemma djb2_concat (value : JsString) (c : UInt16) :
    djb2 (value ++ [c]) = toUint32 (bitXor (imul (djb2 value) 33) c.toNat) := by
  rw [djb2, List.foldl_append, List.foldl_cons, List.foldl_nil, djb2]

lemma fnv1aNat_concat (value : JsString) (c : UInt16) :
    fnv1aNat (value ++ [c]) = (fnv1aNat value ^^^ c.toNat) * 16777619 % 2 ^ 32 := by
  rw [fnv1aNat, List.foldl_append, List.foldl_cons, List.foldl_nil, fnv1aNat]

lemma djb2Nat_concat (value : JsString) (c : UInt16) :
    djb2Nat (value ++ [c]) = (djb2Nat value * 33 % 2 ^ 32) ^^^ c.toNat := by
  rw [djb2Nat, List.foldl_append, List.foldl_cons, List.foldl_nil, djb2Nat]

lemma fnv1aNat_lt (value : JsString) : fnv1aNat value < 2 ^ 32 := by
  cases value using List.reverseRecOn with
  | nil => norm_num [fnv1aNat]
  | append_singleton value c =>
      rw [fnv1aNat_concat]
      exact Nat.mod_lt _ (by norm_num)

lemma djb2Nat_lt (value : JsString) : djb2Nat value < 2 ^ 32 := by
  cases value using List.reverseRecOn with
  | nil => norm_num [djb2Nat]
  | append_singleton value c =>
      rw [djb2Nat_concat]
      exact Nat.xor_lt_two_pow (Nat.mod_lt _ (by norm_num)) (codeUnit_lt c)

/-- **`fnv1a` is FNV-1a.** -/
theorem fnv1a_eq (value : JsString) : fnv1a value = fnv1aNat value := by
  induction value using List.reverseRecOn with
  | nil => rfl
  | append_singleton value c ih =>
      rw [fnv1a_concat, fnv1aNat_concat, ih]
      exact fnv1a_round c (fnv1aNat_lt value)

/-- **`djb2` is DJB2.** -/
theorem djb2_eq (value : JsString) : djb2 value = djb2Nat value := by
  induction value using List.reverseRecOn with
  | nil => rfl
  | append_singleton value c ih =>
      rw [djb2_concat, djb2Nat_concat, ih]
      exact djb2_round _ c

lemma fnv1a_isUint32 (value : JsString) : IsUint32 (fnv1a value) := by
  rw [fnv1a_eq]
  exact isUint32_natCast (fnv1aNat_lt value)

lemma djb2_isUint32 (value : JsString) : IsUint32 (djb2 value) := by
  rw [djb2_eq]
  exact isUint32_natCast (djb2Nat_lt value)

/-- **The loops compute the hashes on natural numbers**, for every string, and end between `0` and
`2 ^ 32`; what a round computes before its `>>> 0` is negative for some strings. -/
theorem hashes_modular :
    (∀ value, fnv1a value = fnv1aNat value ∧ djb2 value = djb2Nat value ∧
      IsUint32 (fnv1a value) ∧ IsUint32 (djb2 value)) ∧
    (∃ value, ∃ c : UInt16, bitXor (fnv1a value) c.toNat < 0 ∧
      imul (bitXor (fnv1a value) c.toNat) 0x01000193 < 0) ∧
    ∃ value, ∃ c : UInt16, imul (djb2 value) 33 < 0 ∧
      bitXor (imul (djb2 value) 33) c.toNat < 0 := by
  refine ⟨fun value => ⟨fnv1a_eq value, djb2_eq value, ?_, ?_⟩, ?_, ?_⟩
  · exact fnv1a_isUint32 value
  · exact djb2_isUint32 value
  · exact ⟨[], 0x61, by decide, by decide⟩
  · exact ⟨js "charlie", 0x73, by decide +kernel, by decide +kernel⟩

end RedisApi.Auth
