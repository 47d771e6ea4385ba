import RedisApi.Auth.Hashes
import RedisApi.Auth.NoFalseNegatives
import RedisApi.Core.DoubleHashing

/-!
# The seven positions of a username

`positions` reduces both hashes to `[0, 1000000)`, makes the second odd, and probes with double
hashing.  An odd step may share factors of 5 with the size `2 ^ 6 * 5 ^ 6` of the array, so the
probes do not visit every bit; but it is coprime to `2 ^ 6`, which is more than seven.

* `positions_eq` — the positions are probes of double hashing.
* `seven_positions` — they are seven different bits, and an addition sets them all.
-/

namespace RedisApi.Auth

open Core EcmaScript BloomFilter DoubleHashing

def h1 (value : JsString) : ℤ := remainder (fnv1a value) bitSize

def h2 (value : JsString) : ℤ :=
  let h2raw := remainder (djb2 value) bitSize
  if remainder h2raw 2 = 0 then h2raw + 1 else h2raw

/-- The first hash is a bit of the array. -/
lemma h1_bounds (value : JsString) : 0 ≤ h1 value ∧ h1 value < 1000000 := by
  have hnonneg := (fnv1a_isUint32 value).1
  rw [h1, remainder_of_nonneg _ hnonneg]
  exact ⟨Int.emod_nonneg _ (by decide), Int.emod_lt_of_pos _ (by decide)⟩

/-- The step is odd and below the size of the array. -/
lemma h2_bounds (value : JsString) : h2 value % 2 = 1 ∧ 0 < h2 value ∧ h2 value < 1000000 := by
  have hnonneg := (djb2_isUint32 value).1
  have hraw : remainder (djb2 value) bitSize = djb2 value % 1000000 :=
    remainder_of_nonneg _ hnonneg
  rw [h2, hraw, remainder_of_nonneg 2 (by omega)]
  split_ifs <;> omega

/-- No intermediate value is negative or too large for a number. -/
lemma intermediate_bounds (value : JsString) {i : ℕ} (hi : i < numHashes) :
    0 ≤ h1 value + i * h2 value ∧ h1 value + i * h2 value < 2 ^ 53 := by
  obtain ⟨h1_nonneg, h1_lt⟩ := h1_bounds value
  obtain ⟨-, h2_pos, h2_lt⟩ := h2_bounds value
  rw [numHashes] at hi
  have hmul : (0 : ℤ) ≤ i * h2 value := Int.mul_nonneg (by omega) (by omega)
  have hle : (i : ℤ) * h2 value ≤ 6 * 1000000 :=
    Int.mul_le_mul (by omega) (by omega) (by omega) (by omega)
  omega

/-- **The positions are the probes of double hashing.** -/
lemma positions_eq (value : JsString) :
    positions value = (List.range numHashes).map (probe bitSize (h1 value) (h2 value)) := by
  refine List.map_congr_left fun i hi => ?_
  exact remainder_of_nonneg _ (intermediate_bounds value (List.mem_range.mp hi)).1

/-- `1000000 = 2 ^ 6 * 5 ^ 6`. -/
lemma positions_nodup (value : JsString) : (positions value).Nodup := by
  rw [positions_eq]
  have hsize : ((2 ^ 6 : ℕ) : ℤ) ∣ bitSize := ⟨5 ^ 6, by decide⟩
  exact probes_nodup_of_odd hsize (h2_bounds value).1 (by decide)

lemma positions_bounds (value : JsString) : ∀ p ∈ positions value, 0 ≤ p ∧ p < 1000000 := by
  intro p hp
  rw [positions_eq] at hp
  obtain ⟨i, -, rfl⟩ := List.mem_map.mp hp
  exact probe_mem (by decide) i

/-- **Every username has seven different valid bits**, from intermediate values that are exact; and
whatever else goes on, once `add` has completed all seven are set. -/
theorem seven_positions (value : JsString) :
    (positions value).length = 7 ∧ (positions value).Nodup ∧
      (∀ p ∈ positions value, 0 ≤ p ∧ p < 1000000) ∧
      (∀ i < numHashes, 0 ≤ h1 value + i * h2 value ∧ h1 value + i * h2 value < 2 ^ 53) ∧
      ∀ stores h s o, auth.Reaches (State.start stores) h s → Completes value o → o ∈ h →
        ∀ p ∈ positions value, s.stores.bits p = true := by
  refine ⟨?_, positions_nodup value, positions_bounds value, ?_, ?_⟩
  · rw [positions_eq, List.length_map, List.length_range]
    rfl
  · exact fun i hi => intermediate_bounds value hi
  · intro stores h s o hr hdone ho
    exact (members_of_reaches hr).hits value o ho hdone

theorem seven_positions_bob : (positions (js "bob")).Nodup ∧ ∃ s h,
    auth.run (State.start .empty) ([.call (.add (js "bob"))] ++ answersAll 0 ++ [.resume 0]) =
      some (s, h) ∧ ∀ p ∈ positions (js "bob"), s.stores.bits p = true := by
  have hadded : (auth.run (State.start .empty)
      ([.call (.add (js "bob"))] ++ answersAll 0 ++ [.resume 0])).any (fun r =>
        decide (.ended 0 (.add (js "bob")) .added ∈ r.2)) = true := by
    decide +kernel
  obtain ⟨⟨s, h⟩, hrun, hmem⟩ := (Option.any_eq_true _ _).mp hadded
  obtain ⟨-, hnodup, -, -, hset⟩ := seven_positions (js "bob")
  exact ⟨hnodup, s, h, hrun, hset _ h s _ (Machine.reaches_of_run hrun) (.added 0)
    (of_decide_eq_true hmem)⟩

end RedisApi.Auth
