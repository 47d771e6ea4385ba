import Mathlib.Algebra.Ring.Int.Parity
import Mathlib.Data.Int.ModEq
import Mathlib.Data.List.Nodup
import Mathlib.Data.Nat.Prime.Basic

/-!
# Double hashing

A table of `m` slots is probed at `start`, `start + step`, `start + 2 * step`, …, modulo `m`.

* `probe_mem` — every probe is a slot.
* `probes_nodup` — the first `k` probes are different, for `k` up to any divisor of `m` that is
  coprime to `step`.  The step need not be coprime to `m` itself: two equal probes are congruent
  modulo the divisor as well, and there the step can be cancelled.
* `probes_nodup_of_odd` — for an odd step, `k` may be as large as the power of 2 in `m`.
-/

namespace Core.DoubleHashing

/-- The slot probed in round `i`. -/
def probe (m start step : ℤ) (i : ℕ) : ℤ := (start + i * step) % m

variable {m start step : ℤ} {d k : ℕ}

theorem probe_mem (hm : 0 < m) (i : ℕ) : 0 ≤ probe m start step i ∧ probe m start step i < m :=
  ⟨Int.emod_nonneg _ hm.ne', Int.emod_lt_of_pos _ hm⟩

/-- Equal probes come from congruent rounds. -/
lemma modEq_of_probe_eq (hd : (d : ℤ) ∣ m) (hstep : Int.gcd d step = 1) {i j : ℕ}
    (h : probe m start step i = probe m start step j) : (i : ℤ) ≡ j [ZMOD d] := by
  have hm : start + i * step ≡ start + j * step [ZMOD m] := h
  have hmul : (i : ℤ) * step ≡ j * step [ZMOD d] := (hm.of_dvd hd).add_left_cancel' start
  rw [Int.modEq_iff_dvd, ← Int.sub_mul] at hmul
  rw [Int.modEq_iff_dvd]
  exact Int.dvd_of_dvd_mul_left_of_gcd_one hmul hstep

/-- **The probes are different.** -/
theorem probes_nodup (hd : (d : ℤ) ∣ m) (hstep : Int.gcd d step = 1) (hk : k ≤ d) :
    ((List.range k).map (probe m start step)).Nodup := by
  refine List.nodup_range.map_on fun i hi j hj h => ?_
  rw [List.mem_range] at hi hj
  have hmod : i ≡ j [MOD d] := Int.natCast_modEq_iff.mp (modEq_of_probe_eq hd hstep h)
  exact hmod.eq_of_lt_of_lt (by omega) (by omega)

/-- An odd step and a table size that a power of 2 divides. -/
theorem probes_nodup_of_odd {e : ℕ} (hd : ((2 ^ e : ℕ) : ℤ) ∣ m) (hodd : step % 2 = 1)
    (hk : k ≤ 2 ^ e) : ((List.range k).map (probe m start step)).Nodup := by
  refine probes_nodup hd ?_ hk
  have hnatAbs : Odd step.natAbs := Int.natAbs_odd.mpr (Int.odd_iff.mpr hodd)
  exact (Nat.coprime_two_left.mpr hnatAbs).pow_left e

end Core.DoubleHashing
