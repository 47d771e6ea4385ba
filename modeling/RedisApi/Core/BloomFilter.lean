import Mathlib.Data.Set.Insert
import Mathlib.Logic.Function.Basic
import Mathlib.Tactic.Common

/-!
# Bloom filters

A Bloom filter keeps a set by its cells: every element has a list of probes, adding an element sets
the cells that it probes, and no cell is ever reset.  An element *hits* where all of its probes are
set.

* `Hits.mono` — a hit stays a hit: no false negatives, once an element hits.
* `Represents` — the cells are those that the elements of a set probe.
* `Represents.hits_iff` — what hits then: the elements whose probes are covered by those of the
  set.
-/

namespace Core.BloomFilter

variable {α β : Type*} {probes : α → List β} {cells cells' : β → Bool} {S : Set α} {x : α}

/-- All probes of `x` are set. -/
def Hits (probes : α → List β) (cells : β → Bool) (x : α) : Prop := ∀ p ∈ probes x, cells p = true

/-- The cells that are set are the probes of the elements of `S`. -/
def Represents (probes : α → List β) (cells : β → Bool) (S : Set α) : Prop :=
  ∀ p, cells p = true ↔ ∃ x ∈ S, p ∈ probes x

/-- Cells are only ever set, so a hit stays a hit. -/
theorem Hits.mono (hx : Hits probes cells x) (hcells : ∀ p, cells p = true → cells' p = true) :
    Hits probes cells' x :=
  fun p hp => hcells p (hx p hp)

/-- Setting a cell. -/
theorem update_eq_true [DecidableEq β] {p q : β} :
    Function.update cells p true q = true ↔ cells q = true ∨ p = q := by
  rw [Function.update_apply]
  split_ifs with hqp
  · exact ⟨fun _ => Or.inr hqp.symm, fun _ => rfl⟩
  · exact ⟨Or.inl, fun h => h.resolve_right fun hc => hqp hc.symm⟩

/-- **What hits**: the elements of the set, and the false positives that they cover. -/
theorem Represents.hits_iff (hS : Represents probes cells S) :
    Hits probes cells x ↔ ∀ p ∈ probes x, ∃ y ∈ S, p ∈ probes y :=
  forall₂_congr fun p _ => hS p

end Core.BloomFilter
