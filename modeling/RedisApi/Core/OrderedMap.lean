import Mathlib.Data.List.Nodup
import Mathlib.Tactic.Common

/-!
# Insertion-ordered maps

The ECMAScript `Map`: a finite map that remembers the order in which its keys were first set.
Setting a key that is already there replaces the value in place; setting a new key appends it.
`values` lists the values in that order.

That no key occurs twice is a field of the structure, so it is never re-proved by a user of the
map: `get_set` and `mem_entries_iff` are what a loop invariant about a map needs.
-/

namespace Core

/-- A finite map with its entries in insertion order. -/
structure OrderedMap (K V : Type*) where
  entries : List (K × V)
  nodup : (entries.map Prod.fst).Nodup

namespace OrderedMap

variable {K V : Type*}

/-- `new Map()` -/
def empty : OrderedMap K V where
  entries := []
  nodup := List.nodup_nil

/-- `Array.from(map.values())` -/
def values (m : OrderedMap K V) : List V := m.entries.map Prod.snd

variable [DecidableEq K]

/-- `map.get(k)` -/
def get (m : OrderedMap K V) (k : K) : Option V :=
  (m.entries.find? fun e => e.1 = k).map Prod.snd

/-- The entries after `map.set(k, v)`. -/
def setEntries (k : K) (v : V) : List (K × V) → List (K × V)
  | [] => [(k, v)]
  | e :: es => if e.1 = k then (k, v) :: es else e :: setEntries k v es

lemma mem_keys_setEntries (k : K) (v : V) : ∀ (es : List (K × V)) (x : K),
    x ∈ (setEntries k v es).map Prod.fst ↔ x = k ∨ x ∈ es.map Prod.fst
  | [], x => by simp [setEntries]
  | e :: es, x => by
      rw [setEntries]
      split_ifs with h
      · simp [h]
      · rw [List.map_cons, List.mem_cons, mem_keys_setEntries k v es x, List.map_cons,
          List.mem_cons]
        tauto

lemma nodup_setEntries (k : K) (v : V) : ∀ es : List (K × V),
    (es.map Prod.fst).Nodup → ((setEntries k v es).map Prod.fst).Nodup
  | [], _ => by simp [setEntries]
  | e :: es, h => by
      rw [List.map_cons, List.nodup_cons] at h
      rw [setEntries]
      split_ifs with he
      · rw [List.map_cons, List.nodup_cons]
        exact ⟨he ▸ h.1, h.2⟩
      · rw [List.map_cons, List.nodup_cons, mem_keys_setEntries]
        refine ⟨?_, nodup_setEntries k v es h.2⟩
        rintro (hk | hk)
        · exact he hk
        · exact h.1 hk

/-- `map.set(k, v)` -/
def set (m : OrderedMap K V) (k : K) (v : V) : OrderedMap K V where
  entries := setEntries k v m.entries
  nodup := nodup_setEntries k v m.entries m.nodup

/-! ## Lookup -/

lemma find?_eq_some_iff_of_nodup {k : K} {v : V} {es : List (K × V)}
    (h : (es.map Prod.fst).Nodup) :
    (es.find? fun e => e.1 = k).map Prod.snd = some v ↔ (k, v) ∈ es := by
  induction es with
  | nil => simp
  | cons e es ih =>
      rw [List.map_cons, List.nodup_cons] at h
      by_cases he : e.1 = k
      · have hnot : (k, v) ∉ es := fun hm => h.1 (he ▸ List.mem_map.mpr ⟨_, hm, rfl⟩)
        obtain ⟨a, b⟩ := e
        simp only at he
        subst he
        simp [hnot, eq_comm]
      · rw [List.find?_cons_of_neg (by simpa using he), ih h.2, List.mem_cons]
        constructor
        · exact Or.inr
        · rintro (hk | hk)
          · exact absurd (congrArg Prod.fst hk).symm he
          · exact hk

/-- A key is looked up to the value it is listed with. -/
theorem mem_entries_iff (m : OrderedMap K V) (k : K) (v : V) :
    (k, v) ∈ m.entries ↔ m.get k = some v :=
  (find?_eq_some_iff_of_nodup m.nodup).symm

lemma mem_setEntries {k k' : K} {v v' : V} {es : List (K × V)} (h : (es.map Prod.fst).Nodup) :
    (k', v') ∈ setEntries k v es ↔ (k' = k ∧ v' = v) ∨ (k' ≠ k ∧ (k', v') ∈ es) := by
  induction es with
  | nil =>
      simp only [setEntries, List.mem_singleton, Prod.mk.injEq, List.not_mem_nil, and_false,
        or_false]
  | cons e es ih =>
      rw [List.map_cons, List.nodup_cons] at h
      rw [setEntries]
      split_ifs with he
      · subst he
        have hnot : ∀ w, (e.1, w) ∉ es := fun w hm => h.1 (List.mem_map.mpr ⟨_, hm, rfl⟩)
        obtain ⟨a, b⟩ := e
        by_cases hk : k' = a
        · subst hk; simp [hnot]
        · simp [hk]
      · rw [List.mem_cons, ih h.2, List.mem_cons]
        by_cases hk : k' = k
        · subst hk
          have hne : (k', v') ≠ e := fun hc => he (congrArg Prod.fst hc).symm
          simp [hne]
        · simp [hk]

/-- **Lookup after an update.** -/
theorem get_set (m : OrderedMap K V) (k k' : K) (v : V) :
    (m.set k v).get k' = if k' = k then some v else m.get k' := by
  have key : ∀ v', (m.set k v).get k' = some v' ↔
      (if k' = k then some v else m.get k') = some v' := by
    intro v'
    rw [← mem_entries_iff, show (m.set k v).entries = setEntries k v m.entries from rfl,
      mem_setEntries m.nodup, mem_entries_iff]
    by_cases hk : k' = k
    · simp [hk, eq_comm]
    · simp [hk]
  exact Option.ext key

end OrderedMap

end Core
