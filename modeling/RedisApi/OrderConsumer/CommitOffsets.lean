import RedisApi.Core.OrderedMap
import RedisApi.OrderConsumer.Order
import Mathlib.Data.List.Induction
import Mathlib.Data.Nat.Basic

/-!
# `commitOffsets`

Per partition, the batch's highest offset plus one is committed.  The loop folds the batch into a
`Map` from partition to the entry with the highest offset so far, comparing offsets as integers
(`BigInt`), and hands `Array.from(map.values())` to `consumer.commitOffsets`.

* `highestOffsets_get` — the loop invariant at the end of the loop: what the map holds for a
  partition is the batch's event of that partition with the greatest offset.
* `commitOffsets_maximum` — what the list passed on holds, whatever the order of the batch.
* `commit` — what the call does at the broker, and `commit_commitOffsets`, what a partition's
  committed offset is afterwards.
-/

namespace RedisApi

open Core

/-- An entry of `consumer.commitOffsets([{ topic, partition, offset }, …])`. -/
structure TopicPartitionOffset where
  topic : String
  partition : ℕ
  offset : String
  deriving DecidableEq, Repr

/-- The entry the loop stores for an event. -/
def BufferedEvent.entry (e : BufferedEvent) : TopicPartitionOffset where
  topic := e.context.topic
  partition := e.context.partition
  offset := e.context.offset

/-- One round of the loop: `if (!prev || BigInt(offset) > BigInt(prev.offset)) map.set(…)`. -/
def visitEvent (map : OrderedMap ℕ TopicPartitionOffset) (e : BufferedEvent) :
    OrderedMap ℕ TopicPartitionOffset :=
  match map.get e.partition with
  | none => map.set e.partition e.entry
  | some prev =>
      if bigInt prev.offset < e.offset then map.set e.partition e.entry else map

/-- The map after the loop. -/
def highestOffsets (batch : List BufferedEvent) : OrderedMap ℕ TopicPartitionOffset :=
  batch.foldl visitEvent OrderedMap.empty

/-- The list that is passed to `consumer.commitOffsets`. -/
def commitOffsets (batch : List BufferedEvent) : List TopicPartitionOffset :=
  (highestOffsets batch).values.map fun x => { x with offset := (bigInt x.offset + 1).repr }

/-! ## The loop -/

/-- `e` is an event of partition `p` in the batch, and none of that partition is above it. -/
def IsHighest (batch : List BufferedEvent) (p : ℕ) (e : BufferedEvent) : Prop :=
  e ∈ batch ∧ e.partition = p ∧ ∀ e' ∈ batch, e'.partition = p → e'.offset ≤ e.offset

lemma highestOffsets_append (batch : List BufferedEvent) (e : BufferedEvent) :
    highestOffsets (batch ++ [e]) = visitEvent (highestOffsets batch) e := by
  rw [highestOffsets, List.foldl_append]
  rfl

/-- A round at another partition leaves the entry alone. -/
lemma visitEvent_get_of_ne {map : OrderedMap ℕ TopicPartitionOffset} {e : BufferedEvent} {p : ℕ}
    (h : p ≠ e.partition) : (visitEvent map e).get p = map.get p := by
  rw [visitEvent]
  cases map.get e.partition with
  | none => rw [OrderedMap.get_set, if_neg h]
  | some prev =>
      dsimp only
      split_ifs
      · rw [OrderedMap.get_set, if_neg h]
      · rfl

/-- A round at its own partition keeps the higher of the two entries. -/
lemma visitEvent_get_self (map : OrderedMap ℕ TopicPartitionOffset) (e : BufferedEvent) :
    (visitEvent map e).get e.partition =
      match map.get e.partition with
      | none => some e.entry
      | some prev => if bigInt prev.offset < e.offset then some e.entry else some prev := by
  rw [visitEvent]
  cases hget : map.get e.partition with
  | none =>
      dsimp only
      rw [OrderedMap.get_set, if_pos rfl]
  | some prev =>
      dsimp only
      split_ifs
      · rw [OrderedMap.get_set, if_pos rfl]
      · exact hget

/-- A highest event stays one if the event that comes is not above it. -/
lemma IsHighest.append {batch : List BufferedEvent} {p : ℕ} {d e : BufferedEvent}
    (hd : IsHighest batch p d) (he : e.partition = p → e.offset ≤ d.offset) :
    IsHighest (batch ++ [e]) p d := by
  refine ⟨List.mem_append_left _ hd.1, hd.2.1, ?_⟩
  intro e' he' hp'
  rcases List.mem_append.mp he' with he' | he'
  · exact hd.2.2 e' he' hp'
  · rw [List.mem_singleton.mp he'] at hp' ⊢
    exact he hp'

/-- The event that comes is a highest one if it is above those that are there. -/
lemma isHighest_concat {batch : List BufferedEvent} {e : BufferedEvent}
    (he : ∀ e' ∈ batch, e'.partition = e.partition → e'.offset ≤ e.offset) :
    IsHighest (batch ++ [e]) e.partition e := by
  refine ⟨by simp, rfl, ?_⟩
  intro e' he' hp'
  rcases List.mem_append.mp he' with he' | he'
  · exact he e' he' hp'
  · rw [List.mem_singleton.mp he']

/-- **The loop invariant.**  For each partition the map holds the entry of a highest event of the
batch, and holds nothing exactly when the batch has no event of it. -/
theorem highestOffsets_get (batch : List BufferedEvent) (p : ℕ) :
    (∃ e, IsHighest batch p e ∧ (highestOffsets batch).get p = some e.entry) ∨
      ((∀ e ∈ batch, e.partition ≠ p) ∧ (highestOffsets batch).get p = none) := by
  induction batch using List.reverseRecOn with
  | nil => exact Or.inr ⟨by simp, rfl⟩
  | append_singleton batch e ih =>
      rw [highestOffsets_append]
      by_cases hp : e.partition = p
      · subst hp
        left
        rw [visitEvent_get_self]
        rcases ih with ⟨d, hd, hget⟩ | ⟨hnone, hget⟩
        · rw [hget]
          dsimp only
          split_ifs with hlt
          · refine ⟨e, isHighest_concat fun e' he' hp' => ?_, rfl⟩
            exact le_trans (hd.2.2 e' he' hp') (le_of_lt hlt)
          · exact ⟨d, hd.append fun _ => not_lt.mp hlt, rfl⟩
        · rw [hget]
          exact ⟨e, isHighest_concat fun e' he' hp' => absurd hp' (hnone e' he'), rfl⟩
      · rw [visitEvent_get_of_ne (Ne.symm hp)]
        rcases ih with ⟨d, hd, hget⟩ | ⟨hnone, hget⟩
        · exact Or.inl ⟨d, hd.append fun hc => absurd hc hp, hget⟩
        · refine Or.inr ⟨?_, hget⟩
          intro e' he'
          rcases List.mem_append.mp he' with he' | he'
          · exact hnone e' he'
          · exact List.mem_singleton.mp he' ▸ hp

/-- Every listed entry is the entry of a highest event of its own partition. -/
lemma isHighest_of_mem_entries {batch : List BufferedEvent} {p : ℕ} {x : TopicPartitionOffset}
    (h : (p, x) ∈ (highestOffsets batch).entries) : ∃ e, IsHighest batch p e ∧ x = e.entry := by
  have hget := (OrderedMap.mem_entries_iff _ _ _).mp h
  rcases highestOffsets_get batch p with ⟨e, he, hsome⟩ | ⟨-, hnone⟩
  · exact ⟨e, he, Option.some.inj (hget.symm.trans hsome)⟩
  · exact absurd (hget.symm.trans hnone) (by simp)

/-- The partitions of the committed list are the keys of the map, in order. -/
lemma commitOffsets_partitions (batch : List BufferedEvent) :
    (commitOffsets batch).map TopicPartitionOffset.partition
      = (highestOffsets batch).entries.map Prod.fst := by
  rw [commitOffsets, OrderedMap.values, List.map_map, List.map_map]
  refine List.map_congr_left fun e he => ?_
  obtain ⟨d, hd, hx⟩ := isHighest_of_mem_entries (p := e.1) (x := e.2) he
  show e.2.partition = e.1
  rw [hx, ← hd.2.1]
  rfl

/-- **No partition is committed twice in one call.** -/
theorem commitOffsets_nodup (batch : List BufferedEvent) :
    ((commitOffsets batch).map TopicPartitionOffset.partition).Nodup := by
  rw [commitOffsets_partitions]
  exact (highestOffsets batch).nodup

/-- The entry that is committed for a partition whose highest event is `e`. -/
def BufferedEvent.committed (e : BufferedEvent) : TopicPartitionOffset where
  topic := e.context.topic
  partition := e.partition
  offset := (e.offset + 1).repr

/-- Every committed entry is that of a highest event of its partition. -/
lemma isHighest_of_mem_commitOffsets {batch : List BufferedEvent} {x : TopicPartitionOffset}
    (h : x ∈ commitOffsets batch) : ∃ e, IsHighest batch x.partition e ∧ x = e.committed := by
  obtain ⟨y, hy, rfl⟩ := List.mem_map.mp h
  obtain ⟨e, he, rfl⟩ := List.mem_map.mp hy
  obtain ⟨d, hd, hx⟩ := isHighest_of_mem_entries (p := e.1) (x := e.2) he
  rw [hx]
  refine ⟨d, ?_, rfl⟩
  show IsHighest batch d.partition d
  rw [hd.2.1]
  exact hd

/-- **What is committed for a partition**: the highest offset of the batch plus one. -/
theorem mem_commitOffsets {batch : List BufferedEvent} {x : TopicPartitionOffset}
    (h : x ∈ commitOffsets batch) :
    ∃ e, IsHighest batch x.partition e ∧ bigInt x.offset = e.offset + 1 := by
  obtain ⟨e, he, hx⟩ := isHighest_of_mem_commitOffsets h
  refine ⟨e, he, ?_⟩
  rw [hx]
  exact bigInt_repr _

/-- A partition that occurs in the batch is committed. -/
lemma partition_mem_commitOffsets {batch : List BufferedEvent} {e : BufferedEvent}
    (he : e ∈ batch) :
    e.partition ∈ (commitOffsets batch).map TopicPartitionOffset.partition := by
  rw [commitOffsets_partitions]
  rcases highestOffsets_get batch e.partition with ⟨d, -, hsome⟩ | ⟨hnone, -⟩
  · exact List.mem_map.mpr ⟨_, (OrderedMap.mem_entries_iff _ _ _).mpr hsome, rfl⟩
  · exact absurd rfl (hnone e he)

/-! ## The order of the batch -/

/-- The highest events of a partition have one offset. -/
lemma IsHighest.offset_eq {batch : List BufferedEvent} {p : ℕ} {d e : BufferedEvent}
    (hd : IsHighest batch p d) (he : IsHighest batch p e) : d.offset = e.offset :=
  le_antisymm (he.2.2 d hd.1 hd.2.1) (hd.2.2 e he.1 he.2.1)

/-- Which events are the highest is a matter of what is in the batch. -/
lemma IsHighest.perm {batch batch' : List BufferedEvent} {p : ℕ} {e : BufferedEvent}
    (he : IsHighest batch p e) (hperm : batch'.Perm batch) : IsHighest batch' p e :=
  ⟨hperm.mem_iff.mpr he.1, he.2.1, fun e' he' => he.2.2 e' (hperm.mem_iff.mp he')⟩

/-- **The committed list as a set**, for a batch of one topic. -/
lemma mem_commitOffsets_iff {topic : String} {batch : List BufferedEvent}
    (htopic : ∀ e ∈ batch, e.context.topic = topic) {x : TopicPartitionOffset} :
    x ∈ commitOffsets batch ↔ ∃ e, IsHighest batch x.partition e ∧ x = e.committed := by
  refine ⟨isHighest_of_mem_commitOffsets, ?_⟩
  rintro ⟨e, he, rfl⟩
  -- the partition is committed, with the entry of some highest event of it
  obtain ⟨x, hx, hpartition⟩ := List.mem_map.mp (partition_mem_commitOffsets he.1)
  obtain ⟨d, hd, rfl⟩ := isHighest_of_mem_commitOffsets hx
  have hhighest : IsHighest batch e.partition d := hpartition ▸ hd
  have hoffset : d.offset = e.offset := hhighest.offset_eq he
  have heq : d.committed = e.committed := by
    rw [BufferedEvent.committed, BufferedEvent.committed, hoffset, hhighest.2.1,
      htopic d hd.1, htopic e he.1]
  rwa [← heq]

lemma commitOffsets_perm {topic : String} {batch batch' : List BufferedEvent}
    (htopic : ∀ e ∈ batch, e.context.topic = topic) (hperm : batch'.Perm batch) :
    (commitOffsets batch').Perm (commitOffsets batch) := by
  have htopic' : ∀ e ∈ batch', e.context.topic = topic :=
    fun e he => htopic e (hperm.mem_iff.mp he)
  have hnodup : ∀ b, (commitOffsets b).Nodup := fun b => (commitOffsets_nodup b).of_map
  rw [List.perm_ext_iff_of_nodup (hnodup batch') (hnodup batch)]
  intro x
  rw [mem_commitOffsets_iff htopic, mem_commitOffsets_iff htopic']
  constructor
  · rintro ⟨e, he, hx⟩
    exact ⟨e, he.perm hperm.symm, hx⟩
  · rintro ⟨e, he, hx⟩
    exact ⟨e, he.perm hperm, hx⟩

/-- **`commitOffsets` commits the maximum of each partition, plus one.**  For a batch of one topic
there is one entry for each partition of the batch and no other; its offset is the decimal form of
the highest offset of the partition, plus one; and the order of the batch does not matter but for
the order of the entries. -/
theorem commitOffsets_maximum {topic : String} {batch : List BufferedEvent}
    (htopic : ∀ e ∈ batch, e.context.topic = topic) :
    ((commitOffsets batch).map TopicPartitionOffset.partition).Nodup ∧
      (∀ p, p ∈ (commitOffsets batch).map TopicPartitionOffset.partition ↔
        ∃ e ∈ batch, e.partition = p) ∧
      (∀ x ∈ commitOffsets batch, x.topic = topic ∧
        ∃ e, IsHighest batch x.partition e ∧ x.offset = (e.offset + 1).repr) ∧
      ∀ batch', batch'.Perm batch → (commitOffsets batch').Perm (commitOffsets batch) := by
  refine ⟨commitOffsets_nodup batch, fun p => ⟨?_, ?_⟩, ?_, ?_⟩
  · intro hp
    rcases List.mem_map.mp hp with ⟨x, hx, rfl⟩
    rcases isHighest_of_mem_commitOffsets hx with ⟨e, he, -⟩
    exact ⟨e, he.1, he.2.1⟩
  · rintro ⟨e, he, rfl⟩
    exact partition_mem_commitOffsets he
  · intro x hx
    rcases isHighest_of_mem_commitOffsets hx with ⟨e, he, rfl⟩
    exact ⟨htopic e he.1, e, he, rfl⟩
  · intro batch' hperm
    exact commitOffsets_perm htopic hperm

/-- Three partitions' worth of events out of order; 2 ^ 53 + 1 comes before 9 as a string. -/
def interleaved : List BufferedEvent :=
  [eventAt 1 "9", eventAt 0 "10", eventAt 1 "9007199254740993", eventAt 0 "9", eventAt 2 "0"]

theorem commitOffsets_maximum_interleaved :
    ((commitOffsets interleaved).map TopicPartitionOffset.partition).Nodup ∧
      (∀ x ∈ commitOffsets interleaved,
        ∃ e, IsHighest interleaved x.partition e ∧ x.offset = (e.offset + 1).repr) ∧
      (commitOffsets interleaved.reverse).Perm (commitOffsets interleaved) := by
  have htopic : ∀ e ∈ interleaved, e.context.topic = "inventory.item-used" := by decide
  obtain ⟨hnodup, -, hmax, hperm⟩ := commitOffsets_maximum htopic
  exact ⟨hnodup, fun x hx => (hmax x hx).2, hperm _ (List.reverse_perm _)⟩

/-! ## At the broker -/

/-- The group's committed offsets after a commit of the listed entries. -/
def commit (committed : ℕ → ℕ) (offsets : List TopicPartitionOffset) : ℕ → ℕ :=
  offsets.foldl (fun c x => Function.update c x.partition (bigInt x.offset)) committed

lemma commit_of_not_mem {p : ℕ} {offsets : List TopicPartitionOffset} (committed : ℕ → ℕ)
    (h : p ∉ offsets.map TopicPartitionOffset.partition) :
    commit committed offsets p = committed p := by
  induction offsets generalizing committed with
  | nil => rfl
  | cons x xs ih =>
      rw [List.map_cons, List.mem_cons, not_or] at h
      rw [commit, List.foldl_cons]
      show commit _ xs p = _
      rw [ih _ h.2, Function.update_of_ne h.1]

lemma commit_of_mem {x : TopicPartitionOffset} {offsets : List TopicPartitionOffset}
    (committed : ℕ → ℕ) (hnd : (offsets.map TopicPartitionOffset.partition).Nodup)
    (hx : x ∈ offsets) : commit committed offsets x.partition = bigInt x.offset := by
  induction offsets generalizing committed with
  | nil => exact absurd hx List.not_mem_nil
  | cons y ys ih =>
      rw [List.map_cons, List.nodup_cons] at hnd
      rw [commit, List.foldl_cons]
      show commit _ ys x.partition = _
      rcases List.mem_cons.mp hx with rfl | hx
      · rw [commit_of_not_mem _ hnd.1, Function.update_self]
      · exact ih _ hnd.2 hx

/-- **A partition's committed offset after `commitOffsets(batch)`**: one above the highest event
of the batch in that partition, and what it was where the batch has no event. -/
theorem commit_commitOffsets (committed : ℕ → ℕ) (batch : List BufferedEvent) (p : ℕ) :
    (∃ e, IsHighest batch p e ∧ commit committed (commitOffsets batch) p = e.offset + 1) ∨
      ((∀ e ∈ batch, e.partition ≠ p) ∧
        commit committed (commitOffsets batch) p = committed p) := by
  by_cases hp : p ∈ (commitOffsets batch).map TopicPartitionOffset.partition
  · obtain ⟨x, hx, rfl⟩ := List.mem_map.mp hp
    obtain ⟨e, he, hoff⟩ := mem_commitOffsets hx
    refine Or.inl ⟨e, he, ?_⟩
    rw [commit_of_mem _ (commitOffsets_nodup batch) hx, hoff]
  · refine Or.inr ⟨?_, commit_of_not_mem _ hp⟩
    rintro e he rfl
    exact hp (partition_mem_commitOffsets he)

end RedisApi
