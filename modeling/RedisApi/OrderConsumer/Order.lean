import Mathlib.Data.Int.Notation
import Mathlib.Data.List.Nodup
import Mathlib.Tactic.Common

/-!
# Events, orders and the `orders` table

The data of the order consumer.  An event is what Kafka delivers to `createFromEvent`: the
payload (`InventoryEventDto`) and the context it came in (`KafkaContext`).  An order is the row
that `flush` writes for it (`order.entity.ts`).

* `OrdersTable` — the table, with the constraint `@Unique(['kafkaPartition', 'kafkaOffset'])` as
  a field: a table with two rows of one key cannot be built.
* `OrdersTable.save` — `repo.save(orders)`: one transaction that inserts the orders without an id
  and hands the ids back; it is refused as a whole, leaving the table alone, when some insert
  would break the constraint.
* `save_eq_none_iff` — exactly when that happens.
-/

namespace RedisApi

/-! ## Events -/

/-- `dto/inventory-event.dto.ts` -/
structure InventoryEventDto where
  remaining : ℤ
  success : Bool
  message : String
  correlationId : Option String := none
  deriving DecidableEq, Repr

/-- What the consumer reads of a `KafkaContext`: topic, partition and `getMessage().offset`, the
offset as a string of decimal digits. -/
structure KafkaContext where
  topic : String
  partition : ℕ
  offset : String
  deriving DecidableEq, Repr

/-- `interface BufferedEvent` -/
structure BufferedEvent where
  dto : InventoryEventDto
  context : KafkaContext
  deriving DecidableEq, Repr

/-- ECMAScript `BigInt(s)` on a string of decimal digits. -/
def bigInt (s : String) : ℕ := Nat.ofDigitChars 10 s.toList 0

/-- `BigInt(String(n))` is `n`. -/
@[simp] theorem bigInt_repr (n : ℕ) : bigInt n.repr = n := by
  rw [bigInt, Nat.toList_repr, Nat.ofDigitChars_ten_toDigits]

namespace BufferedEvent

/-- `context.getPartition()` -/
def partition (e : BufferedEvent) : ℕ := e.context.partition

/-- `BigInt(context.getMessage().offset)` -/
def offset (e : BufferedEvent) : ℕ := bigInt e.context.offset

end BufferedEvent

/-- An event of `inventory.item-used` at a given place of the topic, for concrete runs. -/
def eventAt (partition : ℕ) (offset : String) : BufferedEvent where
  dto := { remaining := 0, success := true, message := "Last item used!" }
  context := { topic := "inventory.item-used", partition := partition, offset := offset }

/-! ## Orders -/

/-- `order.entity.ts`.  `id` is filled in by the database on insert. -/
structure Order where
  id : Option ℕ
  remaining : ℤ
  success : Bool
  message : String
  correlationId : Option String
  kafkaPartition : ℕ
  kafkaOffset : String
  deriving DecidableEq, Repr

/-- The columns of `@Unique(['kafkaPartition', 'kafkaOffset'])`. -/
def Order.key (o : Order) : ℕ × String := (o.kafkaPartition, o.kafkaOffset)

/-- The order once the database has given it an id. -/
def Order.stored (o : Order) (id : ℕ) : Order := { o with id := some id }

@[simp] lemma Order.stored_key (o : Order) (id : ℕ) : (o.stored id).key = o.key := rfl
@[simp] lemma Order.stored_id (o : Order) (id : ℕ) : (o.stored id).id = some id := rfl

/-- The unique key that the order of an event will have. -/
def BufferedEvent.key (e : BufferedEvent) : ℕ × String := (e.context.partition, e.context.offset)

/-- `this.repo.create({ … })`: a new `Order` object, not stored yet. -/
def repoCreate (e : BufferedEvent) : Order where
  id := none
  remaining := e.dto.remaining
  success := e.dto.success
  message := e.dto.message
  correlationId := e.dto.correlationId
  kafkaPartition := e.context.partition
  kafkaOffset := e.context.offset

@[simp] lemma repoCreate_key (e : BufferedEvent) : (repoCreate e).key = e.key := rfl
@[simp] lemma repoCreate_id (e : BufferedEvent) : (repoCreate e).id = none := rfl

/-! ## The table -/

/-- The table `orders` under its unique constraint. -/
structure OrdersTable where
  rows : List Order
  unique : (rows.map Order.key).Nodup

namespace OrdersTable

/-- A freshly synchronised table. -/
def empty : OrdersTable where
  rows := []
  unique := List.nodup_nil

/-- The keys that are taken. -/
def keys (t : OrdersTable) : List (ℕ × String) := t.rows.map Order.key

instance (t : OrdersTable) (k : ℕ × String) : Decidable (k ∈ t.keys) :=
  inferInstanceAs (Decidable (k ∈ t.rows.map Order.key))

/-- How many rows a key has. -/
def count (t : OrdersTable) (k : ℕ × String) : ℕ := t.keys.count k

/-- `INSERT INTO orders`: refused when the key is taken, otherwise the row gets a fresh id. -/
def insert (t : OrdersTable) (o : Order) : Option OrdersTable :=
  if h : o.key ∈ t.keys then none
  else some
    { rows := t.rows ++ [o.stored t.rows.length]
      unique := by
        rw [List.map_append, List.nodup_append']
        exact ⟨t.unique, List.nodup_singleton _, by simpa [List.Disjoint, keys] using h⟩ }

/-- `repo.save(orders)`: the table after the transaction, and the orders as `save` resolves with
them.  An order that has an id was stored by an earlier `save` of the same objects; its columns
have not changed since, so nothing is written for it. -/
def save : OrdersTable → List Order → Option (OrdersTable × List Order)
  | t, [] => some (t, [])
  | t, o :: os =>
      match o.id with
      | some _ => (t.save os).map fun r => (r.1, o :: r.2)
      | none =>
          match t.insert o with
          | none => none
          | some t' =>
              (t'.save os).map fun r => (r.1, o.stored t.rows.length :: r.2)

lemma insert_eq_none {t : OrdersTable} {o : Order} : t.insert o = none ↔ o.key ∈ t.keys := by
  rw [insert]
  split_ifs with h <;> simp [h]

lemma rows_insert {t t' : OrdersTable} {o : Order} (h : t.insert o = some t') :
    t'.rows = t.rows ++ [o.stored t.rows.length] := by
  rw [insert] at h
  split_ifs at h
  exact congrArg rows (Option.some.inj h).symm

lemma keys_insert {t t' : OrdersTable} {o : Order} (h : t.insert o = some t') :
    t'.keys = t.keys ++ [o.key] := by
  rw [keys, keys, rows_insert h, List.map_append]
  rfl

/-- A stored key is stored once. -/
theorem count_eq_one {t : OrdersTable} {k : ℕ × String} : t.count k = 1 ↔ k ∈ t.keys := by
  constructor
  · intro h
    exact List.count_pos_iff.mp (by rw [count] at h; omega)
  · intro h
    exact List.count_eq_one_of_mem t.unique h

/-- **What a successful `save` leaves behind**: the old rows with the new ones behind them, and
the same orders, all of them with an id now. -/
theorem save_eq_some {os os' : List Order} {t t' : OrdersTable}
    (h : t.save os = some (t', os')) :
    t'.keys = t.keys ++ (os.filter fun o => o.id.isNone).map Order.key ∧
      os'.map Order.key = os.map Order.key ∧ ∀ o ∈ os', o.id.isSome := by
  induction os generalizing os' t t' with
  | nil =>
      simp only [save, Option.some.injEq, Prod.mk.injEq] at h
      obtain ⟨rfl, rfl⟩ := h
      simp
  | cons o os ih =>
      rw [save] at h
      split at h
      · next i hid =>
        obtain ⟨r, hr, heq⟩ := Option.map_eq_some_iff.mp h
        obtain ⟨rfl, rfl⟩ := Prod.mk.injEq .. ▸ heq
        obtain ⟨hk, hm, hs⟩ := ih hr
        refine ⟨by simpa [hid] using hk, by simp [hm], ?_⟩
        simpa [hid] using hs
      · next hid =>
        split at h
        · exact absurd h (by simp)
        · next u hu =>
          obtain ⟨r, hr, heq⟩ := Option.map_eq_some_iff.mp h
          obtain ⟨rfl, rfl⟩ := Prod.mk.injEq .. ▸ heq
          obtain ⟨hk, hm, hs⟩ := ih hr
          refine ⟨?_, by simp [hm], ?_⟩
          · rw [hk, keys_insert hu]
            simp [hid]
          · simpa using hs

/-- After a successful `save` every order has its row, if those that had an id before did. -/
theorem mem_keys_of_save {os os' : List Order} {t t' : OrdersTable}
    (hrows : ∀ o ∈ os, o.id.isSome → o.key ∈ t.keys) (h : t.save os = some (t', os')) :
    ∀ o ∈ os, o.key ∈ t'.keys := by
  intro o ho
  rw [(save_eq_some h).1, List.mem_append]
  cases hid : o.id with
  | none => exact Or.inr (List.mem_map_of_mem (List.mem_filter.mpr ⟨ho, by simp [hid]⟩))
  | some i => exact Or.inl (hrows o ho (by simp [hid]))

/-- `save` removes no row. -/
theorem rows_subset_of_save {os os' : List Order} {t t' : OrdersTable}
    (h : t.save os = some (t', os')) : ∀ o ∈ t.rows, o ∈ t'.rows := by
  induction os generalizing os' t t' with
  | nil =>
      simp only [save, Option.some.injEq, Prod.mk.injEq] at h
      obtain ⟨rfl, rfl⟩ := h
      exact fun o ho => ho
  | cons o os ih =>
      rw [save] at h
      split at h
      · obtain ⟨r, hr, heq⟩ := Option.map_eq_some_iff.mp h
        obtain ⟨rfl, rfl⟩ := Prod.mk.injEq .. ▸ heq
        exact ih hr
      · split at h
        · exact absurd h (by simp)
        · next u hu =>
          obtain ⟨r, hr, heq⟩ := Option.map_eq_some_iff.mp h
          obtain ⟨rfl, rfl⟩ := Prod.mk.injEq .. ▸ heq
          intro x hx
          refine ih hr x ?_
          rw [rows_insert hu]
          exact List.mem_append_left _ hx

/-- After a successful `save` every order is a row, if those that had an id before were. -/
theorem mem_rows_of_save {os os' : List Order} {t t' : OrdersTable}
    (hrows : ∀ o ∈ os, o.id.isSome → o ∈ t.rows) (h : t.save os = some (t', os')) :
    ∀ o ∈ os', o ∈ t'.rows := by
  induction os generalizing os' t t' with
  | nil =>
      simp only [save, Option.some.injEq, Prod.mk.injEq] at h
      obtain ⟨rfl, rfl⟩ := h
      simp
  | cons o os ih =>
      rw [List.forall_mem_cons] at hrows
      rw [save] at h
      split at h
      · next i hid =>
        obtain ⟨r, hr, heq⟩ := Option.map_eq_some_iff.mp h
        obtain ⟨rfl, rfl⟩ := Prod.mk.injEq .. ▸ heq
        have hfirst := rows_subset_of_save hr o (hrows.1 (by simp [hid]))
        exact List.forall_mem_cons.mpr ⟨hfirst, ih hrows.2 hr⟩
      · split at h
        · exact absurd h (by simp)
        · next u hu =>
          obtain ⟨r, hr, heq⟩ := Option.map_eq_some_iff.mp h
          obtain ⟨rfl, rfl⟩ := Prod.mk.injEq .. ▸ heq
          have hinsert := rows_insert hu
          refine List.forall_mem_cons.mpr ⟨?_, ih (fun x hx hid => ?_) hr⟩
          · exact rows_subset_of_save hr _ (by rw [hinsert]; simp)
          · rw [hinsert]
            exact List.mem_append_left _ (hrows.2 x hx hid)

/-- **When `save` of new orders is refused**: exactly when a key is taken already or occurs
twice. -/
theorem save_eq_none_iff {os : List Order} {t : OrdersTable} (hnew : ∀ o ∈ os, o.id = none) :
    t.save os = none ↔ ¬ ((os.map Order.key).Nodup ∧ ∀ o ∈ os, o.key ∉ t.keys) := by
  induction os generalizing t with
  | nil => simp [save]
  | cons o os ih =>
      rw [List.forall_mem_cons] at hnew
      rw [save, hnew.1]
      cases hu : t.insert o with
      | none => simp [insert_eq_none.mp hu]
      | some u =>
          have hk := keys_insert hu
          have hfree : o.key ∉ t.keys := fun hc => by simp [insert_eq_none.mpr hc] at hu
          simp only [Option.map_eq_none_iff]
          rw [ih hnew.2, hk, List.map_cons, List.nodup_cons, List.forall_mem_cons, not_iff_not]
          constructor
          · rintro ⟨hnd, hrest⟩
            refine ⟨⟨?_, hnd⟩, hfree, fun x hx hc => hrest x hx (List.mem_append_left _ hc)⟩
            intro hmem
            obtain ⟨x, hx, he⟩ := List.mem_map.mp hmem
            exact hrest x hx (List.mem_append_right _ (by rw [he]; exact List.mem_singleton_self _))
          · rintro ⟨⟨hno, hnd⟩, -, hrest⟩
            refine ⟨hnd, fun x hx hc => ?_⟩
            rcases List.mem_append.mp hc with hc | hc
            · exact hrest x hx hc
            · exact hno (List.mem_singleton.mp hc ▸ List.mem_map_of_mem hx)

/-- Saving orders that all have an id changes nothing. -/
theorem save_persisted {os : List Order} {t : OrdersTable} (h : ∀ o ∈ os, o.id.isSome) :
    t.save os = some (t, os) := by
  induction os generalizing t with
  | nil => rfl
  | cons o os ih =>
      rw [List.forall_mem_cons] at h
      obtain ⟨i, hi⟩ := Option.isSome_iff_exists.mp h.1
      rw [save, hi]
      simp [ih h.2]

end OrdersTable

end RedisApi
