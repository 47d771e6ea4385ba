import RedisApi.OrderConsumer.Rows
import RedisApi.Pipeline.System
import RedisApi.Product.Recorded
import Mathlib.Data.List.Perm.Subperm

/-!
# Every order was sold

What a row of the table `orders` says about the API: some request has decremented the inventory,
was told the remaining stock that stands in the row, and has published it.  No two rows stem from
one request, whatever is delivered again.

This needs nothing of the consumer but that it stores what it is delivered: it may crash, be shut
down, give up on batches or commit automatically.

* `OrderOf` — the order is the one of the request.
* `orders_of_requests` — the rows are the orders of different requests.
* `orders_le_sold` — so they are no more than the units that have left the stock, and those that
  were given back although their event is stored.
-/

namespace RedisApi.Pipeline

open Core

/-- The order `x` is the one of request `r`. -/
structure OrderOf (h : List Output) (s : System) (r : ℕ) (x : Order) : Prop where
  checked : .product (.checked r x.remaining) ∈ h
  sold : 0 ≤ x.remaining
  success : x.success = true
  message : x.message = Product.itemMessage x.remaining
  correlationId : ∃ q, s.product.requests[r]? = some q ∧ x.correlationId = some q.correlationId
  stored : .stored r x.kafkaPartition (bigInt x.kafkaOffset) ∈ h

/-! ## Deliveries -/

/-- The event is the message at its place of the topic. -/
def Log.Holds (log : Log) (e : BufferedEvent) : Prop := log.read e.partition e.offset = some e

lemma Log.read_eq_some {log : Log} {p n : ℕ} {e : BufferedEvent} :
    log.read p n = some e ↔ ∃ dto, (log p)[n]? = some dto ∧ e = message p n dto := by
  rw [Log.read, Option.map_eq_some_iff]
  exact exists_congr fun dto => and_congr_right fun _ => eq_comm

lemma Log.holds_of_read {log : Log} {p n : ℕ} {e : BufferedEvent} (h : log.read p n = some e) :
    log.Holds e := by
  obtain ⟨dto, hdto, rfl⟩ := Log.read_eq_some.mp h
  rw [Log.Holds, message_partition, message_offset, Log.read_eq_some]
  exact ⟨dto, hdto, rfl⟩

lemma Log.Holds.store {log : Log} {e : BufferedEvent} (he : log.Holds e) (p : ℕ)
    (events : List (ℕ × InventoryEventDto)) : (store log p events).1.Holds e := by
  obtain ⟨dto, hdto, heq⟩ := Log.read_eq_some.mp he
  exact Log.read_eq_some.mpr ⟨dto, store_mono hdto, heq⟩

/-- **Whatever the consumer holds or has stored stems from the topic.** -/
theorem stems_of_reaches {o : KafkaOptions} {redis : Product.Redis} {h : List Output} {s : System}
    (hr : (system o).Reaches (System.start redis) h s) : s.consumer.world.Stems s.log.Holds := by
  refine hr.stateInvariant (I := fun s => s.consumer.world.Stems s.log.Holds) ?_ ?_
  · exact ⟨fun e he => absurd he List.not_mem_nil, fun f hf => absurd hf List.not_mem_nil,
      fun x hx => absurd hx List.not_mem_nil⟩
  · intro s a s' out hs hstep
    cases step_cases hstep with
    | product hproduct => exact hs.mono fun e he => he.store _ _
    | consumer hread hconsumer =>
        refine Deployed.stems_step hs (fun e he => ?_) hconsumer
        subst he
        exact Log.holds_of_read (of_decide_eq_true hread)

/-! ## Rows and requests -/

section rows

variable {o : KafkaOptions} {redis : Product.Redis} {h : List Output} {s : System}

/-- What the API has emitted, as part of what the system has emitted. -/
lemma mem_productOutputs {out : Product.Output} :
    out ∈ productOutputs h ↔ .product out ∈ h := by
  rw [productOutputs, List.mem_filterMap]
  constructor
  · rintro ⟨x, hx, heq⟩
    cases x with
    | product out' => exact Option.some.inj heq ▸ hx
    | _ => exact absurd heq (by simp [Output.product?])
  · intro hmem
    exact ⟨_, hmem, rfl⟩

lemma mem_places {r p n : ℕ} : (r, p, n) ∈ places h ↔ .stored r p n ∈ h := by
  rw [places, List.mem_filterMap]
  constructor
  · rintro ⟨x, hx, heq⟩
    cases x with
    | stored r' p' n' =>
        obtain ⟨rfl, rfl, rfl⟩ : r' = r ∧ p' = p ∧ n' = n := by simpa using heq
        exact hx
    | _ => exact absurd heq (by simp)
  · intro hmem
    exact ⟨_, hmem, rfl⟩

/-- What the API does inside the system is a run of its own. -/
lemma publishing_of_system (hr : (system o).Reaches (System.start redis) h s) :
    Product.Publishing (productOutputs h) s.product := by
  have hall : ((system o).restrict (within (fun _ _ => true) fun _ _ => true)).Reaches
      (System.start redis) h s :=
    hr.restrict_of_forall fun s a => by cases a <;> rfl
  exact Product.publishing_of_reaches ((toProduct o _ _).reaches hall).of_restrict

/-- A row has been stored for the request that published its event. -/
lemma exists_orderOf (hr : (system o).Reaches (System.start redis) h s) {x : Order}
    (hx : x ∈ s.consumer.world.orders.rows) : ∃ r, OrderOf h s r x := by
  obtain ⟨e, he, hdraft⟩ := (stems_of_reaches hr).rows x hx
  obtain ⟨dto, hdto, hmessage⟩ := Log.read_eq_some.mp he
  have hplaced := placed_of_reaches hr
  -- the place of the event has a publication behind it, and the publication a request
  obtain ⟨r, hplace⟩ := hplaced.complete _ _ (List.getElem?_eq_some_iff.mp hdto).1
  obtain ⟨event, hevent, hpub⟩ := hplaced.at_place _ hplace
  obtain rfl : dto = event := Option.some.inj (hdto.symm.trans hevent)
  obtain ⟨q, n, hq, -, hchecked, hn, rfl⟩ := (publishing_of_system hr).stands _ hpub
  rw [hmessage] at hdraft
  have hcolumns : ∀ {β : Type} (f : Order → β), f x.draft = f (repoCreate (message e.partition
      e.offset (q.event n))) := fun f => congrArg f hdraft
  have hpartition : x.kafkaPartition = e.partition := hcolumns Order.kafkaPartition
  have hoffset : x.kafkaOffset = e.offset.repr := hcolumns Order.kafkaOffset
  have hremaining : x.remaining = n := hcolumns Order.remaining
  refine ⟨r, ?_, hremaining ▸ hn, hcolumns Order.success, ?_, ⟨q, hq, ?_⟩, ?_⟩
  · rw [hremaining]
    exact mem_productOutputs.mp hchecked
  · rw [hremaining]
    exact hcolumns Order.message
  · exact hcolumns Order.correlationId
  · rw [hpartition, hoffset, bigInt_repr]
    exact mem_places.mp hplace

/-- A request has one place on the topic. -/
lemma place_unique (hr : (system o).Reaches (System.start redis) h s) {r p n p' n' : ℕ}
    (hp : .stored r p n ∈ h) (hp' : .stored r p' n' ∈ h) : p = p' ∧ n = n' := by
  have hnodup : ((places h).map Prod.fst).Nodup := by
    rw [(placed_of_reaches hr).requests]
    exact (publishing_of_system hr).once
  have heq := List.inj_on_of_nodup_map hnodup (mem_places.mpr hp) (mem_places.mpr hp') rfl
  simpa using heq

/-- The place of the topic that a row stems from. -/
def Order.place (x : Order) : ℕ × ℕ := (x.kafkaPartition, bigInt x.kafkaOffset)

/-- No two rows stem from one place: their offsets would have one decimal form. -/
lemma place_inj (hr : (system o).Reaches (System.start redis) h s) :
    ∀ x ∈ s.consumer.world.orders.rows, ∀ y ∈ s.consumer.world.orders.rows,
      Order.place x = Order.place y → x = y := by
  have hdecimal : ∀ z ∈ s.consumer.world.orders.rows, z.kafkaOffset = (Order.place z).2.repr := by
    intro z hz
    obtain ⟨e, he, hdraft⟩ := (stems_of_reaches hr).rows z hz
    obtain ⟨dto, -, hmessage⟩ := Log.read_eq_some.mp he
    have hoffset : z.kafkaOffset = e.offset.repr := by
      rw [hmessage] at hdraft
      exact congrArg Order.kafkaOffset hdraft
    rw [Order.place, hoffset, bigInt_repr]
  intro x hx y hy hplace
  have hkey : x.key = y.key := by
    rw [Order.key, Order.key, hdecimal x hx, hdecimal y hy, hplace]
    exact congrArg (fun k : ℕ × ℕ => (k.1, (Order.place y).2.repr)) hplace
  exact List.inj_on_of_nodup_map s.consumer.world.orders.unique hx hy hkey

/-- A request has one row at most. -/
lemma OrderOf.unique (hr : (system o).Reaches (System.start redis) h s) {r : ℕ} {x y : Order}
    (hx : x ∈ s.consumer.world.orders.rows) (hy : y ∈ s.consumer.world.orders.rows)
    (hrx : OrderOf h s r x) (hry : OrderOf h s r y) : x = y := by
  have hplace := place_unique hr hrx.stored hry.stored
  exact place_inj hr x hx y hy (Prod.ext hplace.1 hplace.2)

/-- There are no more rows than messages on the topic. -/
lemma rows_le_topic (hr : (system o).Reaches (System.start redis) h s) :
    s.consumer.world.orders.rows.length ≤ s.product.topic.length := by
  have hplaced := placed_of_reaches hr
  have hnodup : (s.consumer.world.orders.rows.map Order.place).Nodup :=
    List.Nodup.map_on (place_inj hr) (s.consumer.world.orders.unique.of_map _)
  have hsubset : s.consumer.world.orders.rows.map Order.place ⊆ (places h).map Prod.snd := by
    intro k hk
    obtain ⟨x, hx, rfl⟩ := List.mem_map.mp hk
    obtain ⟨r, hrx⟩ := exists_orderOf hr hx
    exact List.mem_map_of_mem (mem_places.mpr hrx.stored)
  have hle := (List.Nodup.subperm hnodup hsubset).length_le
  have hlength := congrArg List.length hplaced.requests
  rw [List.length_map, List.length_map] at hle hlength
  rw [(publishing_of_system hr).topic, List.length_map]
  omega

end rows

/-- **Every order was sold.**  In every reachable state, whatever fails on either side: each row is
the order of a request that has decremented the inventory, and no two rows are of one request. -/
theorem orders_of_requests {o : KafkaOptions} {redis : Product.Redis} {h : List Output} {s : System}
    (hr : (system o).Reaches (System.start redis) h s) :
    ∃ request : Order → ℕ, (∀ x ∈ s.consumer.world.orders.rows, OrderOf h s (request x) x) ∧
      ∀ x ∈ s.consumer.world.orders.rows, ∀ y ∈ s.consumer.world.orders.rows,
        request x = request y → x = y := by
  refine exists_attribution (fun _ hx => exists_orderOf hr hx) ?_
  intro x hx y hy r hrx hry
  exact OrderOf.unique hr hx hy hrx hry

/-- A request takes a unit, and releases the lock. -/
def takeAndRelease (r : ℕ) (correlationId : String) : List Action :=
  [.product (.useItem correlationId) 0, .product (.resume r) 0, .product (.resume r) 0,
    .product (.resume r) 0]

/-- The broker delivers the event of a request that was told the given stock. -/
def delivery (offset : ℕ) (remaining : ℤ) (correlationId : String) : Action :=
  .consumer (.consumer (.deliver (message 0 offset
    { remaining := remaining
      success := true
      message := Product.itemMessage remaining
      correlationId := some correlationId })))

/-- Two requests publish; a third loses its acknowledgement and gives the unit back.  All three
events are stored. -/
def threeOrders : List Action :=
  takeAndRelease 0 "a" ++ [.product (.resume 0) 0] ++
  takeAndRelease 1 "b" ++ [.product (.resume 1) 0] ++
  takeAndRelease 2 "c" ++ [.product (.rejectEmit 2 true) 0, .product (.resume 2) 0] ++
  [delivery 0 4 "a", delivery 1 3 "b", delivery 2 2 "c", .consumer (.consumer (.saveOk 0))]

def fiveUnits : Product.Redis where
  inventory := some 5
  lock := none
  now := 0

theorem orders_of_requests_threeOrders : ∃ s h,
    (system bootstrapOptions).run (System.start fiveUnits) threeOrders = some (s, h) ∧
      s.consumer.world.orders.rows.length = 3 ∧
      ∃ request : Order → ℕ, (∀ x ∈ s.consumer.world.orders.rows, OrderOf h s (request x) x) ∧
        ∀ x ∈ s.consumer.world.orders.rows, ∀ y ∈ s.consumer.world.orders.rows,
          request x = request y → x = y := by
  have hruns : ((system bootstrapOptions).run (System.start fiveUnits) threeOrders).any (fun r =>
      decide (r.1.consumer.world.orders.rows.length = 3)) = true := by
    decide +kernel
  obtain ⟨⟨s, h⟩, hrun, hthree⟩ := (Option.any_eq_true _ _).mp hruns
  exact ⟨s, h, hrun, of_decide_eq_true hthree, orders_of_requests (Machine.reaches_of_run hrun)⟩

/-! ## Orders and stock -/

/-- The requests that gave their unit back although their event is stored. -/
def storedUndone (h : List Product.Output) : List ℕ :=
  (Product.lostAcks h).filter fun r => .incremented r ∈ h

/-- A lost acknowledgement has been undone, or its request still holds the unit. -/
lemma lostAcks_le {h : List Product.Output} {s : Product.State} (hrec : Product.Recorded h s) :
    (Product.lostAcks h).length ≤ (storedUndone h).length + s.inFlight := by
  have hsplit := List.length_eq_length_filter_add (l := Product.lostAcks h)
    fun r => decide (.incremented r ∈ h)
  have hheld : ((Product.lostAcks h).filter fun r => !decide (.incremented r ∈ h)).length ≤
      s.inFlight := by
    refine length_le_countP_of_nodup (hrec.nodup.filter _) fun r hr => ?_
    obtain ⟨hlost, hkept⟩ := List.mem_filter.mp hr
    obtain ⟨q, hq, -, hheld | hundone⟩ := hrec.failing r hlost
    · exact ⟨q, hq, hheld⟩
    · exact absurd hundone (by simpa using hkept)
  rw [storedUndone]
  omega

/-- **Orders stay within what was sold.**  Without resets, and as long as Redis takes every command:
in every reachable state there are no more rows than units have left the stock and units were given
back although their event is stored. -/
theorem orders_le_sold {o : KafkaOptions} {redis : Product.Redis} {h : List Output} {s : System}
    (hr : ((system o).restrict (within Product.faultless fun _ _ => true)).Reaches
      (System.start redis) h s) :
    (s.consumer.world.orders.rows.length : ℤ) ≤
      redis.stock - s.product.redis.stock + (storedUndone (productOutputs h)).length := by
  obtain ⟨hbalance, hrec⟩ := Product.recorded_of_reaches ((toProduct o _ _).reaches hr)
  have hbalance : s.product.redis.stock + s.product.inFlight + s.product.succeeded =
      redis.stock := hbalance.balance
  have hlength : s.product.topic.length =
      s.product.succeeded + (Product.lostAcks (productOutputs h)).length := hrec.length
  have hlost : (Product.lostAcks (productOutputs h)).length ≤
      (storedUndone (productOutputs h)).length + s.product.inFlight := lostAcks_le hrec
  have hrows := rows_le_topic hr.of_restrict
  omega

theorem orders_le_sold_threeOrders : ∃ s h,
    ((system bootstrapOptions).restrict (within Product.faultless fun _ _ => true)).run
        (System.start fiveUnits) threeOrders = some (s, h) ∧
      s.consumer.world.orders.rows.length = 3 ∧ s.product.redis.stock = 3 ∧
      storedUndone (productOutputs h) = [2] ∧
      (s.consumer.world.orders.rows.length : ℤ) ≤
        fiveUnits.stock - s.product.redis.stock + (storedUndone (productOutputs h)).length := by
  have hruns : (((system bootstrapOptions).restrict (within Product.faultless fun _ _ => true)).run
      (System.start fiveUnits) threeOrders).any (fun r =>
        decide (r.1.consumer.world.orders.rows.length = 3 ∧ r.1.product.redis.stock = 3 ∧
          storedUndone (productOutputs r.2) = [2])) = true := by
    decide +kernel
  obtain ⟨⟨s, h⟩, hrun, hend⟩ := (Option.any_eq_true _ _).mp hruns
  obtain ⟨hrows, hstock, hundone⟩ := of_decide_eq_true hend
  exact ⟨s, h, hrun, hrows, hstock, hundone, orders_le_sold (Machine.reaches_of_run hrun)⟩

end RedisApi.Pipeline
