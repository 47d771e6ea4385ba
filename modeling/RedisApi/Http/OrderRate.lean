import RedisApi.Http.Traceability
import RedisApi.Http.Traffic

/-!
# How fast one client can order

The limiter counts requests, the table `orders` holds what a few of them have led to, two systems
further on.  Every order stems from a request of its own that has passed the limiter, so what the
limiter lets pass from an address bounds the orders that the address can have caused.

* `comesFrom` — the request that an order is attributed to came from this address.
* `passed_le` — what passes from an address between two points in time.
* `orders_rate_le` — the orders of an address.
-/

namespace RedisApi.Http

open Core RateLimiter

/-! ## Requests -/

/-- Where something in a list satisfies `p`, there is a last one that does. -/
lemma exists_last {α : Type*} {p : α → Bool} {l : List α} (h : 0 < l.countP p) :
    ∃ inner x after, l = inner ++ [x] ++ after ∧ p x = true ∧ after.countP p = 0 := by
  induction l using List.reverseRecOn with
  | nil => exact absurd h (by simp)
  | append_singleton l y ih =>
      by_cases hy : p y = true
      · exact ⟨l, y, [], (List.append_nil _).symm, hy, rfl⟩
      · rw [List.countP_append, List.countP_singleton, if_neg hy] at h
        rcases ih h with ⟨inner, x, after, rfl, hx, hafter⟩
        refine ⟨inner, x, after ++ [y], by simp, hx, ?_⟩
        rw [List.countP_append, List.countP_singleton, if_neg hy, hafter]

section rate

variable {cfg : Config} {o : KafkaOptions} {keys : Keys} {redis : Product.Redis}
  {stores : Auth.Stores} {h : List Output} {s : Service}

/-- What passes from an address whose requests were all made between two points in time. -/
lemma passed_le (hr : (service cfg o).Reaches (Service.start keys redis stores) h s) {x : String}
    (hfresh : keys (bucketKey x) = none)
    (hclock : cfg.expiry = .never ∨
      ((requestsOf x h).map fun e => e.request.now).Pairwise (· ≤ ·))
    {t₀ t₁ : ℚ} (ht : t₀ ≤ t₁)
    (hmade : ∀ e ∈ requestsOf x h, t₀ ≤ e.request.now ∧ e.request.now ≤ t₁) :
    ((requestsOf x h).countP Exchange.passed : ℚ) ≤ 100 + 50 * (t₁ - t₀) / 1000 := by
  rcases Nat.eq_zero_or_pos ((requestsOf x h).countP Exchange.passed) with hzero | hpos
  · rw [hzero, Nat.cast_zero]
    linarith
  · -- the window from the first request to the last that passes holds all that pass
    rcases exists_last hpos with ⟨inner, j, after, heq, hpassed, hafter⟩
    have hj := hmade j (heq ▸ List.mem_append_left _ (List.mem_append_right _ List.mem_cons_self))
    rw [heq, List.countP_append, hafter, Nat.add_zero]
    cases inner with
    | nil =>
        rw [List.nil_append, List.countP_singleton, if_pos hpassed, Nat.cast_one]
        linarith
    | cons i between =>
        have hi := hmade i (heq ▸ List.mem_cons_self)
        have hle :=
          @passed_between_le _ _ _ _ _ _ _ hr x hfresh hclock [] between after i j heq hpassed
        rw [List.cons_append] at hle ⊢
        linarith

/-! ## Orders -/

/-- The request that the order is attributed to came from this address. -/
def comesFrom (h : List Output) (origin : Order → ℕ) (x : String) (row : Order) : Bool :=
  ((itemExchanges h)[origin row]?).any fun e => (callOf e.request).identifier = x

/-- A request that has reached `use-item` has passed the limiter. -/
lemma limited_of_itemId
    (hr : (service cfg o).Reaches (Service.start keys redis stores) h s) {e : Exchange}
    (he : e ∈ exchanges h) (hitem : e.itemId.isSome = true) :
    e.limited = true ∧ e.passed = true := by
  rw [Exchange.itemId] at hitem
  split at hitem
  · next id houtcome =>
    have hroute := ((traced_of_reaches hr).cleared e he _ houtcome).of_useItem.1
    refine ⟨?_, ?_⟩
    · rw [Exchange.limited, hroute]
      rfl
    · rw [Exchange.passed, houtcome]
  · exact absurd hitem (by simp)

/-- Those of an address are among its requests that have passed. -/
lemma itemExchanges_le
    (hr : (service cfg o).Reaches (Service.start keys redis stores) h s) (x : String) :
    (itemExchanges h).countP (fun e => (callOf e.request).identifier = x) ≤
      (requestsOf x h).countP Exchange.passed := by
  rw [itemExchanges, requestsOf, limitedExchanges, List.countP_filter, List.countP_filter,
    List.countP_filter]
  refine List.countP_mono_left ?_
  intro e he hitem
  simp only [Bool.and_eq_true] at hitem ⊢
  rcases limited_of_itemId hr he hitem.2 with ⟨hlimited, hpassed⟩
  exact ⟨⟨hpassed, hitem.1⟩, hlimited⟩

/-- Orders that are attributed to different requests are no more than the requests. -/
lemma comesFrom_le {rows : List Order} (hnodup : rows.Nodup) {origin : Order → ℕ}
    (hinjective : ∀ a ∈ rows, ∀ b ∈ rows, origin a = origin b → a = b) (x : String) :
    (rows.filter (comesFrom h origin x)).length ≤
      (itemExchanges h).countP fun e => (callOf e.request).identifier = x := by
  have hplaces : ((rows.filter (comesFrom h origin x)).map origin).Nodup := by
    refine List.Nodup.map_on ?_ (hnodup.filter _)
    intro a ha b hb hab
    exact hinjective a (List.mem_filter.mp ha).1 b (List.mem_filter.mp hb).1 hab
  rw [← @List.length_map _ _ _ origin]
  refine length_le_countP_of_nodup hplaces ?_
  intro i hi
  rcases List.mem_map.mp hi with ⟨row, hrow, rfl⟩
  exact (Option.any_eq_true _ _).mp (List.mem_filter.mp hrow).2

/-- **How fast one client can order.**  In every reachable state of the service, whatever the
traffic, the failures and the redeliveries: every order can be attributed to a request of its own,
with its correlation id, such that for every address (or `unknown`) that started without a bucket
the orders of this address are no more than 100 and 50 for each second in which its requests were
made.  This is in exact rational arithmetic, and where keys expire it is about an address whose
requests reach the limiter in the order of their stamps. -/
theorem orders_rate_le (hr : (service cfg o).Reaches (Service.start keys redis stores) h s) :
    ∃ origin : Order → ℕ,
      (∀ row ∈ s.pipeline.consumer.world.orders.rows, ∃ e,
        (itemExchanges h)[origin row]? = some e ∧
        row.correlationId = some (correlationId e.request e.uuid)) ∧
      (∀ a ∈ s.pipeline.consumer.world.orders.rows, ∀ b ∈ s.pipeline.consumer.world.orders.rows,
        origin a = origin b → a = b) ∧
      ∀ x, keys (bucketKey x) = none →
        (cfg.expiry = .never ∨ ((requestsOf x h).map fun e => e.request.now).Pairwise (· ≤ ·)) →
        ∀ t₀ t₁ : ℚ, t₀ ≤ t₁ →
          (∀ e ∈ requestsOf x h, t₀ ≤ e.request.now ∧ e.request.now ≤ t₁) →
          ((s.pipeline.consumer.world.orders.rows.filter (comesFrom h origin x)).length : ℚ) ≤
            100 + 50 * (t₁ - t₀) / 1000 := by
  rcases exists_attribution_of_orders hr with ⟨origin, horigin, hinjective⟩
  refine ⟨origin, ?_, hinjective, ?_⟩
  · intro row hrow
    rcases exists_exchange_of_order hr (horigin row hrow) with ⟨e, he, -, -, hid⟩
    exact ⟨e, he, hid⟩
  · intro x hfresh hclock t₀ t₁ ht hmade
    have hnodup := s.pipeline.consumer.world.orders.unique.of_map
    have hcount := (comesFrom_le hnodup hinjective x).trans (itemExchanges_le hr x)
    have hle := passed_le hr hfresh hclock ht hmade
    exact (Nat.cast_le.mpr hcount).trans hle

end rate

theorem orders_rate_le_threeOrders : ∃ s h,
    (service oneWriter bootstrapOptions).run
        (Service.start (fun _ => none) Pipeline.fiveUnits Auth.Stores.empty)
        (.request (itemRequest none (some "z")) "u" :: Pipeline.threeOrders.map fromOutside) =
      some (s, h) ∧ s.pipeline.consumer.world.orders.rows.length = 3 ∧
      (requestsOf "10.0.0.1" h).length = 4 ∧ ∃ origin : Order → ℕ,
        (∀ row ∈ s.pipeline.consumer.world.orders.rows, ∃ e,
          (itemExchanges h)[origin row]? = some e ∧
          row.correlationId = some (correlationId e.request e.uuid)) ∧
        (∀ a ∈ s.pipeline.consumer.world.orders.rows,
          ∀ b ∈ s.pipeline.consumer.world.orders.rows, origin a = origin b → a = b) ∧
        ∀ x, (fun _ => none : Keys) (bucketKey x) = none →
          (oneWriter.expiry = .never ∨
            ((requestsOf x h).map fun e => e.request.now).Pairwise (· ≤ ·)) →
          ∀ t₀ t₁ : ℚ, t₀ ≤ t₁ →
            (∀ e ∈ requestsOf x h, t₀ ≤ e.request.now ∧ e.request.now ≤ t₁) →
            ((s.pipeline.consumer.world.orders.rows.filter
              (comesFrom h origin x)).length : ℚ) ≤ 100 + 50 * (t₁ - t₀) / 1000 := by
  have hruns : ((service oneWriter bootstrapOptions).run
      (Service.start (fun _ => none) Pipeline.fiveUnits Auth.Stores.empty)
      (.request (itemRequest none (some "z")) "u" :: Pipeline.threeOrders.map fromOutside)).any
        (fun r => decide (r.1.pipeline.consumer.world.orders.rows.length = 3 ∧
          (requestsOf "10.0.0.1" r.2).length = 4)) = true := by
    decide +kernel
  rcases (Option.any_eq_true _ _).mp hruns with ⟨⟨s, h⟩, hrun, hend⟩
  rcases of_decide_eq_true hend with ⟨hrows, hrequests⟩
  exact ⟨s, h, hrun, hrows, hrequests, orders_rate_le (Machine.reaches_of_run hrun)⟩

end RedisApi.Http
