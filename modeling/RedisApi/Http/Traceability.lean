import RedisApi.Http.Service
import RedisApi.Pipeline.Provenance

/-!
# From an order back to a request

The correlation id that the middleware has set is what the event of a request carries, and the order
that is written from it.  What stands in the table `orders` therefore leads back to the access log.

* `Exchange.itemId` — the request has reached the handler of `use-item`, with this correlation id.
* `Traced` — the invariant: whoever reached a handler was cleared for it, and the requests of the
  product controller are those that reached `use-item`, in the same order.
* `orders_traceable` — so every order stems from a request of its own, which carried a token with
  the role `product:write`, and has the correlation id with which that request was answered.
-/

namespace RedisApi.Http

open Core EcmaScript Auth

/-! ## Requests that reach `use-item` -/

/-- The correlation id with which the request has reached the handler of `use-item`. -/
def Exchange.itemId (x : Exchange) : Option String :=
  match x.outcome with
  | .ok (.useItem id) => some id
  | _ => none

/-- The requests that have reached it. -/
def itemExchanges (h : List Output) : List Exchange :=
  (exchanges h).filter fun x => x.itemId.isSome

def itemIds (h : List Output) : List String := (exchanges h).filterMap Exchange.itemId

lemma itemIds_append (h out : List Output) : itemIds (h ++ out) = itemIds h ++ itemIds out := by
  rw [itemIds, exchanges_append, List.filterMap_append]
  rfl

/-- One id for each of them. -/
lemma map_itemId_itemExchanges (h : List Output) :
    (itemExchanges h).map Exchange.itemId = (itemIds h).map some :=
  map_filter_isSome Exchange.itemId (exchanges h)

/-! ## Requests of the product controller -/

/-- The correlation ids of the requests, in the order of their arrival. -/
def requestIds (s : Product.State) : List String := s.requests.map Product.Request.correlationId

/-- A step of the inventory with which no request arrives. -/
lemma requestIds_of_step {s s' : Product.State} {a : Product.Action} {out : List Product.Output}
    (hstep : s.step a = some (s', out)) (ha : ∀ id, a ≠ .useItem id) :
    requestIds s' = requestIds s := by
  cases Product.step_cases hstep with
  | arrived id => exact absurd rfl (ha id)
  | advanced r q before redis after hadv =>
      rw [hadv.state]
      exact map_set_of_eq hadv.at_r rfl
  | read | reset | ticked => rfl

lemma requestIds_of_system {o : KafkaOptions} {s s' : Pipeline.System} {a : Pipeline.Action}
    {out : List Pipeline.Output} (hstep : s.step o a = some (s', out)) (ha : goesOn a = true) :
    requestIds s'.product = requestIds s.product := by
  cases Pipeline.step_cases hstep with
  | product hproduct =>
      refine requestIds_of_step hproduct ?_
      rintro id rfl
      exact absurd ha (by simp [goesOn])
  | consumer hread hconsumer => rfl

/-- A handler of the product controller begins. -/
lemma requestIds_of_begun {o : KafkaOptions} {s s' : Pipeline.System} {handler : Handler}
    {a : Product.Action} {out : List Pipeline.Output} (ha : handler.productAction = some a)
    (hstep : s.step o (.product a 0) = some (s', out)) :
    requestIds s'.product = requestIds s.product ++
      (match handler with
        | .useItem id => [id]
        | _ => []) := by
  cases Pipeline.step_cases hstep with
  | product hproduct =>
      cases handler with
      | useItem id =>
          obtain rfl := Option.some.inj ha
          obtain ⟨rfl, rfl⟩ := Prod.mk.injEq .. ▸ Option.some.inj hproduct
          exact List.map_append
      | getInventory | resetInventory =>
          obtain rfl := Option.some.inj ha
          rw [List.append_nil]
          exact requestIds_of_step hproduct (by simp)
      | ping | login | register => exact absurd ha (by simp [Handler.productAction])

/-! ## Every run -/

/-- **The access log accounts for the requests of the product controller.** -/
structure Traced (cfg : Config) (h : List Output) (s : Service) : Prop where
  cleared : ∀ x ∈ exchanges h, ∀ handler, x.outcome = .ok handler →
    Cleared cfg x.request x.uuid handler
  ids : requestIds s.pipeline.product = itemIds h

/-- One more exchange. -/
lemma cleared_concat {cfg : Config} {h : List Output} {keys : RateLimiter.Keys} {req : Request}
    {uuid : String} {outcome : Except Rejection Handler}
    (hs : ∀ x ∈ exchanges h, ∀ handler, x.outcome = .ok handler →
      Cleared cfg x.request x.uuid handler)
    (houtcome : (handle cfg keys req uuid).2 = outcome) {out : List Output}
    (hout : exchanges out = [⟨req, uuid, outcome⟩]) :
    ∀ x ∈ exchanges (h ++ out), ∀ handler, x.outcome = .ok handler →
      Cleared cfg x.request x.uuid handler := by
  intro x hx handler hhandler
  rw [exchanges_append, hout] at hx
  rcases List.mem_append.mp hx with hx | hx
  · exact hs x hx handler hhandler
  · rw [List.mem_singleton] at hx
    subst hx
    exact (cleared_of_handle (houtcome.trans hhandler)).2

/-- A step without an exchange. -/
lemma Traced.quiet {cfg : Config} {h out : List Output} {s s' : Service} (hs : Traced cfg h s)
    (hout : exchanges out = [])
    (hids : requestIds s'.pipeline.product = requestIds s.pipeline.product) :
    Traced cfg (h ++ out) s' := by
  have hexchanges : exchanges (h ++ out) = exchanges h := by
    rw [exchanges_append, hout, List.append_nil]
  refine ⟨?_, ?_⟩
  · rw [hexchanges]
    exact hs.cleared
  · rw [hids, itemIds, hexchanges]
    exact hs.ids

/-- An exchange that does not reach `use-item`. -/
lemma Traced.other {cfg : Config} {h out : List Output} {s s' : Service} {req : Request}
    {uuid : String} {outcome : Except Rejection Handler} (hs : Traced cfg h s)
    (houtcome : (handle cfg s.keys req uuid).2 = outcome)
    (hout : exchanges out = [⟨req, uuid, outcome⟩])
    (hids : requestIds s'.pipeline.product = requestIds s.pipeline.product)
    (hnone : Exchange.itemId ⟨req, uuid, outcome⟩ = none) : Traced cfg (h ++ out) s' := by
  refine ⟨cleared_concat hs.cleared houtcome hout, ?_⟩
  rw [itemIds_append, hids, hs.ids, itemIds, itemIds, hout]
  simp [hnone]

theorem Traced.step {cfg : Config} {o : KafkaOptions} {h : List Output} {s s' : Service}
    {a : Action} {out : List Output} (hs : Traced cfg h s)
    (hstep : s.step cfg o a = some (s', out)) : Traced cfg (h ++ out) s' := by
  cases step_cases hstep with
  | rejected houtcome => exact hs.other houtcome rfl rfl rfl
  | @handled req uuid handler houtcome hproduct hauth =>
      refine hs.other houtcome rfl rfl ?_
      cases handler with
      | useItem id => exact absurd hproduct (by simp [Handler.productAction])
      | _ => rfl
  | @begun req uuid handler a p out houtcome hproduct hauth hpipeline =>
      have hexchanges : exchanges (.exchanged ⟨req, uuid, .ok handler⟩ :: out.map .pipeline) =
          [⟨req, uuid, .ok handler⟩] :=
        congrArg (_ :: ·) (outputs_map_pipeline out).1
      refine ⟨cleared_concat hs.cleared houtcome hexchanges, ?_⟩
      rw [itemIds_append, ← hs.ids]
      refine (requestIds_of_begun hproduct hpipeline).trans (congrArg _ ?_)
      rw [itemIds, hexchanges]
      cases handler <;> rfl
  | @called req uuid handler call houtcome hproduct hauth =>
      refine hs.other houtcome rfl rfl ?_
      cases handler with
      | useItem id => exact absurd hproduct (by simp [Handler.productAction])
      | _ => rfl
  | @pipeline a p out hgoes hpipeline =>
      exact hs.quiet (outputs_map_pipeline out).1 (requestIds_of_system hpipeline hgoes)
  | @auth a p out hgoes hauth => exact hs.quiet (outputs_map_auth out).1 rfl

lemma traced_of_reaches {cfg : Config} {o : KafkaOptions} {keys : RateLimiter.Keys}
    {redis : Product.Redis} {stores : Stores} {h : List Output} {s : Service}
    (hr : (service cfg o).Reaches (Service.start keys redis stores) h s) : Traced cfg h s := by
  refine hr.invariant (I := Traced cfg) ?_ ?_
  · exact ⟨fun x hx => absurd hx List.not_mem_nil, rfl⟩
  · rintro h s a s' out - hs hstep
    exact hs.step hstep

/-- The request of the product controller with the number `r`, in the access log. -/
lemma Traced.exchange {cfg : Config} {h : List Output} {s : Service} (hs : Traced cfg h s) {r : ℕ}
    {q : Product.Request} (hq : s.pipeline.product.requests[r]? = some q) :
    ∃ x, (itemExchanges h)[r]? = some x ∧ x.request.route = .useItem ∧
      Granted cfg x.request [js "product:write"] ∧
      q.correlationId = correlationId x.request x.uuid := by
  have hid : (itemIds h)[r]? = some q.correlationId := by
    rw [← hs.ids, requestIds, List.getElem?_map, hq]
    rfl
  have hitem : ((itemExchanges h).map Exchange.itemId)[r]? = some (some q.correlationId) := by
    rw [map_itemId_itemExchanges, List.getElem?_map, hid]
    rfl
  rw [List.getElem?_map] at hitem
  rcases Option.map_eq_some_iff.mp hitem with ⟨x, hx, hxid⟩
  have hmem : x ∈ exchanges h := (List.mem_filter.mp (List.mem_of_getElem? hx)).1
  refine ⟨x, hx, ?_⟩
  rw [Exchange.itemId] at hxid
  split at hxid
  · next id houtcome =>
    obtain rfl := Option.some.inj hxid
    exact (hs.cleared x hmem _ houtcome).of_useItem
  · exact absurd hxid (by simp)

section orders

variable {cfg : Config} {o : KafkaOptions} {keys : RateLimiter.Keys} {redis : Product.Redis}
  {stores : Stores} {h : List Output} {s : Service}

/-- The request that an order stems from, in the access log. -/
lemma exists_exchange_of_order
    (hr : (service cfg o).Reaches (Service.start keys redis stores) h s) {r : ℕ} {x : Order}
    (hrx : Pipeline.OrderOf (pipelineOutputs h) s.pipeline r x) :
    ∃ e, (itemExchanges h)[r]? = some e ∧ e.request.route = .useItem ∧
      Granted cfg e.request [js "product:write"] ∧
      x.correlationId = some (correlationId e.request e.uuid) := by
  rcases hrx.correlationId with ⟨q, hq, hid⟩
  rcases (traced_of_reaches hr).exchange hq with ⟨e, he, hroute, hgranted, hcorrelation⟩
  exact ⟨e, he, hroute, hgranted, by rw [hid, hcorrelation]⟩

/-- Each order is attributed to a request of its own. -/
lemma exists_attribution_of_orders
    (hr : (service cfg o).Reaches (Service.start keys redis stores) h s) :
    ∃ origin : Order → ℕ,
      (∀ x ∈ s.pipeline.consumer.world.orders.rows,
        Pipeline.OrderOf (pipelineOutputs h) s.pipeline (origin x) x) ∧
      ∀ x ∈ s.pipeline.consumer.world.orders.rows, ∀ y ∈ s.pipeline.consumer.world.orders.rows,
        origin x = origin y → x = y := by
  have hsystem := (toSystem cfg o).reaches hr
  exact exists_attribution (fun _ hx => Pipeline.exists_orderOf hsystem hx)
    fun _ hx _ hy _ hrx hry => Pipeline.OrderOf.unique hsystem hx hy hrx hry

/-- **Every order is traceable.**  In every reachable state of the service, whatever the traffic,
the failures and the redeliveries: each row of the table stems from a request of its own that has
gone through the limiter and the guards to `use-item`; that request carried a verified token with
the role `product:write`, and the row has the correlation id with which it was answered. -/
theorem orders_traceable (hr : (service cfg o).Reaches (Service.start keys redis stores) h s) :
    ∃ origin : Order → ℕ,
      (∀ x ∈ s.pipeline.consumer.world.orders.rows, ∃ e, (itemExchanges h)[origin x]? = some e ∧
        e.request.route = .useItem ∧ Granted cfg e.request [js "product:write"] ∧
        x.correlationId = some (correlationId e.request e.uuid)) ∧
      ∀ x ∈ s.pipeline.consumer.world.orders.rows, ∀ y ∈ s.pipeline.consumer.world.orders.rows,
        origin x = origin y → x = y := by
  rcases exists_attribution_of_orders hr with ⟨origin, horigin, hinjective⟩
  exact ⟨origin, fun x hx => exists_exchange_of_order hr (horigin x hx), hinjective⟩

end orders

/-! ## A run -/

/-- One token is valid. -/
def oneWriter : Config where
  provider := .keycloak
  verify header :=
    if header = some "Bearer w" then
      some (realmToken (.array [.string (js "product:read"), .string (js "product:write")]))
    else none
  pipe := decorators { length := List.length, isEmail := fun s => s.contains 0x40 }
  expiry := .never

/-- A request to use an item. -/
def itemRequest (authorization : Option String) (id : Option String) : Request where
  route := .useItem
  ip := some "10.0.0.1"
  correlationId := id
  authorization := authorization
  body := []
  now := 0

/-- The requests of the API as they come in from outside. -/
def fromOutside : Pipeline.Action → Action
  | .product (.useItem id) _ => .request (itemRequest (some "Bearer w") none) id
  | a => .pipeline a

theorem orders_traceable_threeOrders : ∃ s h,
    (service oneWriter bootstrapOptions).run
        (Service.start (fun _ => none) Pipeline.fiveUnits Stores.empty)
        (.request (itemRequest none (some "z")) "u" :: Pipeline.threeOrders.map fromOutside) =
      some (s, h) ∧ s.pipeline.consumer.world.orders.rows.length = 3 ∧
      (exchanges h).length = 4 ∧ (itemExchanges h).length = 3 ∧
      ∃ origin : Order → ℕ,
        (∀ x ∈ s.pipeline.consumer.world.orders.rows, ∃ e, (itemExchanges h)[origin x]? = some e ∧
          e.request.route = .useItem ∧ Granted oneWriter e.request [js "product:write"] ∧
          x.correlationId = some (correlationId e.request e.uuid)) ∧
        ∀ x ∈ s.pipeline.consumer.world.orders.rows,
          ∀ y ∈ s.pipeline.consumer.world.orders.rows, origin x = origin y → x = y := by
  have hruns : ((service oneWriter bootstrapOptions).run
      (Service.start (fun _ => none) Pipeline.fiveUnits Stores.empty)
      (.request (itemRequest none (some "z")) "u" :: Pipeline.threeOrders.map fromOutside)).any
        (fun r => decide (r.1.pipeline.consumer.world.orders.rows.length = 3 ∧
          (exchanges r.2).length = 4 ∧ (itemExchanges r.2).length = 3)) = true := by
    decide +kernel
  rcases (Option.any_eq_true _ _).mp hruns with ⟨⟨s, h⟩, hrun, hend⟩
  rcases of_decide_eq_true hend with ⟨hrows, hexchanges, hitems⟩
  exact ⟨s, h, hrun, hrows, hexchanges, hitems, orders_traceable (Machine.reaches_of_run hrun)⟩

end RedisApi.Http
