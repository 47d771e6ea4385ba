import RedisApi.Pipeline.Provenance

/-!
# No sale is lost

The other half: whatever was sold is on its way to the table.  With manual commits the committed
offset never passes an event that has no row (`AtLeastOnce.lean`); inside the system this holds
against a topic that grows while it is read.

* `topicOf` — what the broker holds at some time, as a topic in the sense of `AtLeastOnce.lean`.
* `Delivers` — every message below the consumer's position has been delivered, and every delivered
  event is accounted for.
* `no_sale_lost` — a request that has answered success has its row, or its event is buffered, or
  lies ahead of the position, in every state and over all crashes.
* `orders_balance` — once everything has come to rest, stock and rows add up exactly.
-/

namespace RedisApi.Pipeline

open Core OrderService World

/-! ## The topic of the consumer -/

/-- What the broker holds. -/
def topicOf (log : Log) : Topic where
  log p := (log p).mapIdx fun n dto => message p n dto
  partition_eq := by
    intro p e he
    obtain ⟨n, hn, rfl⟩ := List.mem_mapIdx.mp he
    exact message_partition _ _ _
  increasing := by
    intro p
    rw [List.pairwise_iff_getElem]
    intro i j hi hj hij
    rw [List.getElem_mapIdx, List.getElem_mapIdx, message_offset, message_offset]
    exact hij

lemma mem_topicOf {log : Log} {e : BufferedEvent} :
    e ∈ (topicOf log).log e.partition ↔ log.Holds e := by
  constructor
  · intro he
    obtain ⟨n, hn, heq⟩ := List.mem_mapIdx.mp he
    exact Log.holds_of_read (Log.read_eq_some.mpr ⟨_, List.getElem?_eq_getElem hn, heq.symm⟩)
  · intro he
    obtain ⟨dto, hdto, heq⟩ := Log.read_eq_some.mp he
    obtain ⟨hn, rfl⟩ := List.getElem?_eq_some_iff.mp hdto
    exact List.mem_mapIdx.mpr ⟨e.offset, hn, heq.symm⟩

/-- The message at the position is the one that comes next. -/
lemma next_of_read {log : Log} {w : World} {p : ℕ} {e : BufferedEvent}
    (h : log.read p (w.position p) = some e) : (topicOf log).next w p = some e := by
  obtain ⟨dto, hdto, rfl⟩ := Log.read_eq_some.mp h
  obtain ⟨hn, rfl⟩ := List.getElem?_eq_some_iff.mp hdto
  rw [Topic.next, List.find?_eq_some_iff_getElem]
  refine ⟨by simp, w.position p, by simpa [topicOf] using hn, by simp [topicOf], fun j hj => ?_⟩
  simpa [topicOf] using hj

/-- The topic grows behind what has been delivered. -/
lemma accounted_grow {log : Log} {ds : List BufferedEvent} {w : World}
    (ha : Accounted (topicOf log) ds w) (p : ℕ) (events : List (ℕ × InventoryEventDto)) :
    Accounted (topicOf (store log p events).1) ds w :=
  { ha with
    from_log := fun e he => mem_topicOf.mpr ((mem_topicOf.mp (ha.from_log e he)).store _ _) }

/-! ## The invariant -/

/-- No shutdown, and no flush gives up on an event that has no row. -/
def keepsAccount (d : Deployed) : DeployedEvent → Bool
  | .consumer .shutdown => false
  | .consumer ev => givesUpOnStored d.world ev
  | .autoCommit _ => true

/-- **The invariant of the delivery.** -/
structure Delivers (h : List Output) (s : System) : Prop where
  single : SingleFlush s.consumer.world.service
  faithful : s.consumer.world.Faithful
  accounted : Accounted (topicOf s.log) (delivered (observations h)) s.consumer.world
  read : ∀ p n, n < s.consumer.world.position p →
    ∃ e ∈ delivered (observations h), s.log.read p n = some e

lemma delivers_start (redis : Product.Redis) : Delivers [] (System.start redis) := by
  refine ⟨SingleFlush.fresh, fun f hf => absurd hf List.not_mem_nil, Accounted.start _ _ _, ?_⟩
  intro p n hn
  exact absurd hn (Nat.not_lt_zero n)

/-- A step moves the position behind what it delivers, and a crash moves it back to what is
committed. -/
lemma position_of_step {w w' : World} {ev : Event} {obs : List Observation}
    (h : w.step ev = some (w', obs)) :
    (∃ e, ev = .deliver e ∧
        w'.position = Function.update w.position e.partition (e.offset + 1) ∧
        delivered obs = [e]) ∨
      (ev = .crash ∧ w'.position = w.committed) ∨
      w'.position = w.position := by
  cases ev with
  | deliver e =>
      obtain ⟨s, out, hs, rfl, rfl⟩ := step_deliver h
      have hreceived := (createFromEvent_buffer w.service e.dto e.context).2.1
      rw [← hs] at hreceived
      refine Or.inl ⟨e, rfl, rfl, ?_⟩
      rw [delivered, serviceOutputs_map]
      exact hreceived
  | shutdown =>
      obtain ⟨s, out, -, -, rfl⟩ := step_shutdown h
      exact Or.inr (Or.inr rfl)
  | saveOk i =>
      obtain ⟨f, t, saved, -, -, rfl, -⟩ := step_saveOk h
      exact Or.inr (Or.inr rfl)
  | saveFail i =>
      obtain ⟨f, -, rfl, -⟩ := step_saveFail h
      exact Or.inr (Or.inr rfl)
  | commitOk i =>
      obtain ⟨f, -, rfl, -⟩ := step_commitOk h
      exact Or.inr (Or.inr rfl)
  | commitFail i applied =>
      obtain ⟨f, -, rfl, -⟩ := step_commitFail h
      cases applied <;> exact Or.inr (Or.inr rfl)
  | timeout i =>
      obtain ⟨f, -, rfl, -⟩ := step_timeout h
      exact Or.inr (Or.inr rfl)
  | crash =>
      obtain ⟨rfl, -⟩ := Prod.mk.injEq .. ▸ Option.some.inj h
      exact Or.inr (Or.inl ⟨rfl, rfl⟩)

lemma keepsAccount_consumer {d : Deployed} {ev : Event}
    (hk : keepsAccount d (.consumer ev) = true) :
    ev ≠ .shutdown ∧ givesUpOnStored d.world ev = true := by
  cases ev with
  | shutdown => exact absurd hk (by simp [keepsAccount])
  | _ => exact ⟨by simp, hk⟩

/-- The consumer takes a step. -/
lemma Delivers.consume {h : List Output} {s : System} {ev : Event} {w : World} {d : Deployed}
    {obs : List Observation} (hs : Delivers h s) (hread : s.deliverable (.consumer ev) = true)
    (hkeeps : keepsAccount s.consumer (.consumer ev) = true)
    (hstep : s.consumer.world.step ev = some (w, obs)) (hd : d.world = w) :
    Delivers (h ++ obs.map .consumer) { s with consumer := d } := by
  subst hd
  obtain ⟨hshutdown, hgive⟩ := keepsAccount_consumer hkeeps
  have hreads : (topicOf s.log).reads s.consumer.world ev = true := by
    cases ev with
    | deliver e => exact decide_eq_true (next_of_read (of_decide_eq_true hread))
    | shutdown => exact absurd rfl hshutdown
    | _ => rfl
  have hdelivered : delivered (observations (h ++ obs.map .consumer)) =
      delivered (observations h) ++ delivered obs := by
    rw [observations_append, observations_map, delivered_append]
  refine ⟨singleFlush_step hs.single hshutdown hstep, hs.faithful.step hstep, ?_, ?_⟩
  · rw [hdelivered]
    exact hs.accounted.step hs.single hs.faithful hreads hgive hstep
  · rw [hdelivered]
    have hold : ∀ p n, n < s.consumer.world.position p →
        ∃ e ∈ delivered (observations h) ++ delivered obs, s.log.read p n = some e := by
      intro p n hn
      obtain ⟨e, he, heq⟩ := hs.read p n hn
      exact ⟨e, List.mem_append_left _ he, heq⟩
    rcases position_of_step hstep with ⟨e, rfl, hpos, hone⟩ | ⟨-, hpos⟩ | hpos
    · -- what is new below the position is what was at the position
      have hat : s.log.read e.partition (s.consumer.world.position e.partition) = some e :=
        of_decide_eq_true hread
      obtain ⟨dto, -, hmessage⟩ := Log.read_eq_some.mp hat
      have hoffset : e.offset = s.consumer.world.position e.partition := by
        rw [hmessage]
        exact message_offset _ _ _
      intro p n hn
      show ∃ d ∈ _, s.log.read p n = some d
      rw [hpos, Function.update_apply] at hn
      split_ifs at hn with hp
      · subst hp
        rcases Nat.lt_succ_iff_lt_or_eq.mp hn with hlt | heq
        · exact hold _ _ (hoffset ▸ hlt)
        · refine ⟨e, List.mem_append_right _ (by simp [hone]), ?_⟩
          rw [heq, hoffset]
          exact hat
      · exact hold p n hn
    · intro p n hn
      rw [hpos] at hn
      exact hold p n (lt_of_lt_of_le hn (hs.accounted.behind p))
    · intro p n hn
      rw [hpos] at hn
      exact hold p n hn

/-- **One step**, with manual commits. -/
theorem Delivers.step {o : KafkaOptions} (ho : o.commitsAutomatically = false) {h out : List Output}
    {s s' : System} {a : Action} (hs : Delivers h s)
    (hkeeps : within (fun _ _ => true) keepsAccount s a = true)
    (hstep : s.step o a = some (s', out)) : Delivers (h ++ out) s' := by
  cases step_cases hstep with
  | @product a p product out hproduct =>
      have hsame : observations (h ++ (out.map .product ++
          (store s.log p (Product.publications out)).2)) = observations h := by
        rw [observations_append, observations_append, observations_map_product,
          (outputs_store _ _ _).2, List.append_nil, List.append_nil]
      refine ⟨hs.single, hs.faithful, ?_, ?_⟩
      · rw [hsame]
        exact accounted_grow hs.accounted _ _
      · rw [hsame]
        intro q n hn
        obtain ⟨e, he, heq⟩ := hs.read q n hn
        obtain ⟨dto, hdto, rfl⟩ := Log.read_eq_some.mp heq
        exact ⟨_, he, Log.read_eq_some.mpr ⟨dto, store_mono hdto, rfl⟩⟩
  | @consumer ev consumer obs hread hconsumer =>
      cases ev with
      | consumer ev =>
          obtain ⟨⟨w, obs'⟩, hworld, heq⟩ := Option.map_eq_some_iff.mp hconsumer
          obtain ⟨rfl, rfl⟩ := Prod.mk.injEq .. ▸ heq
          exact hs.consume hread hkeeps hworld rfl
      | autoCommit context =>
          have hrefused : s.consumer.step o (.autoCommit context) = none :=
            if_neg fun hc => absurd (ho.symm.trans hc.1) (by simp)
          exact absurd (hrefused.symm.trans hconsumer) (by simp)

theorem delivers_of_reaches {o : KafkaOptions} (ho : o.commitsAutomatically = false)
    {G : Product.State → Product.Action → Bool} {redis : Product.Redis} {h : List Output}
    {s : System}
    (hr : ((system o).restrict (within G keepsAccount)).Reaches (System.start redis) h s) :
    Delivers h s := by
  refine hr.invariant (I := Delivers) (delivers_start redis) ?_
  rintro h s a s' out - hs hstep
  obtain ⟨hguard, hstep⟩ := Machine.restrict_step.mp hstep
  refine hs.step ho ?_ hstep
  cases a with
  | product a p => rfl
  | consumer ev => exact hguard

/-! ## What is on the topic -/

section stored

variable {o : KafkaOptions} {redis : Product.Redis} {h : List Output} {s : System}

/-- Every message on the topic has its row, or is buffered, or lies ahead of the position. -/
lemma Delivers.message_accounted (hs : Delivers h s)
    (hr : (system o).Reaches (System.start redis) h s) {r p n : ℕ} (hstored : .stored r p n ∈ h) :
    (∃ x ∈ s.consumer.world.orders.rows, OrderOf h s r x ∧ Order.place x = (p, n)) ∨
      (∃ e ∈ s.consumer.world.service.buffer, e.partition = p ∧ e.offset = n) ∨
      s.consumer.world.position p ≤ n := by
  rcases Nat.lt_or_ge n (s.consumer.world.position p) with hn | hn
  · obtain ⟨e, he, hread⟩ := hs.read p n hn
    obtain ⟨dto, -, rfl⟩ := Log.read_eq_some.mp hread
    rcases hs.accounted.accounted _ he with hrow | hbuffer | hahead
    · left
      obtain ⟨x, hx, hkey⟩ := List.mem_map.mp hrow
      have hplace : Order.place x = (p, n) := by
        have hpartition : x.kafkaPartition = p := congrArg Prod.fst hkey
        have hoffset : x.kafkaOffset = n.repr := congrArg Prod.snd hkey
        rw [Order.place, hpartition, hoffset, bigInt_repr]
      obtain ⟨r', hr'⟩ := exists_orderOf hr hx
      -- whoever stands behind the row has published at this place, as `r` has
      have hplaces : (r', p, n) ∈ places h := by
        rw [← hplace]
        exact mem_places.mpr hr'.stored
      have heq := List.inj_on_of_nodup_map (placed_of_reaches hr).nodup hplaces
        (mem_places.mpr hstored) rfl
      exact ⟨x, hx, (Prod.mk.inj heq).1 ▸ hr', hplace⟩
    · exact Or.inr (Or.inl ⟨_, hbuffer, message_partition _ _ _, message_offset _ _ _⟩)
    · rw [message_partition, message_offset] at hahead
      exact Or.inr (Or.inr hahead)
  · exact Or.inr (Or.inr hn)

/-- A request that has answered success has a message on the topic. -/
lemma exists_stored (hr : (system o).Reaches (System.start redis) h s) {r : ℕ}
    {q : Product.Request} (hq : s.product.requests[r]? = some q)
    (hsuccess : q.phase.succeeded = true) : ∃ p n, .stored r p n ∈ h := by
  have hsold := (publishing_of_system hr).sold r q hq hsuccess
  rw [← (placed_of_reaches hr).requests] at hsold
  obtain ⟨⟨r', p, n⟩, hplace, rfl⟩ := List.mem_map.mp hsold
  exact ⟨p, n, mem_places.mp hplace⟩

end stored

/-- **No sale is lost.**  With manual commits, in every state of every run without a shutdown and
in which no flush gives up on an event that has no row: a request that has answered success has its
row, or its event is buffered, or lies ahead of the consumer's position.  The API may fail in any
way, and the consumer may crash at any time. -/
theorem no_sale_lost {o : KafkaOptions} (ho : o.commitsAutomatically = false)
    {redis : Product.Redis} {h : List Output} {s : System}
    (hr : ((system o).restrict (within (fun _ _ => true) keepsAccount)).Reaches
      (System.start redis) h s) :
    ∀ (r : ℕ) (q : Product.Request), s.product.requests[r]? = some q → q.phase.succeeded = true →
      ∃ p n, .stored r p n ∈ h ∧
        ((∃ x ∈ s.consumer.world.orders.rows, OrderOf h s r x ∧ Order.place x = (p, n)) ∨
          (∃ e ∈ s.consumer.world.service.buffer, e.partition = p ∧ e.offset = n) ∨
          s.consumer.world.position p ≤ n) := by
  intro r q hq hsuccess
  have hdelivers := delivers_of_reaches ho hr
  obtain ⟨p, n, hstored⟩ := exists_stored hr.of_restrict hq hsuccess
  exact ⟨p, n, hstored, hdelivers.message_accounted hr.of_restrict hstored⟩

/-- The consumer with the switch where the client looks for it. -/
def manualOptions : KafkaOptions :=
  { bootstrapOptions with run := some { autoCommit := some false } }

/-- The consumer crashes between `save` and `commitOffsets`.  All three events are delivered again,
and the batch is given up, since its rows are there. -/
def crashedOrders : List Action :=
  threeOrders ++ [.consumer (.consumer .crash), delivery 0 4 "a", delivery 1 3 "b",
    delivery 2 2 "c"] ++
  (List.replicate 5 [Action.consumer (.consumer (.saveFail 0)),
    .consumer (.consumer (.timeout 0))]).flatten

theorem no_sale_lost_crashedOrders : ∃ s h,
    ((system manualOptions).restrict (within (fun _ _ => true) keepsAccount)).run
        (System.start fiveUnits) crashedOrders = some (s, h) ∧
      ∀ (r : ℕ) (q : Product.Request), s.product.requests[r]? = some q → q.phase.succeeded = true →
        ∃ p n, .stored r p n ∈ h ∧
          ((∃ x ∈ s.consumer.world.orders.rows, OrderOf h s r x ∧ Order.place x = (p, n)) ∨
            (∃ e ∈ s.consumer.world.service.buffer, e.partition = p ∧ e.offset = n) ∨
            s.consumer.world.position p ≤ n) := by
  have hruns : (((system manualOptions).restrict (within (fun _ _ => true) keepsAccount)).run
      (System.start fiveUnits) crashedOrders).isSome = true := by
    decide +kernel
  obtain ⟨⟨s, h⟩, hrun⟩ := Option.isSome_iff_exists.mp hruns
  exact ⟨s, h, hrun, no_sale_lost rfl (Machine.reaches_of_run hrun)⟩

/-! ## At rest -/

/-- All requests have ended, everything has been delivered, and nothing is buffered. -/
structure AtRest (s : System) : Prop where
  ended : s.product.allEnded
  read : ∀ p, (s.log p).length ≤ s.consumer.world.position p
  flushed : s.consumer.world.service.buffer = []

/-- At rest every message has its row. -/
lemma AtRest.rows_eq_topic {o : KafkaOptions} {redis : Product.Redis} {h : List Output} {s : System}
    (hrest : AtRest s) (hs : Delivers h s) (hr : (system o).Reaches (System.start redis) h s) :
    s.consumer.world.orders.rows.length = s.product.topic.length := by
  refine Nat.le_antisymm (rows_le_topic hr) ?_
  have hplaced := placed_of_reaches hr
  have hsubset : (places h).map Prod.snd ⊆ s.consumer.world.orders.rows.map Order.place := by
    intro k hk
    obtain ⟨⟨r, p, n⟩, hplace, rfl⟩ := List.mem_map.mp hk
    obtain ⟨event, hevent, -⟩ := hplaced.at_place _ hplace
    have hn : n < (s.log p).length := (List.getElem?_eq_some_iff.mp hevent).1
    rcases hs.message_accounted hr (mem_places.mp hplace) with ⟨x, hx, -, heq⟩ | hbuffer | hahead
    · exact heq ▸ List.mem_map_of_mem hx
    · obtain ⟨e, he, -⟩ := hbuffer
      rw [hrest.flushed] at he
      exact absurd he List.not_mem_nil
    · have := hrest.read p
      omega
  have hle := (List.Nodup.subperm hplaced.nodup hsubset).length_le
  have hlength := congrArg List.length hplaced.requests
  rw [List.length_map, List.length_map] at hle hlength
  rw [(publishing_of_system hr).topic, List.length_map]
  omega

/-- **Stock and orders balance.**  With manual commits, without resets and shutdowns, as long as
Redis takes every command and no flush gives up on an event that has no row: once everything has
come to rest, the units that have left the stock and the lost acknowledgements are as many as the
rows. -/
theorem orders_balance {o : KafkaOptions} (ho : o.commitsAutomatically = false)
    {redis : Product.Redis} {h : List Output} {s : System}
    (hr : ((system o).restrict (within Product.faultless keepsAccount)).Reaches
      (System.start redis) h s) (hrest : AtRest s) :
    (s.consumer.world.orders.rows.length : ℤ) =
      redis.stock - s.product.redis.stock + (Product.lostAcks (productOutputs h)).length := by
  have hrows := hrest.rows_eq_topic (delivers_of_reaches ho hr) hr.of_restrict
  obtain ⟨hbalance, hrec⟩ := Product.recorded_of_reaches ((toProduct o _ _).reaches hr)
  have hbalance : s.product.redis.stock + s.product.inFlight + s.product.succeeded =
      redis.stock := hbalance.balance
  have hlength : s.product.topic.length =
      s.product.succeeded + (Product.lostAcks (productOutputs h)).length := hrec.length
  have hflight : s.product.inFlight = 0 := Product.inFlight_of_allEnded hrest.ended
  omega

/-- Everything has been delivered once every place lies below the position. -/
lemma read_of_places {o : KafkaOptions} {redis : Product.Redis} {h : List Output} {s : System}
    (hr : (system o).Reaches (System.start redis) h s)
    (hread : ∀ x ∈ places h, x.2.2 < s.consumer.world.position x.2.1) :
    ∀ p, (s.log p).length ≤ s.consumer.world.position p := by
  intro p
  by_contra hlt
  obtain ⟨r, hplace⟩ := (placed_of_reaches hr).complete p _ (Nat.lt_of_not_le hlt)
  exact absurd (hread _ hplace) (lt_irrefl _)

theorem orders_balance_crashedOrders : ∃ s h,
    ((system manualOptions).restrict (within Product.faultless keepsAccount)).run
        (System.start fiveUnits) crashedOrders = some (s, h) ∧ AtRest s ∧
      s.consumer.world.orders.rows.length = 3 ∧
      (s.consumer.world.orders.rows.length : ℤ) =
        fiveUnits.stock - s.product.redis.stock +
          (Product.lostAcks (productOutputs h)).length := by
  have hruns : (((system manualOptions).restrict (within Product.faultless keepsAccount)).run
      (System.start fiveUnits) crashedOrders).any (fun r =>
        decide (r.1.product.allEnded ∧ r.1.consumer.world.service.buffer = [] ∧
          (∀ x ∈ places r.2, x.2.2 < r.1.consumer.world.position x.2.1) ∧
          r.1.consumer.world.orders.rows.length = 3)) = true := by
    decide +kernel
  obtain ⟨⟨s, h⟩, hrun, hend⟩ := (Option.any_eq_true _ _).mp hruns
  obtain ⟨hended, hflushed, hplaces, hrows⟩ := of_decide_eq_true hend
  have hr := Machine.reaches_of_run hrun
  have hrest : AtRest s := ⟨hended, read_of_places hr.of_restrict hplaces, hflushed⟩
  exact ⟨s, h, hrun, hrest, hrows, orders_balance rfl hr hrest⟩

end RedisApi.Pipeline
