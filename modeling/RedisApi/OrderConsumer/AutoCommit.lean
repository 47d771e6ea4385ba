import RedisApi.OrderConsumer.AtLeastOnce

/-!
# Automatic commits

The consumer as `main.ts` deploys it.  `autoCommit: false` stands among the options of the
consumer object, which the framework hands to `kafka.consumer()`; the client looks for the switch
among the options of `consumer.run()`, which `main.ts` leaves out, and finds its default, `true`.
So besides the commits of `flush` there are those of the client, one after each handler that has
resolved, and `handleItemUsed` resolves as soon as its event is buffered.

* `manual_of_deployed` — with the switch off in the run options, the deployed consumer is the
  `consumer` of the other modules.
* `buffered_uncommitted_iff` — with the options of `main.ts`, the buffer is safe from a commit only
  as long as nothing has been delivered.
-/

namespace RedisApi

open Core OrderService World

/-! ## Configuration -/

/-- The options of `kafka.consumer()` that `main.ts` sets. -/
structure ConsumerConfig where
  groupId : String
  autoCommit : Option Bool
  deriving DecidableEq, Repr

/-- The options of `consumer.run()`. -/
structure ConsumerRunConfig where
  autoCommit : Option Bool
  deriving DecidableEq, Repr

/-- `options` of the Kafka transport: `consumer` goes to `kafka.consumer()`, `run` to
`consumer.run()`. -/
structure KafkaOptions where
  consumer : ConsumerConfig
  run : Option ConsumerRunConfig
  deriving DecidableEq, Repr

/-- The options in `bootstrap`. -/
def bootstrapOptions : KafkaOptions where
  consumer := { groupId := "order-consumer-group", autoCommit := some false }
  run := none

/-- Whether the client commits by itself: the switch of `consumer.run()`, on by default. -/
def KafkaOptions.commitsAutomatically (o : KafkaOptions) : Bool :=
  (o.run.bind ConsumerRunConfig.autoCommit).getD true

/-! ## The deployed consumer -/

/-- The consumer, and the messages whose handler has resolved since the process started. -/
structure Deployed where
  world : World
  resolved : List KafkaContext

/-- A step of the consumer, or a commit by the client for a message whose handler has resolved. -/
inductive DeployedEvent
  | consumer (ev : Event)
  | autoCommit (context : KafkaContext)
  deriving DecidableEq, Repr

/-- The messages whose handler resolves in a step. -/
def handledContexts (obs : List Observation) : List KafkaContext :=
  (serviceOutputs obs).filterMap fun
    | .handled context => some context
    | _ => none

namespace Deployed

def start (orders : OrdersTable) (committed : ℕ → ℕ) : Deployed where
  world := World.start orders committed
  resolved := []

/-- The client commits `offset + 1`. -/
def applyAutoCommit (d : Deployed) (context : KafkaContext) : Deployed :=
  { d with world := { d.world with
      committed :=
        Function.update d.world.committed context.partition (bigInt context.offset + 1) } }

def step (o : KafkaOptions) (d : Deployed) :
    DeployedEvent → Option (Deployed × List Observation)
  | .consumer ev =>
      (d.world.step ev).map fun r =>
        ({ world := r.1
           resolved := if ev = .crash then [] else d.resolved ++ handledContexts r.2 }, r.2)
  | .autoCommit context =>
      if o.commitsAutomatically ∧ context ∈ d.resolved then some (d.applyAutoCommit context, [])
      else none

end Deployed

/-- The deployed consumer as a machine. -/
def deployed (o : KafkaOptions) : Machine Deployed DeployedEvent Observation where
  step := Deployed.step o

lemma step_autoCommit {o : KafkaOptions} (ho : o.commitsAutomatically = true) {d : Deployed}
    {context : KafkaContext} (hc : context ∈ d.resolved) :
    (deployed o).step d (.autoCommit context) = some (d.applyAutoCommit context, []) :=
  if_pos ⟨ho, hc⟩

/-- No buffered event is covered by the committed offset of its partition. -/
def BufferedUncommitted (w : World) : Prop :=
  ∀ e ∈ w.service.buffer, w.committed e.partition ≤ e.offset

/-! ## The switch -/

/-- Without automatic commits the client adds no steps. -/
def manual {o : KafkaOptions} (ho : o.commitsAutomatically = false) :
    Machine.Projection (deployed o) consumer where
  state := Deployed.world
  output := some
  step := by
    intro d d' ev obs hstep
    cases ev with
    | consumer ev =>
        obtain ⟨r, hr, heq⟩ := Option.map_eq_some_iff.mp hstep
        obtain ⟨rfl, rfl⟩ := Prod.mk.injEq .. ▸ heq
        left
        refine ⟨ev, ?_⟩
        rw [List.filterMap_some]
        exact hr
    | autoCommit context =>
        have hrefused : (deployed o).step d (.autoCommit context) = none :=
          if_neg fun hc => absurd (ho.symm.trans hc.1) (by simp)
        exact absurd (hrefused.symm.trans hstep) (by simp)

theorem manual_of_deployed {o : KafkaOptions} (ho : o.commitsAutomatically = false)
    {orders : OrdersTable} {committed : ℕ → ℕ} {h : List Observation} {d : Deployed}
    (hr : (deployed o).Reaches (Deployed.start orders committed) h d) :
    consumer.Reaches (World.start orders committed) h d.world := by
  have hw := (manual ho).reaches hr
  rwa [show (manual ho).output = some from rfl, List.filterMap_some] at hw

/-! ## As deployed -/

/-- As long as nothing has been delivered nothing is buffered. -/
lemma buffer_eq_nil_of_not_delivered {o : KafkaOptions} {orders : OrdersTable} {committed : ℕ → ℕ}
    {h : List Observation} {d : Deployed}
    (hr : (deployed o).Reaches (Deployed.start orders committed) h d) :
    delivered h = [] → d.world.service.buffer = [] := by
  refine hr.invariant (I := fun h d => delivered h = [] → d.world.service.buffer = [])
    (fun _ => rfl) ?_
  intro h d ev d' obs _ hempty hstep hno
  rw [delivered_append, List.append_eq_nil_iff] at hno
  have hbuf := hempty hno.1
  cases ev with
  | autoCommit context =>
      obtain ⟨-, heq⟩ := Option.ite_none_right_eq_some.mp hstep
      obtain ⟨rfl, -⟩ := Prod.mk.injEq .. ▸ Option.some.inj heq
      exact hbuf
  | consumer ev =>
      obtain ⟨r, hworld, heq⟩ := Option.map_eq_some_iff.mp hstep
      obtain ⟨rfl, rfl⟩ := Prod.mk.injEq .. ▸ heq
      show r.1.service.buffer = []
      rcases service_of_step hworld with ⟨a, hsvc, -⟩ | ⟨-, hfresh, -⟩
      · cases step_cases hsvc with
        | received dto context heq =>
            -- an arrival would have been delivered
            have hrec := (createFromEvent_buffer d.world.service dto context).2.1
            rw [← heq] at hrec
            exact absurd (hrec.symm.trans hno.2) (by simp)
        | shutDown heq =>
            rw [show r.1.service = _ from congrArg Prod.fst heq, OrderService.onModuleDestroy, hbuf]
            exact hbuf
        | moved i f f' heq hm hq =>
            rw [heq, move_buffer]
            exact hbuf
        | ended i f how hi hp hhow heq =>
            rw [show r.1.service = _ from congrArg Prod.fst heq]
            show d.world.service.buffer.drop _ = []
            rw [hbuf, List.drop_nil]
      · rw [hfresh]
        rfl

/-- The first event of all is buffered, its handler resolves, and the client commits it. -/
lemma first_event_committed {o : KafkaOptions} (ho : o.commitsAutomatically = true)
    (orders : OrdersTable) (committed : ℕ → ℕ) (e : BufferedEvent) :
    ∃ d, (deployed o).Reaches (Deployed.start orders committed)
        [.service (.received e), .service (.handled e.context)] d ∧
      e ∈ d.world.service.buffer ∧ d.world.committed e.partition = e.offset + 1 := by
  have hdeliver : ∃ d₁, (deployed o).step (Deployed.start orders committed)
      (.consumer (.deliver e)) =
        some (d₁, [.service (.received e), .service (.handled e.context)]) ∧
        e ∈ d₁.world.service.buffer ∧ e.context ∈ d₁.resolved :=
    ⟨_, rfl, List.mem_singleton_self e, List.mem_singleton_self e.context⟩
  obtain ⟨d₁, hstep, hbuf, hresolved⟩ := hdeliver
  refine ⟨d₁.applyAutoCommit e.context, ?_, hbuf, Function.update_self _ _ _⟩
  exact (Machine.Reaches.single hstep).tail (step_autoCommit ho hresolved)

/-- **When the buffer is safe from commits**, with the options of `main.ts`: exactly as long as no
event is delivered. -/
theorem buffered_uncommitted_iff (orders : OrdersTable) (committed : ℕ → ℕ)
    (events : List BufferedEvent) :
    (∀ h d, (deployed bootstrapOptions).Reaches (Deployed.start orders committed) h d →
      delivered h <+: events → BufferedUncommitted d.world) ↔ events = [] := by
  constructor
  · intro hsafe
    cases events with
    | nil => rfl
    | cons e rest =>
        exfalso
        obtain ⟨d, hr, hbuf, hcom⟩ := first_event_committed (o := bootstrapOptions) rfl orders
          committed e
        have hle := hsafe _ d hr (List.prefix_append [e] rest) e hbuf
        omega
  · rintro rfl h d hr hpre
    have hbuf := buffer_eq_nil_of_not_delivered hr (List.prefix_nil.mp hpre)
    intro e he
    rw [hbuf] at he
    exact absurd he List.not_mem_nil

/-- One event, and the client's commit. -/
def autoCommitSchedule : List DeployedEvent :=
  [.consumer (.deliver (eventAt 0 "0")), .autoCommit (eventAt 0 "0").context]

/-- **A buffered event is committed.**  A crash now loses it. -/
theorem buffered_event_committed : ∃ d h,
    (deployed bootstrapOptions).run (Deployed.start OrdersTable.empty fun _ => 0)
        autoCommitSchedule = some (d, h) ∧ ¬ BufferedUncommitted d.world := by
  have hrun := (rfl : (deployed bootstrapOptions).run (Deployed.start OrdersTable.empty fun _ => 0)
    autoCommitSchedule = some (_, _))
  refine ⟨_, _, hrun, fun hc => ?_⟩
  exact absurd (hc (eventAt 0 "0") (by decide)) (by decide)

end RedisApi
