import RedisApi.OrderConsumer.AutoCommit
import RedisApi.Product.Publications

/-!
# From the API to the orders

The API and the order consumer around the topic `inventory.item-used`.  The requests publish, the
broker appends each event to some partition, and the consumer is delivered each partition in order,
from its position on.  A step is one of the API or one of the consumer; they share the topic only.

* `message` — an event as `handleItemUsed` gets it: the payload, and where the broker keeps it.
* `System.step` — the events that the API publishes are appended; only what the topic holds is
  delivered.
* `toProduct` — the system seen as the API alone: what holds of every run of the API holds inside
  the system.
* `Placed` — every publication has one place on the topic, and every place one publication.
-/

namespace RedisApi.Pipeline

open Core

/-! ## The topic -/

/-- The messages of each partition; the offset of a message is its index. -/
abbrev Log := ℕ → List InventoryEventDto

/-- The arguments of `handleItemUsed` for the message at a place of the topic. -/
def message (partition offset : ℕ) (dto : InventoryEventDto) : BufferedEvent where
  dto := dto
  context :=
    { topic := "inventory.item-used", partition := partition, offset := offset.repr }

@[simp] lemma message_partition (p n : ℕ) (dto : InventoryEventDto) :
    (message p n dto).partition = p := rfl

@[simp] lemma message_offset (p n : ℕ) (dto : InventoryEventDto) :
    (message p n dto).offset = n := bigInt_repr n

/-- The message at a place, if there is one. -/
def Log.read (log : Log) (p n : ℕ) : Option BufferedEvent := (log p)[n]?.map (message p n)

/-- The broker appends a message. -/
def Log.append (log : Log) (p : ℕ) (dto : InventoryEventDto) : Log :=
  Function.update log p (log p ++ [dto])

/-! ## The system -/

structure System where
  product : Product.State
  log : Log
  consumer : Deployed

/-- What happens next: a step of the API, with the partition for what it publishes, or one of the
consumer. -/
inductive Action
  | product (a : Product.Action) (partition : ℕ)
  | consumer (ev : DeployedEvent)
  deriving DecidableEq, Repr

inductive Output
  | product (o : Product.Output)
  | stored (r partition offset : ℕ)
  | consumer (obs : Observation)
  deriving DecidableEq, Repr

/-- The broker stores the publications of a step. -/
def store (log : Log) (p : ℕ) : List (ℕ × InventoryEventDto) → Log × List Output
  | [] => (log, [])
  | (r, event) :: rest =>
      let (log', out) := store (log.append p event) p rest
      (log', .stored r p (log p).length :: out)

namespace System

/-- Nothing has been sold, stored or delivered yet. -/
def start (redis : Product.Redis) : System where
  product := Product.State.start redis
  log _ := []
  consumer := Deployed.start OrdersTable.empty fun _ => 0

/-- The broker delivers what stands at the consumer's position. -/
def deliverable (s : System) : DeployedEvent → Bool
  | .consumer (.deliver e) =>
      s.log.read e.partition (s.consumer.world.position e.partition) = some e
  | _ => true

def step (o : KafkaOptions) (s : System) : Action → Option (System × List Output)
  | .product a p =>
      (s.product.step a).map fun (product, out) =>
        let (log, places) := store s.log p (Product.publications out)
        ({ s with product := product, log := log }, out.map .product ++ places)
  | .consumer ev =>
      if s.deliverable ev then
        (s.consumer.step o ev).map fun (consumer, obs) =>
          ({ s with consumer := consumer }, obs.map .consumer)
      else none

end System

/-- The system as a machine, with the consumer's options. -/
def system (o : KafkaOptions) : Machine System Action Output where
  step := System.step o

/-! ## The parts -/

def Output.product? : Output → Option Product.Output
  | .product o => some o
  | _ => none

def Output.consumer? : Output → Option Observation
  | .consumer obs => some obs
  | _ => none

/-- What the API has emitted. -/
def productOutputs (h : List Output) : List Product.Output := h.filterMap Output.product?

/-- What the consumer has emitted. -/
def observations (h : List Output) : List Observation := h.filterMap Output.consumer?

lemma productOutputs_append (h out : List Output) :
    productOutputs (h ++ out) = productOutputs h ++ productOutputs out := List.filterMap_append

lemma observations_append (h out : List Output) :
    observations (h ++ out) = observations h ++ observations out := List.filterMap_append

@[simp] lemma productOutputs_map (out : List Product.Output) :
    productOutputs (out.map .product) = out := by
  induction out with
  | nil => rfl
  | cons o out ih => exact congrArg (o :: ·) ih

@[simp] lemma observations_map (obs : List Observation) :
    observations (obs.map .consumer) = obs := by
  induction obs with
  | nil => rfl
  | cons o obs ih => exact congrArg (o :: ·) ih

@[simp] lemma observations_map_product (out : List Product.Output) :
    observations (out.map .product) = [] := by
  induction out with
  | nil => rfl
  | cons o out ih => exact ih

@[simp] lemma productOutputs_map_consumer (obs : List Observation) :
    productOutputs (obs.map .consumer) = [] := by
  induction obs with
  | nil => rfl
  | cons o obs ih => exact ih

/-- Storing is neither a step of the API nor one of the consumer. -/
lemma outputs_store (log : Log) (p : ℕ) (events : List (ℕ × InventoryEventDto)) :
    productOutputs (store log p events).2 = [] ∧ observations (store log p events).2 = [] := by
  induction events generalizing log with
  | nil => exact ⟨rfl, rfl⟩
  | cons x rest ih => exact ih _

/-- **What a step can do.** -/
inductive Step (o : KafkaOptions) (s : System) : Action → System → List Output → Prop
  | product {a : Product.Action} {p : ℕ} {product : Product.State} {out : List Product.Output}
      (hstep : s.product.step a = some (product, out)) :
      Step o s (.product a p)
        { s with product := product, log := (store s.log p (Product.publications out)).1 }
        (out.map .product ++ (store s.log p (Product.publications out)).2)
  | consumer {ev : DeployedEvent} {consumer : Deployed} {obs : List Observation}
      (hread : s.deliverable ev = true) (hstep : s.consumer.step o ev = some (consumer, obs)) :
      Step o s (.consumer ev) { s with consumer := consumer } (obs.map .consumer)

theorem step_cases {o : KafkaOptions} {s s' : System} {a : Action} {out : List Output}
    (h : s.step o a = some (s', out)) : Step o s a s' out := by
  cases a with
  | product a p =>
      obtain ⟨⟨product, out'⟩, hstep, heq⟩ := Option.map_eq_some_iff.mp h
      obtain ⟨rfl, rfl⟩ := Prod.mk.injEq .. ▸ heq
      exact .product hstep
  | consumer ev =>
      rw [System.step] at h
      split_ifs at h with hread
      obtain ⟨⟨consumer, obs⟩, hstep, heq⟩ := Option.map_eq_some_iff.mp h
      obtain ⟨rfl, rfl⟩ := Prod.mk.injEq .. ▸ heq
      exact .consumer hread hstep

/-- The API keeps to `G`, and the consumer to `K`. -/
def within (G : Product.State → Product.Action → Bool) (K : Deployed → DeployedEvent → Bool)
    (s : System) : Action → Bool
  | .product a _ => G s.product a
  | .consumer ev => K s.consumer ev

section parts

variable (o : KafkaOptions) (G : Product.State → Product.Action → Bool)
  (K : Deployed → DeployedEvent → Bool)

/-- The system seen as the API. -/
def toProduct : Machine.Projection ((system o).restrict (within G K))
    (Product.product.restrict G) where
  state := System.product
  output := Output.product?
  step := by
    intro s s' a out hstep
    obtain ⟨hg, hstep⟩ := Machine.restrict_step.mp hstep
    cases step_cases hstep with
    | @product a p product out hproduct =>
        left
        refine ⟨a, ?_⟩
        rw [List.filterMap_append]
        show (Product.product.restrict G).step s.product a =
          some (product, productOutputs _ ++ productOutputs _)
        rw [productOutputs_map, (outputs_store _ _ _).1, List.append_nil]
        exact Machine.restrict_step.mpr ⟨hg, hproduct⟩
    | @consumer ev consumer obs hread hconsumer =>
        right
        exact ⟨rfl, productOutputs_map_consumer obs⟩

end parts

/-! ## Places on the topic -/

/-- Who has published, and where the broker has put it. -/
def places (h : List Output) : List (ℕ × ℕ × ℕ) :=
  h.filterMap fun
    | .stored r p n => some (r, p, n)
    | _ => none

lemma places_append (h out : List Output) : places (h ++ out) = places h ++ places out :=
  List.filterMap_append

lemma places_map_product (out : List Product.Output) : places (out.map .product) = [] := by
  induction out with
  | nil => rfl
  | cons o out ih => exact ih

lemma places_map_consumer (obs : List Observation) : places (obs.map .consumer) = [] := by
  induction obs with
  | nil => rfl
  | cons o obs ih => exact ih

/-- **Publications and places correspond.**  `ps` says where each of the publications `events` is
kept. -/
structure Placed (events : List (ℕ × InventoryEventDto)) (ps : List (ℕ × ℕ × ℕ)) (log : Log) :
    Prop where
  requests : ps.map Prod.fst = events.map Prod.fst
  nodup : (ps.map Prod.snd).Nodup
  at_place : ∀ x ∈ ps, ∃ event, (log x.2.1)[x.2.2]? = some event ∧ (x.1, event) ∈ events
  complete : ∀ p n, n < (log p).length → ∃ r, (r, p, n) ∈ ps

lemma placed_nil : Placed [] [] fun _ => [] :=
  ⟨rfl, List.nodup_nil, by simp, by simp⟩

lemma Log.append_of_some {log : Log} {p n : ℕ} {dto : InventoryEventDto}
    (h : (log p)[n]? = some dto) (p' : ℕ) (dto' : InventoryEventDto) :
    (log.append p' dto' p)[n]? = some dto := by
  rw [Log.append, Function.update_apply]
  split_ifs with hp
  · exact getElem?_append_of_some (hp ▸ h) _
  · exact h

/-- One more message. -/
lemma Placed.append {events : List (ℕ × InventoryEventDto)} {ps : List (ℕ × ℕ × ℕ)} {log : Log}
    (hp : Placed events ps log) (r p : ℕ) (event : InventoryEventDto) :
    Placed (events ++ [(r, event)]) (ps ++ [(r, p, (log p).length)]) (log.append p event) := by
  refine ⟨?_, ?_, ?_, ?_⟩
  · rw [List.map_append, List.map_append, hp.requests]
    rfl
  · rw [List.map_append, List.nodup_append']
    refine ⟨hp.nodup, List.nodup_singleton _, ?_⟩
    -- what has a place already has one inside the log
    rw [List.map_singleton, List.disjoint_singleton]
    intro hmem
    obtain ⟨x, hx, heq⟩ := List.mem_map.mp hmem
    obtain ⟨dto, hdto, -⟩ := hp.at_place x hx
    rw [heq] at hdto
    exact absurd (List.getElem?_eq_some_iff.mp hdto).1 (lt_irrefl _)
  · intro x hx
    rcases List.mem_append.mp hx with hx | hx
    · obtain ⟨dto, hdto, hmem⟩ := hp.at_place x hx
      exact ⟨dto, Log.append_of_some hdto _ _, List.mem_append_left _ hmem⟩
    · rw [List.mem_singleton.mp hx]
      refine ⟨event, ?_, List.mem_append_right _ (List.mem_singleton_self _)⟩
      rw [Log.append, Function.update_self]
      exact List.getElem?_concat_length
  · intro p' n hn
    rw [Log.append, Function.update_apply] at hn
    split_ifs at hn with hpp
    · rw [List.length_append, List.length_singleton] at hn
      rcases Nat.lt_succ_iff_lt_or_eq.mp hn with hlt | heq
      · obtain ⟨r', hr'⟩ := hp.complete p n hlt
        exact ⟨r', List.mem_append_left _ (hpp ▸ hr')⟩
      · exact ⟨r, List.mem_append_right _ (by simp [hpp, heq])⟩
    · obtain ⟨r', hr'⟩ := hp.complete p' n hn
      exact ⟨r', List.mem_append_left _ hr'⟩

lemma Placed.store {events new : List (ℕ × InventoryEventDto)} {ps : List (ℕ × ℕ × ℕ)} {log : Log}
    (hp : Placed events ps log) (p : ℕ) :
    Placed (events ++ new) (ps ++ places (store log p new).2) (store log p new).1 := by
  induction new generalizing events ps log with
  | nil =>
      rw [List.append_nil]
      show Placed events (ps ++ []) log
      rwa [List.append_nil]
  | cons x rest ih =>
      have hnext := ih (hp.append x.1 p x.2)
      rw [List.append_assoc, List.append_assoc] at hnext
      exact hnext

/-- The log only grows. -/
lemma store_mono {log : Log} {p q n : ℕ} {events : List (ℕ × InventoryEventDto)}
    {dto : InventoryEventDto} (h : (log q)[n]? = some dto) :
    ((store log p events).1 q)[n]? = some dto := by
  induction events generalizing log with
  | nil => exact h
  | cons x rest ih => exact ih (Log.append_of_some h _ _)

theorem placed_of_reaches {o : KafkaOptions} {redis : Product.Redis} {h : List Output} {s : System}
    (hr : (system o).Reaches (System.start redis) h s) :
    Placed (Product.publications (productOutputs h)) (places h) s.log := by
  refine hr.invariant
    (I := fun h s => Placed (Product.publications (productOutputs h)) (places h) s.log) ?_ ?_
  · exact placed_nil
  · rintro h s a s' out - hp hstep
    rw [productOutputs_append, Product.publications_append, places_append]
    cases step_cases hstep with
    | @product a p product out hproduct =>
        rw [productOutputs_append, productOutputs_map, (outputs_store _ _ _).1, List.append_nil,
          places_append, places_map_product, List.nil_append]
        exact hp.store p
    | @consumer ev consumer obs hread hconsumer =>
        rw [productOutputs_map_consumer, places_map_consumer, List.append_nil]
        show Placed (_ ++ []) _ _
        rwa [List.append_nil]

end RedisApi.Pipeline
