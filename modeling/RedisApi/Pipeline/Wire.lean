import RedisApi.Core.JsonText
import RedisApi.Pipeline.Provenance
import Mathlib.Tactic.Linarith

/-!
# The topic as bytes

What `emit` hands to the Kafka client is written as JSON, and what `handleItemUsed` is called with
has been read from it.  The rest of this development has the events themselves on the topic.

* `encodeEvent`, `decodeEvent` — an event to the value of a message and back;
  `decodeEvent_encodeEvent`.
* `Wire.step` — the system whose topic holds bytes.
* `Product.State.Fits` — the numbers that the API is about to emit are small enough for JSON.
* `wire_run` — the two systems run alike.
-/

namespace RedisApi

open Core EcmaScript

/-! ## Events -/

/-- The message that `useItem` emits; `JSON.stringify` leaves out a member that is `undefined`. -/
def InventoryEventDto.toJson (event : InventoryEventDto) : Json :=
  .object ([(js "remaining", .number event.remaining), (js "success", .bool event.success),
    (js "message", .string (js event.message))] ++
      (event.correlationId.map fun id => (js "correlationId", Json.string (js id))).toList)

def readInteger : Json → Option ℤ
  | .number q => if q.den = 1 then some q.num else none
  | _ => none

def readText (value : Json) : Option String :=
  (readString value).map fun s => String.ofList (scalars s)

/-- The argument of `handleItemUsed`. -/
def InventoryEventDto.read (value : Json) : Option InventoryEventDto := do
  let remaining ← readMember readInteger (js "remaining") value
  let success ← readMember readBool (js "success") value
  let message ← readMember readText (js "message") value
  let correlationId ← match optionalGet (some value) (js "correlationId") with
    | none => some none
    | some id => (readText id).map some
  return { remaining := remaining, success := success, message := message
           correlationId := correlationId }

/-- The value of the message that is sent. -/
def encodeEvent (event : InventoryEventDto) : Option Bytes :=
  (stringify event.toJson).map encodeBody

def decodeEvent (value : Bytes) : Option InventoryEventDto := readBody InventoryEventDto.read value

lemma readText_js (s : String) : readText (.string (js s)) = some s := by
  rw [readText, readString, Option.map_some, js, scalars_flatMap, String.ofList_toList]

lemma InventoryEventDto.read_toJson (event : InventoryEventDto) :
    InventoryEventDto.read event.toJson = some event := by
  have hmessage : readMember readText (js "message") event.toJson = some event.message := by
    rcases event with ⟨remaining, success, message, _ | id⟩
    · exact readText_js message
    · exact readText_js message
  have hremaining : readMember readInteger (js "remaining") event.toJson =
      some event.remaining := by
    rcases event with ⟨remaining, success, message, _ | id⟩
    · rfl
    · rfl
  have hsuccess : readMember readBool (js "success") event.toJson = some event.success := by
    rcases event with ⟨remaining, success, message, _ | id⟩
    · rfl
    · rfl
  rw [InventoryEventDto.read, hremaining, hsuccess, hmessage]
  rcases event with ⟨remaining, success, message, _ | id⟩
  · rfl
  · have hid : optionalGet (some (InventoryEventDto.toJson ⟨remaining, success, message, some id⟩))
        (js "correlationId") = some (.string (js id)) := rfl
    simp only [hid, readText_js]
    rfl

/-- The text of an event is known if that of its number is. -/
lemma stringify_toJson {event : InventoryEventDto} (h : event.remaining.natAbs ≤ 2 ^ 53) :
    ∃ text, stringify event.toJson = some text := by
  have hnumber : numberText event.remaining =
      some ((decimal event.remaining).map UInt8.toUInt16) := by
    rw [numberText, if_pos ⟨Rat.den_intCast _, h⟩, Rat.num_intCast]
  refine exists_stringify_object fun m hm => ?_
  simp only [List.cons_append, List.nil_append, List.mem_cons, Option.mem_toList,
    Option.map_eq_some_iff] at hm
  rcases hm with rfl | rfl | rfl | ⟨id, -, rfl⟩
  · exact ⟨_, hnumber⟩
  · exact ⟨_, rfl⟩
  · exact ⟨_, rfl⟩
  · exact ⟨_, rfl⟩

/-- **An event is read as it was written.** -/
lemma decodeEvent_encodeEvent {event : InventoryEventDto} (h : event.remaining.natAbs ≤ 2 ^ 53) :
    ∃ value, encodeEvent event = some value ∧ decodeEvent value = some event := by
  rcases stringify_toJson h with ⟨text, htext⟩
  refine ⟨encodeBody text, ?_, ?_⟩
  · rw [encodeEvent, htext, Option.map_some]
  · rw [decodeEvent, readBody_encodeBody _ htext, InventoryEventDto.read_toJson]

namespace Pipeline

/-! ## The system on bytes -/

/-- The system with a topic that holds bytes. -/
structure Wire where
  product : Product.State
  log : ℕ → List Bytes
  consumer : Deployed

/-- The broker stores the publications of a step. -/
def storeBytes (log : ℕ → List Bytes) (p : ℕ) :
    List (ℕ × InventoryEventDto) → Option ((ℕ → List Bytes) × List Output)
  | [] => some (log, [])
  | (r, event) :: rest => do
      let value ← encodeEvent event
      let (log', out) ← storeBytes (Function.update log p (log p ++ [value])) p rest
      return (log', .stored r p (log p).length :: out)

namespace Wire

def start (redis : Product.Redis) : Wire where
  product := Product.State.start redis
  log _ := []
  consumer := Deployed.start OrdersTable.empty fun _ => 0

/-- What stands at a place of the topic, as the consumer gets it. -/
def read (w : Wire) (p n : ℕ) : Option BufferedEvent :=
  (w.log p)[n]?.bind fun value => (decodeEvent value).map (message p n)

def deliverable (w : Wire) : DeployedEvent → Bool
  | .consumer (.deliver e) =>
      w.read e.partition (w.consumer.world.position e.partition) = some e
  | _ => true

def step (o : KafkaOptions) (w : Wire) : Action → Option (Wire × List Output)
  | .product a p =>
      (w.product.step a).bind fun (product, out) =>
        (storeBytes w.log p (Product.publications out)).map fun (log, places) =>
          ({ w with product := product, log := log }, out.map .product ++ places)
  | .consumer ev =>
      if w.deliverable ev then
        (w.consumer.step o ev).map fun (consumer, obs) =>
          ({ w with consumer := consumer }, obs.map .consumer)
      else none

end Wire

def wire (o : KafkaOptions) : Machine Wire Action Output where
  step := Wire.step o

end Pipeline

/-! ## Small numbers -/

namespace Product

/-- The number that a request is about to emit, or may be, is at most `m`. -/
def Phase.Fits (m : ℤ) : Phase → Prop
  | .releasing _ (some n) => n ≤ m
  | .emitting n => 0 ≤ n ∧ n ≤ m
  | _ => True

lemma Phase.Fits.mono {m m' : ℤ} {p : Phase} (h : p.Fits m) (hm : m ≤ m') : p.Fits m' := by
  cases p with
  | releasing token remaining =>
      cases remaining with
      | none => trivial
      | some n => exact le_trans h hm
  | emitting n => exact ⟨h.1, le_trans h.2 hm⟩
  | _ => trivial

structure State.Fits (m : ℤ) (s : State) : Prop where
  stock : s.redis.stock ≤ m
  phases : s.AllPhases fun _ p => p.Fits m

lemma State.Fits.mono {m m' : ℤ} {s : State} (h : s.Fits m) (hm : m ≤ m') : s.Fits m' :=
  ⟨le_trans h.stock hm, State.AllPhases.mono h.phases fun _ _ hp => hp.mono hm⟩

/-- What a transition leaves is one more at most. -/
lemma Transition.fits {redis redis' : Redis} {r : ℕ} {q : Request} {a : Action}
    {before after : Phase} {out : List Output} {m : ℤ}
    (ht : Transition redis r q a before (redis', after, out)) (hm : initialStock ≤ m)
    (hstock : redis.stock ≤ m) (hbefore : before.Fits m) :
    redis'.stock ≤ m + 1 ∧ after.Fits (m + 1) := by
  have hkept : redis.stock ≤ m + 1 := by omega
  cases ht with
  | acquired | contended | woken | exhausted | emitted | acquireRejected | checkRejected
  | releaseRejected | incrementRejected | emitRejected => exact ⟨hkept, trivial⟩
  | refused empty =>
      refine ⟨hkept, ?_⟩
      have hstart : (0 : ℤ) ≤ initialStock := by decide
      show -1 ≤ m + 1
      omega
  | decremented positive =>
      refine ⟨?_, ?_⟩
      · show redis.stock - 1 ≤ m + 1
        omega
      · show redis.stock - 1 ≤ m + 1
        omega
  | releasedRejected | releasedEmpty =>
      rw [Redis.releaseLock_stock]
      exact ⟨hkept, trivial⟩
  | released nonneg =>
      rw [Redis.releaseLock_stock]
      have hn : _ ≤ m := hbefore
      exact ⟨hkept, nonneg, by omega⟩
  | rolledBack =>
      refine ⟨?_, trivial⟩
      show redis.inventory.getD 0 + 1 ≤ m + 1
      cases hinventory : redis.inventory with
      | none =>
          have hstart : (0 : ℤ) ≤ initialStock := by decide
          rw [Option.getD_none]
          omega
      | some n =>
          rw [Redis.stock, hinventory, Option.getD_some] at hstock
          rw [Option.getD_some]
          omega

/-- **One step.** -/
lemma State.Fits.step {m : ℤ} {s s' : State} {a : Action} {out : List Output} (h : s.Fits m)
    (hm : initialStock ≤ m) (hstep : s.step a = some (s', out)) : s'.Fits (m + 1) := by
  have hnext := h.mono (show m ≤ m + 1 by omega)
  cases step_cases hstep with
  | arrived correlationId => exact ⟨hnext.stock, hnext.phases.arrival _ trivial⟩
  | advanced r q before redis after hadv =>
      have hfits := hadv.transition.fits hm h.stock (hadv.of_allPhases h.phases)
      refine ⟨?_, h.phases.advances hadv (fun _ _ _ hp => hp.mono (by omega)) hfits.2⟩
      rw [hadv.state]
      exact hfits.1
  | reset =>
      refine ⟨?_, hnext.phases⟩
      show initialStock ≤ m + 1
      omega
  | read | ticked => exact ⟨hnext.stock, hnext.phases⟩

/-- What a step publishes is known as text. -/
lemma State.Fits.publications {m : ℤ} {s s' : State} {a : Action} {out : List Output}
    (h : s.Fits m) (hm : m ≤ 2 ^ 53) (hstep : s.step a = some (s', out)) :
    ∀ x ∈ publications out, x.2.remaining.natAbs ≤ 2 ^ 53 := by
  cases step_cases hstep with
  | advanced r q before redis after hadv =>
      rcases hadv.transition.publication with hno | ⟨n, hbefore, -, hone⟩
      · intro x hx
        rw [hno] at hx
        exact absurd hx List.not_mem_nil
      · have hfits : before.Fits m := hadv.of_allPhases h.phases
        rw [hbefore] at hfits
        intro x hx
        rw [hone] at hx
        rw [List.mem_singleton.mp hx]
        show n.natAbs ≤ 2 ^ 53
        rcases hfits with ⟨hn, hle⟩
        omega
  | arrived | read | reset | ticked =>
      intro x hx
      exact absurd hx List.not_mem_nil

end Product

/-! ## Both systems -/

namespace Pipeline

/-- The bytes are those of the event. -/
def Encodes (event : InventoryEventDto) (value : Bytes) : Prop :=
  encodeEvent event = some value ∧ decodeEvent value = some event

/-- The system on bytes stands where the other does. -/
structure Carries (s : System) (w : Wire) : Prop where
  product : w.product = s.product
  log : ∀ p, List.Forall₂ Encodes (s.log p) (w.log p)
  consumer : w.consumer = s.consumer

lemma carries_start (redis : Product.Redis) : Carries (System.start redis) (Wire.start redis) :=
  ⟨rfl, fun _ => .nil, rfl⟩

/-- A place is read alike. -/
lemma Carries.read {s : System} {w : Wire} (h : Carries s w) (p n : ℕ) :
    w.read p n = s.log.read p n := by
  have hplace : ∀ (events : List InventoryEventDto) (values : List Bytes) (n : ℕ),
      List.Forall₂ Encodes events values → values[n]?.bind decodeEvent = events[n]? := by
    intro events values n hall
    induction hall generalizing n with
    | nil => rfl
    | cons hfirst _ ih =>
        cases n with
        | zero => exact hfirst.2
        | succ n => exact ih n
  rw [Wire.read, Log.read, ← hplace _ _ n (h.log p)]
  cases (w.log p)[n]? <;> rfl

/-- What is stored as bytes is stored at the same places. -/
lemma store_encodes {log : Log} {values : ℕ → List Bytes} (p : ℕ)
    {events : List (ℕ × InventoryEventDto)} (hlog : ∀ p, List.Forall₂ Encodes (log p) (values p))
    (hsmall : ∀ x ∈ events, x.2.remaining.natAbs ≤ 2 ^ 53) :
    ∃ values', storeBytes values p events = some (values', (store log p events).2) ∧
      ∀ p', List.Forall₂ Encodes ((store log p events).1 p') (values' p') := by
  induction events generalizing log values with
  | nil => exact ⟨values, rfl, hlog⟩
  | cons x events ih =>
      rcases x with ⟨r, event⟩
      rcases decodeEvent_encodeEvent (hsmall _ List.mem_cons_self) with ⟨value, henc, hdec⟩
      have happend : ∀ p', List.Forall₂ Encodes (log.append p event p')
          (Function.update values p (values p ++ [value]) p') := by
        intro p'
        rw [Log.append]
        by_cases hp : p' = p
        · rw [hp, Function.update_self, Function.update_self]
          exact List.rel_append (hlog p) (.cons ⟨henc, hdec⟩ .nil)
        · rw [Function.update_of_ne hp, Function.update_of_ne hp]
          exact hlog p'
      rcases ih happend fun x hx => hsmall x (List.mem_cons_of_mem _ hx)
        with ⟨values', hstore, hvalues⟩
      refine ⟨values', ?_, hvalues⟩
      rw [storeBytes, henc, Option.bind_eq_bind, Option.bind_some, hstore, store,
        (hlog p).length_eq]
      rfl

/-- What relates the systems with `n` steps to go. -/
structure InStep (n : ℕ) (s : System) (w : Wire) : Prop where
  carries : Carries s w
  fits : ∃ m, Product.initialStock ≤ m ∧ m + n ≤ 2 ^ 53 ∧ s.product.Fits m

lemma Carries.deliverable {s : System} {w : Wire} (h : Carries s w) (ev : DeployedEvent) :
    w.deliverable ev = s.deliverable ev := by
  cases ev with
  | consumer ev =>
      cases ev with
      | deliver e => rw [Wire.deliverable, System.deliverable, h.read, h.consumer]
      | _ => rfl
  | _ => rfl

/-- **Both systems take an action alike.** -/
lemma InStep.step {o : KafkaOptions} {n : ℕ} {s : System} {w : Wire} (h : InStep (n + 1) s w)
    (a : Action) : Machine.Alike (InStep n) ((system o).step s a) ((wire o).step w a) := by
  rcases h with ⟨hcarries, m, hstart, hm, hfits⟩
  push_cast at hm
  cases a with
  | product a p =>
      show Machine.Alike (InStep n) (System.step o s (.product a p)) (Wire.step o w (.product a p))
      rw [System.step, Wire.step, hcarries.product]
      cases hstep : s.product.step a with
      | none => exact .none
      | some x =>
          rcases x with ⟨product, out⟩
          rcases store_encodes p hcarries.log (hfits.publications (by omega) hstep)
            with ⟨values, hstore, hvalues⟩
          rw [Option.bind_some]
          dsimp only
          rw [hstore]
          refine .some ⟨⟨⟨rfl, hvalues, hcarries.consumer⟩, m + 1, by omega, by omega, ?_⟩, rfl⟩
          exact hfits.step hstart hstep
  | consumer ev =>
      show Machine.Alike (InStep n) (System.step o s (.consumer ev)) (Wire.step o w (.consumer ev))
      rw [System.step, Wire.step, hcarries.deliverable, hcarries.consumer]
      split_ifs with hdeliverable
      · cases s.consumer.step o ev with
        | none => exact .none
        | some x =>
            exact .some ⟨⟨⟨hcarries.product, hcarries.log, rfl⟩, m, hstart, by omega, hfits⟩, rfl⟩
      · exact .none

/-- **The topic can just as well hold bytes.**  The system whose events are written as JSON when
they are emitted, and read again when they are delivered, runs exactly as the one whose topic holds
the events: it takes the same schedules, with the same outputs, and the API and the consumer are in
the same states.  The numbers stay within those that JSON has exactly. -/
theorem wire_run {o : KafkaOptions} {redis : Product.Redis} {as : List Action}
    (hsmall : max Product.initialStock redis.stock + as.length ≤ 2 ^ 53) :
    Machine.Alike Carries ((system o).run (System.start redis) as)
      ((wire o).run (Wire.start redis) as) := by
  have hstart : InStep as.length (System.start redis) (Wire.start redis) :=
    ⟨carries_start redis, _, le_max_left _ _, hsmall,
      ⟨le_max_right _ _, Product.allPhases_start _ _⟩⟩
  have hrun := Machine.run_alike (fun _ _ _ a (h : InStep _ _ _) => h.step (o := o) a) hstart
  exact hrun.imp fun _ _ h => h.carries

theorem wire_run_threeOrders : ∃ w h,
    (wire bootstrapOptions).run (Wire.start fiveUnits) threeOrders = some (w, h) ∧
      w.consumer.world.orders.rows.length = 3 := by
  have hruns : ((system bootstrapOptions).run (System.start fiveUnits) threeOrders).any (fun r =>
      decide (r.1.consumer.world.orders.rows.length = 3)) = true := by
    decide +kernel
  rcases (Option.any_eq_true _ _).mp hruns with ⟨⟨s, h⟩, hrun, hrows⟩
  have halike := @wire_run bootstrapOptions fiveUnits threeOrders (by decide)
  rw [hrun] at halike
  cases hwire : (wire bootstrapOptions).run (Wire.start fiveUnits) threeOrders with
  | none =>
      rw [hwire] at halike
      cases halike
  | some x =>
      rw [hwire] at halike
      rcases x with ⟨w, g⟩
      cases halike with
      | some hx =>
          refine ⟨w, g, rfl, ?_⟩
          rw [hx.1.consumer]
          exact of_decide_eq_true hrows

end Pipeline

end RedisApi
