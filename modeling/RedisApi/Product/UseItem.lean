import RedisApi.Core.Machine
import RedisApi.Core.Processes
import RedisApi.OrderConsumer.Order
import Mathlib.Algebra.Group.Nat.Defs
import Mathlib.Data.Int.Order.Basic

/-!
# `useItem` and the two Redis keys

Any number of `useItem` requests, with `getInventory` and `resetInventory` beside them, over one
Redis (`product.controller.ts`, `redis.service.ts`).  Redis runs one command or script at a time,
so a step executes one command and takes the request that sent it to its next `await`; requests
share nothing else.

* `Redis` — the keys `inventory` and `lock:inventory`, and the clock that the lock's time to live
  is counted on.  The scripts are functions on it.
* `Phase` — the `await` a request is suspended at, with the local variables it still needs.
* `State.step` — a request arrives; the call it awaits returns, or its timer fires (`resume`); the
  Redis call it awaits is rejected, without effect (`reject`); its emit is rejected
  (`rejectEmit`), before or after the broker has stored the event; somebody reads or resets the
  inventory; a millisecond passes (`tick`).
* `Transition` — what can happen to one request, as a relation; `Step` is a step of the machine in
  terms of it (`step_cases`).
-/

namespace RedisApi.Product

open Core

/-! ## Constants -/

def initialStock : ℤ := 1000
def lockTtlMs : ℕ := 300
def lockRetryCount : ℕ := 5
def lockRetryMs : ℕ := 50

/-- `LOCK_RETRY_MS * 2 ** (attempt - 1)` -/
def retryDelay (attempt : ℕ) : ℕ := lockRetryMs * 2 ^ (attempt - 1)

/-! ## Redis -/

/-- What `randomUUID()` returns in one call of `acquireLock`: no other call gets the same. -/
structure Token where
  request : ℕ
  attempt : ℕ
  deriving DecidableEq, Repr

/-- The value of `lock:inventory` and the time at which it expires. -/
structure Lock where
  token : Token
  expiresAt : ℕ
  deriving DecidableEq, Repr

structure Redis where
  inventory : Option ℤ
  lock : Option Lock
  now : ℕ
  deriving DecidableEq, Repr

namespace Redis

/-- `CHECK_AND_DECREMENT_SCRIPT` on `inventory`. -/
def checkAndDecrement (redis : Redis) (initialValue : ℤ) : Redis × ℤ :=
  let n := redis.inventory.getD initialValue
  if n ≤ 0 then ({ redis with inventory := some n }, -1)
  else ({ redis with inventory := some (n - 1) }, n - 1)

/-- `INCR inventory` -/
def increment (redis : Redis) : Redis :=
  { redis with inventory := some (redis.inventory.getD 0 + 1) }

/-- `SET inventory value` -/
def set (redis : Redis) (value : ℤ) : Redis := { redis with inventory := some value }

/-- `SET lock:inventory token PX ttlMs NX`: the token if the key was absent. -/
def acquireLock (redis : Redis) (token : Token) (ttlMs : ℕ) : Redis × Option Token :=
  match redis.lock with
  | some _ => (redis, none)
  | none =>
      ({ redis with lock := some { token := token, expiresAt := redis.now + ttlMs } }, some token)

/-- `RELEASE_LOCK_SCRIPT` on `lock:inventory`. -/
def releaseLock (redis : Redis) (token : Token) : Redis :=
  match redis.lock with
  | none => redis
  | some lock => if lock.token = token then { redis with lock := none } else redis

/-- A millisecond passes, and a lock whose time is up is gone. -/
def tick (redis : Redis) : Redis :=
  { redis with
    now := redis.now + 1
    lock := redis.lock.filter fun lock => redis.now + 1 < lock.expiresAt }

/-- `getInventory`: the stored value, or `INITIAL_STOCK` when there is none. -/
def stock (redis : Redis) : ℤ := redis.inventory.getD initialStock

end Redis

/-! ## Requests -/

/-- The body of an answer. -/
structure Answer where
  success : Bool
  remaining : ℤ
  message : String
  deriving DecidableEq, Repr

/-- How a request ends: with an answer, with an `HttpException`, or with the rejection of a Redis
call that nobody caught. -/
inductive Outcome
  | answer (a : Answer)
  | httpException (status : ℕ) (message : String)
  | rejected
  deriving DecidableEq, Repr

/-- `remaining === 0 ? 'Last item used!' : …` -/
def itemMessage (remaining : ℤ) : String :=
  if remaining = 0 then "Last item used!" else s!"Item used. {remaining} left."

namespace Outcome

def itemUsed (remaining : ℤ) : Outcome :=
  .answer { success := true, remaining := remaining, message := itemMessage remaining }

def outOfStock : Outcome :=
  .answer { success := false, remaining := 0, message := "no inventory available" }

def lockContention : Outcome :=
  .httpException 503 "Another transaction is in progress. Please retry shortly."

def deliveryFailed : Outcome := .httpException 503 "Event delivery failed. Please retry."

end Outcome

/-- Where a request stands.  `releasing` is the `finally` block; it has no `remaining` when
`checkAndDecrement` was rejected. -/
inductive Phase
  | acquiring (attempt : ℕ)
  | backoff (attempt wakeAt : ℕ)
  | checking (token : Token)
  | releasing (token : Token) (remaining : Option ℤ)
  | emitting (remaining : ℤ)
  | rollingBack (remaining : ℤ)
  | ended (outcome : Outcome)
  deriving DecidableEq, Repr

/-- A request, with the correlation id its event will carry. -/
structure Request where
  correlationId : String
  phase : Phase
  deriving DecidableEq, Repr

/-- The event of a request that used an item. -/
def Request.event (q : Request) (remaining : ℤ) : InventoryEventDto where
  remaining := remaining
  success := true
  message := itemMessage remaining
  correlationId := some q.correlationId

/-- What a step can be observed to do. -/
inductive Output
  | started (r : ℕ)
  | locked (r : ℕ) (token : Token) (atMs : ℕ)
  | checked (r : ℕ) (remaining : ℤ)
  | unlocked (r : ℕ) (token : Token) (atMs : ℕ)
  | releaseRejected (r : ℕ)
  | emitted (r : ℕ) (event : InventoryEventDto)
  | emitFailed (r : ℕ) (stored : Option InventoryEventDto)
  | incremented (r : ℕ)
  | ended (r : ℕ) (outcome : Outcome)
  | read (remaining : ℤ)
  | reset
  deriving DecidableEq, Repr

namespace Output

/-- The request that emitted an output. -/
def request : Output → Option ℕ
  | .started r | .locked r _ _ | .checked r _ | .unlocked r _ _ | .releaseRejected r
  | .emitted r _ | .emitFailed r _ | .incremented r | .ended r _ => some r
  | .read _ | .reset => none

/-- The event that the broker appends to `inventory.item-used`. -/
def published : Output → Option InventoryEventDto
  | .emitted _ event => some event
  | .emitFailed _ stored => stored
  | _ => none

end Output

/-! ## One request -/

/-- What becomes of Redis, the phase of the request, and what is emitted. -/
abbrev Result := Redis × Phase × List Output

/-- The call that request `r` awaits takes effect and returns, or its timer fires. -/
def resume (redis : Redis) (r : ℕ) (q : Request) : Option Result :=
  match q.phase with
  | .acquiring attempt =>
      match redis.acquireLock { request := r, attempt := attempt } lockTtlMs with
      | (redis', some token) => some (redis', .checking token, [.locked r token redis.now])
      | (redis', none) => some (redis', .backoff attempt (redis.now + retryDelay attempt), [])
  | .backoff attempt wakeAt =>
      if wakeAt ≤ redis.now then
        if attempt + 1 ≤ lockRetryCount then some (redis, .acquiring (attempt + 1), [])
        else some (redis, .ended .lockContention, [.ended r .lockContention])
      else none
  | .checking token =>
      let (redis', remaining) := redis.checkAndDecrement initialStock
      some (redis', .releasing token (some remaining), [.checked r remaining])
  | .releasing token remaining =>
      let redis' := redis.releaseLock token
      match remaining with
      | none =>
          some (redis', .ended .rejected, [.unlocked r token redis.now, .ended r .rejected])
      | some n =>
          if n < 0 then
            some (redis', .ended .outOfStock, [.unlocked r token redis.now, .ended r .outOfStock])
          else some (redis', .emitting n, [.unlocked r token redis.now])
  | .emitting n =>
      some (redis, .ended (.itemUsed n), [.emitted r (q.event n), .ended r (.itemUsed n)])
  | .rollingBack _ =>
      some (redis.increment, .ended .deliveryFailed, [.incremented r, .ended r .deliveryFailed])
  | .ended _ => none

/-- The Redis call that request `r` awaits is rejected, and has had no effect. -/
def reject (redis : Redis) (r : ℕ) (q : Request) : Option Result :=
  match q.phase with
  | .acquiring _ | .rollingBack _ => some (redis, .ended .rejected, [.ended r .rejected])
  | .checking token => some (redis, .releasing token none, [])
  | .releasing _ _ => some (redis, .ended .rejected, [.releaseRejected r, .ended r .rejected])
  | .backoff _ _ | .emitting _ | .ended _ => none

/-- The emit of request `r` is rejected; the broker may have stored the event all the same. -/
def rejectEmit (redis : Redis) (r : ℕ) (stored : Bool) (q : Request) : Option Result :=
  match q.phase with
  | .emitting n =>
      some (redis, .rollingBack n, [.emitFailed r (if stored then some (q.event n) else none)])
  | _ => none

/-! ## The machine -/

structure State where
  redis : Redis
  requests : List Request
  topic : List InventoryEventDto
  deriving DecidableEq, Repr

inductive Action
  | useItem (correlationId : String)
  | resume (r : ℕ)
  | reject (r : ℕ)
  | rejectEmit (r : ℕ) (stored : Bool)
  | getInventory
  | resetInventory
  | tick
  deriving DecidableEq, Repr

namespace State

/-- No request has arrived yet. -/
def start (redis : Redis) : State where
  redis := redis
  requests := []
  topic := []

/-- Request `r` does what `k` says it can do. -/
def advance (s : State) (r : ℕ) (k : Request → Option Result) : Option (State × List Output) :=
  match s.requests[r]? with
  | none => none
  | some q => (k q).map fun (redis, phase, out) =>
      ({ redis := redis
         requests := s.requests.set r { q with phase := phase }
         topic := s.topic ++ out.filterMap Output.published }, out)

def step (s : State) : Action → Option (State × List Output)
  | .useItem correlationId =>
      some ({ s with requests := s.requests ++
        [{ correlationId := correlationId, phase := .acquiring 1 }] }, [.started s.requests.length])
  | .resume r => s.advance r (Product.resume s.redis r)
  | .reject r => s.advance r (Product.reject s.redis r)
  | .rejectEmit r stored => s.advance r (Product.rejectEmit s.redis r stored)
  | .getInventory => some (s, [.read s.redis.stock])
  | .resetInventory => some ({ s with redis := s.redis.set initialStock }, [.reset])
  | .tick => some ({ s with redis := s.redis.tick }, [])

end State

/-- The product controller as a machine. -/
def product : Machine State Action Output where
  step := State.step

/-! ## Transitions -/

/-- **What can happen to a request**, one constructor for each way out of a phase. -/
inductive Transition (redis : Redis) (r : ℕ) (q : Request) : Action → Phase → Result → Prop
  | acquired {attempt : ℕ} (free : redis.lock = none) :
      Transition redis r q (.resume r) (.acquiring attempt)
        ({ redis with lock := some ⟨⟨r, attempt⟩, redis.now + lockTtlMs⟩ },
          .checking ⟨r, attempt⟩, [.locked r ⟨r, attempt⟩ redis.now])
  | contended {attempt : ℕ} {lock : Lock} (held : redis.lock = some lock) :
      Transition redis r q (.resume r) (.acquiring attempt)
        (redis, .backoff attempt (redis.now + retryDelay attempt), [])
  | woken {attempt wakeAt : ℕ} (due : wakeAt ≤ redis.now) (left : attempt + 1 ≤ lockRetryCount) :
      Transition redis r q (.resume r) (.backoff attempt wakeAt)
        (redis, .acquiring (attempt + 1), [])
  | exhausted {attempt wakeAt : ℕ} (due : wakeAt ≤ redis.now)
      (none_left : lockRetryCount < attempt + 1) :
      Transition redis r q (.resume r) (.backoff attempt wakeAt)
        (redis, .ended .lockContention, [.ended r .lockContention])
  | refused {token : Token} (empty : redis.stock ≤ 0) :
      Transition redis r q (.resume r) (.checking token)
        (redis.set redis.stock, .releasing token (some (-1)), [.checked r (-1)])
  | decremented {token : Token} (positive : 0 < redis.stock) :
      Transition redis r q (.resume r) (.checking token)
        (redis.set (redis.stock - 1), .releasing token (some (redis.stock - 1)),
          [.checked r (redis.stock - 1)])
  | releasedRejected {token : Token} :
      Transition redis r q (.resume r) (.releasing token none)
        (redis.releaseLock token, .ended .rejected,
          [.unlocked r token redis.now, .ended r .rejected])
  | releasedEmpty {token : Token} {n : ℤ} (negative : n < 0) :
      Transition redis r q (.resume r) (.releasing token (some n))
        (redis.releaseLock token, .ended .outOfStock,
          [.unlocked r token redis.now, .ended r .outOfStock])
  | released {token : Token} {n : ℤ} (nonneg : 0 ≤ n) :
      Transition redis r q (.resume r) (.releasing token (some n))
        (redis.releaseLock token, .emitting n, [.unlocked r token redis.now])
  | emitted {n : ℤ} :
      Transition redis r q (.resume r) (.emitting n)
        (redis, .ended (.itemUsed n), [.emitted r (q.event n), .ended r (.itemUsed n)])
  | rolledBack {n : ℤ} :
      Transition redis r q (.resume r) (.rollingBack n)
        (redis.increment, .ended .deliveryFailed, [.incremented r, .ended r .deliveryFailed])
  | acquireRejected {attempt : ℕ} :
      Transition redis r q (.reject r) (.acquiring attempt)
        (redis, .ended .rejected, [.ended r .rejected])
  | checkRejected {token : Token} :
      Transition redis r q (.reject r) (.checking token) (redis, .releasing token none, [])
  | releaseRejected {token : Token} {remaining : Option ℤ} :
      Transition redis r q (.reject r) (.releasing token remaining)
        (redis, .ended .rejected, [.releaseRejected r, .ended r .rejected])
  | incrementRejected {n : ℤ} :
      Transition redis r q (.reject r) (.rollingBack n)
        (redis, .ended .rejected, [.ended r .rejected])
  | emitRejected {n : ℤ} {stored : Bool} :
      Transition redis r q (.rejectEmit r stored) (.emitting n)
        (redis, .rollingBack n, [.emitFailed r (if stored then some (q.event n) else none)])

namespace Redis

@[simp] lemma set_stock (redis : Redis) (value : ℤ) : (redis.set value).stock = value := rfl
@[simp] lemma set_lock (redis : Redis) (value : ℤ) : (redis.set value).lock = redis.lock := rfl
@[simp] lemma set_now (redis : Redis) (value : ℤ) : (redis.set value).now = redis.now := rfl

lemma increment_stock {redis : Redis} (h : redis.inventory.isSome) :
    redis.increment.stock = redis.stock + 1 := by
  obtain ⟨n, hn⟩ := Option.isSome_iff_exists.mp h
  simp [increment, stock, hn]

@[simp] lemma releaseLock_inventory (redis : Redis) (token : Token) :
    (redis.releaseLock token).inventory = redis.inventory := by
  rw [releaseLock]
  split
  · rfl
  · split_ifs <;> rfl

@[simp] lemma releaseLock_now (redis : Redis) (token : Token) :
    (redis.releaseLock token).now = redis.now := by
  rw [releaseLock]
  split
  · rfl
  · split_ifs <;> rfl

@[simp] lemma releaseLock_stock (redis : Redis) (token : Token) :
    (redis.releaseLock token).stock = redis.stock := by
  rw [stock, stock, releaseLock_inventory]

end Redis

/-- A transition of request `r` emits nothing in the name of another. -/
lemma Transition.request_eq {redis : Redis} {r : ℕ} {q : Request} {a : Action} {before : Phase}
    {res : Result} (ht : Transition redis r q a before res) :
    ∀ o ∈ res.2.2, o.request = some r := by
  cases ht <;> simp [Output.request]

lemma checkAndDecrement_of_nonpos {redis : Redis} (h : redis.stock ≤ 0) :
    redis.checkAndDecrement initialStock = (redis.set redis.stock, -1) := if_pos h

lemma checkAndDecrement_of_pos {redis : Redis} (h : 0 < redis.stock) :
    redis.checkAndDecrement initialStock = (redis.set (redis.stock - 1), redis.stock - 1) :=
  if_neg (not_le.mpr h)

lemma transition_of_resume {redis : Redis} {r : ℕ} {q : Request} {res : Result}
    (h : resume redis r q = some res) : Transition redis r q (.resume r) q.phase res := by
  rw [resume] at h
  cases hp : q.phase with
  | acquiring attempt =>
      rw [hp] at h
      cases hl : redis.lock with
      | none =>
          simp only [Redis.acquireLock, hl, Option.some.injEq] at h
          exact h ▸ .acquired hl
      | some lock =>
          simp only [Redis.acquireLock, hl, Option.some.injEq] at h
          exact h ▸ .contended hl
  | backoff attempt wakeAt =>
      rw [hp] at h
      dsimp only at h
      split_ifs at h with hdue hleft
      · exact Option.some.inj h ▸ .woken hdue hleft
      · exact Option.some.inj h ▸ .exhausted hdue (Nat.lt_of_not_le hleft)
  | checking token =>
      rw [hp] at h
      rcases le_or_gt redis.stock 0 with hs | hs
      · simp only [checkAndDecrement_of_nonpos hs, Option.some.injEq] at h
        exact h ▸ .refused hs
      · simp only [checkAndDecrement_of_pos hs, Option.some.injEq] at h
        exact h ▸ .decremented hs
  | releasing token remaining =>
      rw [hp] at h
      cases remaining with
      | none => exact Option.some.inj h ▸ .releasedRejected
      | some n =>
          dsimp only at h
          split_ifs at h with hn
          · exact Option.some.inj h ▸ .releasedEmpty hn
          · exact Option.some.inj h ▸ .released (not_lt.mp hn)
  | emitting n =>
      rw [hp] at h
      exact Option.some.inj h ▸ .emitted
  | rollingBack n =>
      rw [hp] at h
      exact Option.some.inj h ▸ .rolledBack
  | ended outcome =>
      rw [hp] at h
      exact absurd h (by simp)

lemma transition_of_reject {redis : Redis} {r : ℕ} {q : Request} {res : Result}
    (h : reject redis r q = some res) : Transition redis r q (.reject r) q.phase res := by
  rw [reject] at h
  cases hp : q.phase with
  | acquiring attempt =>
      rw [hp] at h
      exact Option.some.inj h ▸ .acquireRejected
  | checking token =>
      rw [hp] at h
      exact Option.some.inj h ▸ .checkRejected
  | releasing token remaining =>
      rw [hp] at h
      exact Option.some.inj h ▸ .releaseRejected
  | rollingBack n =>
      rw [hp] at h
      exact Option.some.inj h ▸ .incrementRejected
  | _ =>
      rw [hp] at h
      exact absurd h (by simp)

lemma transition_of_rejectEmit {redis : Redis} {r : ℕ} {stored : Bool} {q : Request} {res : Result}
    (h : rejectEmit redis r stored q = some res) :
    Transition redis r q (.rejectEmit r stored) q.phase res := by
  rw [rejectEmit] at h
  cases hp : q.phase with
  | emitting n =>
      rw [hp] at h
      exact Option.some.inj h ▸ .emitRejected
  | _ =>
      rw [hp] at h
      exact absurd h (by simp)

/-- Request `r` goes from one phase to another: it alone changes, and what it emits decides what is
appended to the topic. -/
structure Advances (s : State) (a : Action) (r : ℕ) (q : Request) (before : Phase) (redis : Redis)
    (after : Phase) (out : List Output) (s' : State) : Prop where
  at_r : s.requests[r]? = some q
  phase : q.phase = before
  transition : Transition s.redis r q a before (redis, after, out)
  state : s' = { redis := redis
                 requests := s.requests.set r { q with phase := after }
                 topic := s.topic ++ out.filterMap Output.published }

lemma advances_of_advance {s s' : State} {a : Action} {r : ℕ} {k : Request → Option Result}
    {out : List Output} (hk : ∀ q res, k q = some res → Transition s.redis r q a q.phase res)
    (h : s.advance r k = some (s', out)) :
    ∃ q before redis after, Advances s a r q before redis after out s' := by
  rw [State.advance] at h
  split at h
  · exact absurd h (by simp)
  · next q hq =>
    obtain ⟨⟨redis, after, out'⟩, hres, heq⟩ := Option.map_eq_some_iff.mp h
    obtain ⟨rfl, rfl⟩ := Prod.mk.injEq .. ▸ heq
    exact ⟨q, q.phase, redis, after, hq, rfl, hk q _ hres, rfl⟩

/-- **What a step can do**: let a request arrive, take one through a transition, read or reset the
inventory, or let time pass. -/
inductive Step (s : State) : Action → State → List Output → Prop
  | arrived (correlationId : String) :
      Step s (.useItem correlationId)
        { s with requests := s.requests ++
          [{ correlationId := correlationId, phase := .acquiring 1 }] }
        [.started s.requests.length]
  | advanced {a : Action} {s' : State} {out : List Output} (r : ℕ) (q : Request) (before : Phase)
      (redis : Redis) (after : Phase) (hadv : Advances s a r q before redis after out s') :
      Step s a s' out
  | read : Step s .getInventory s [.read s.redis.stock]
  | reset : Step s .resetInventory { s with redis := s.redis.set initialStock } [.reset]
  | ticked : Step s .tick { s with redis := s.redis.tick } []

theorem step_cases {s s' : State} {a : Action} {out : List Output}
    (h : s.step a = some (s', out)) : Step s a s' out := by
  have advanced (hadv : ∃ r q before redis after, Advances s a r q before redis after out s') :
      Step s a s' out := by
    obtain ⟨r, q, before, redis, after, hadv⟩ := hadv
    exact .advanced r q before redis after hadv
  cases a with
  | useItem correlationId =>
      obtain ⟨rfl, rfl⟩ := Prod.mk.injEq .. ▸ Option.some.inj h
      exact .arrived correlationId
  | resume r => exact advanced ⟨r, advances_of_advance (fun _ _ => transition_of_resume) h⟩
  | reject r => exact advanced ⟨r, advances_of_advance (fun _ _ => transition_of_reject) h⟩
  | rejectEmit r stored =>
      exact advanced ⟨r, advances_of_advance (fun _ _ => transition_of_rejectEmit) h⟩
  | getInventory =>
      obtain ⟨rfl, rfl⟩ := Prod.mk.injEq .. ▸ Option.some.inj h
      exact .read
  | resetInventory =>
      obtain ⟨rfl, rfl⟩ := Prod.mk.injEq .. ▸ Option.some.inj h
      exact .reset
  | tick =>
      obtain ⟨rfl, rfl⟩ := Prod.mk.injEq .. ▸ Option.some.inj h
      exact .ticked

/-! ## Requests by phase -/

/-- `P` holds of every request, by its number and its phase. -/
def State.AllPhases (s : State) (P : ℕ → Phase → Prop) : Prop :=
  ∀ r q, s.requests[r]? = some q → P r q.phase

lemma allPhases_start (redis : Redis) (P : ℕ → Phase → Prop) : (State.start redis).AllPhases P :=
  each_nil _

lemma State.AllPhases.mono {s : State} {P P' : ℕ → Phase → Prop} (hs : s.AllPhases P)
    (hP : ∀ r p, P r p → P' r p) : s.AllPhases P' :=
  fun r q hq => hP r q.phase (hs r q hq)

lemma State.AllPhases.arrival {s : State} {P : ℕ → Phase → Prop} (hs : s.AllPhases P)
    (correlationId : String) (hnew : P s.requests.length (.acquiring 1)) :
    State.AllPhases { s with requests := s.requests ++
      [{ correlationId := correlationId, phase := .acquiring 1 }] } P :=
  Each.concat hs hnew

/-- How many requests are in a phase of which `p` holds. -/
def State.count (s : State) (p : Phase → Bool) : ℕ := s.requests.countP fun q => p q.phase

lemma count_start (redis : Redis) (p : Phase → Bool) : (State.start redis).count p = 0 := rfl

/-- A request that has just arrived counts only where `acquiring 1` does. -/
lemma count_arrival {s : State} {p : Phase → Bool} (correlationId : String)
    (hp : p (.acquiring 1) = false) :
    State.count { s with requests := s.requests ++
      [{ correlationId := correlationId, phase := .acquiring 1 }] } p = s.count p := by
  rw [State.count, State.count, List.countP_append, List.countP_singleton, hp]
  rfl

section advances

variable {s s' : State} {a : Action} {r : ℕ} {q : Request} {before after : Phase} {redis : Redis}
  {out : List Output}

/-- A transition moves one request from one class to another. -/
lemma Advances.count (h : Advances s a r q before redis after out s') (p : Phase → Bool) :
    s'.count p + (if p before then 1 else 0) = s.count p + (if p after then 1 else 0) := by
  have hcount := countP_set_add (p := fun q => p q.phase) h.at_r { q with phase := after }
  rw [h.state, ← h.phase]
  exact hcount

lemma Advances.redis_eq (h : Advances s a r q before redis after out s') : s'.redis = redis := by
  rw [h.state]

/-- The request of the transition is in its new phase afterwards. -/
lemma Advances.at_self (h : Advances s a r q before redis after out s') :
    s'.requests[r]? = some { q with phase := after } := by
  rw [h.state]
  exact (getElem?_set_of_some h.at_r _).trans (if_pos rfl)

/-- The others are where they were. -/
lemma Advances.at_other (h : Advances s a r q before redis after out s') {r' : ℕ} (hr : r ≠ r') :
    s'.requests[r']? = s.requests[r']? := by
  rw [h.state]
  exact List.getElem?_set_ne hr

lemma State.AllPhases.advances {P P' : ℕ → Phase → Prop} (hs : s.AllPhases P)
    (h : Advances s a r q before redis after out s') (hP : ∀ r' p, r ≠ r' → P r' p → P' r' p)
    (hnew : P' r after) : s'.AllPhases P' := by
  rw [h.state]
  exact Each.set hs h.at_r hnew fun r' q' hr => hP r' q'.phase hr

/-- What holds of all phases holds of the one the request is in. -/
lemma Advances.of_allPhases (h : Advances s a r q before redis after out s')
    {P : ℕ → Phase → Prop} (hs : s.AllPhases P) : P r before :=
  h.phase ▸ hs r q h.at_r

/-- A class with a member that is in its phase. -/
lemma State.count_pos (hq : s.requests[r]? = some q) {p : Phase → Bool} (hp : p q.phase = true) :
    0 < s.count p :=
  List.countP_pos_iff.mpr ⟨q, List.mem_of_getElem? hq, hp⟩

end advances

/-! ## Outputs of requests that have arrived -/

/-- Whoever has emitted something has arrived. -/
def Known (h : List Output) (s : State) : Prop :=
  ∀ o ∈ h, ∀ r, o.request = some r → r < s.requests.length

theorem Known.step {h : List Output} {s s' : State} {a : Action} {out : List Output}
    (hk : Known h s) (hstep : s.step a = some (s', out)) : Known (h ++ out) s' := by
  cases step_cases hstep with
  | arrived correlationId =>
      intro o ho r hr
      rw [List.length_append, List.length_singleton]
      rcases List.mem_append.mp ho with ho | ho
      · exact Nat.lt_succ_of_lt (hk o ho r hr)
      · rw [List.mem_singleton.mp ho, Output.request, Option.some.injEq] at hr
        omega
  | advanced r q before redis after hadv =>
      intro o ho r' hr'
      rw [hadv.state, List.length_set]
      rcases List.mem_append.mp ho with ho | ho
      · exact hk o ho r' hr'
      · rw [hadv.transition.request_eq o ho, Option.some.injEq] at hr'
        exact hr' ▸ (List.getElem?_eq_some_iff.mp hadv.at_r).1
  | read =>
      intro o ho r hr
      rcases List.mem_append.mp ho with ho | ho
      · exact hk o ho r hr
      · rw [List.mem_singleton.mp ho] at hr
        exact absurd hr (by simp [Output.request])
  | reset =>
      intro o ho r hr
      rcases List.mem_append.mp ho with ho | ho
      · exact hk o ho r hr
      · rw [List.mem_singleton.mp ho] at hr
        exact absurd hr (by simp [Output.request])
  | ticked =>
      rw [List.append_nil]
      exact hk

/-- Nothing is on record of the request that arrives next. -/
lemma Known.fresh {h : List Output} {s : State} (hk : Known h s) :
    ∀ o ∈ h, o.request ≠ some s.requests.length :=
  fun o ho hr => absurd (hk o ho _ hr) (Nat.lt_irrefl _)

end RedisApi.Product
