import RedisApi.Core.Machine
import RedisApi.Core.Processes
import RedisApi.OrderConsumer.CommitOffsets
import Mathlib.Algebra.Group.Nat.Defs

/-!
# `OrderService`

The process that buffers events and flushes them in batches (`order.service.ts`).  JavaScript runs
a function without interruption up to its next `await`, so the states of the service are the ones
in which every running activation of `flush` is suspended at an `await`, and a step is what wakes
the process: a call of `createFromEvent` or `onModuleDestroy`, a promise of `repo.save` or
`consumer.commitOffsets` that settles, or a timer.

* `Flush` — one activation of `flush`: its local variables (`batch`, `orders`, `attempt`) and the
  `await` it is suspended at.  Several may be suspended at once; that they overlap only after a
  shutdown is a theorem (`Batching.lean`), not built in.
* `OrderService.step` — one function per continuation: `afterSave` is the code between
  `await this.repo.save(orders)` and `await this.commitOffsets(batch)`, `caught` the `catch` block,
  `afterDelay` the head of the `for` loop, and `finish` the two places that splice the batch off
  the buffer.
* `Step` — what a step can do to buffer, flag and activations (`step_cases`).
-/

namespace RedisApi

open Core

/-! ## Constants -/

def batchSize : ℕ := 3
def maxRetries : ℕ := 5
def retryBaseMs : ℕ := 200

/-- `RETRY_BASE_MS * 2 ** (attempt - 1)` -/
def retryDelay (attempt : ℕ) : ℕ := retryBaseMs * 2 ^ (attempt - 1)

/-! ## State -/

/-- Where an activation of `flush` stands: suspended in an `await` of its `try` or `catch` block,
or returned, either after `'Batch saved'` or after `'Batch permanently failed'`. -/
inductive Await
  | save
  | commitOffsets
  | delay
  | batchSaved
  | deadLettered
  deriving DecidableEq, Repr

def Await.pending : Await → Bool
  | .save | .commitOffsets | .delay => true
  | .batchSaved | .deadLettered => false

/-- One activation of `flush`.  `caller` is the event whose `createFromEvent` awaits it, if any. -/
structure Flush where
  batch : List BufferedEvent
  orders : List Order
  attempt : ℕ
  await : Await
  caller : Option KafkaContext
  deriving DecidableEq, Repr

def Flush.pending (f : Flush) : Bool := f.await.pending

structure OrderService where
  buffer : List BufferedEvent
  flushing : Bool
  flushes : List Flush
  deriving DecidableEq, Repr

/-- What a step can be observed to do. -/
inductive Output
  | received (e : BufferedEvent)
  | save (i : ℕ) (orders : List Order)
  | commitOffsets (i : ℕ) (offsets : List TopicPartitionOffset)
  | setTimeout (i : ℕ) (ms : ℕ)
  | splice (i : ℕ) (batch removed : List BufferedEvent)
  | handled (context : KafkaContext)
  deriving DecidableEq, Repr

/-- What can wake the process. -/
inductive Action
  | createFromEvent (dto : InventoryEventDto) (context : KafkaContext)
  | onModuleDestroy
  | saveResolved (i : ℕ) (saved : List Order)
  | saveRejected (i : ℕ)
  | commitResolved (i : ℕ)
  | commitRejected (i : ℕ)
  | timeout (i : ℕ)
  deriving DecidableEq, Repr

namespace OrderService

/-- The service as constructed. -/
def fresh : OrderService where
  buffer := []
  flushing := false
  flushes := []

/-- The activation `i`, if it is suspended at the given `await`. -/
def awaiting (s : OrderService) (i : ℕ) (w : Await) : Option Flush :=
  match s.flushes[i]? with
  | none => none
  | some f => if f.await = w then some f else none

/-! ## The code between two `await`s -/

/-- `flush()` up to its first `await`. -/
def flush (s : OrderService) (caller : Option KafkaContext) : OrderService × List Output :=
  let batch := s.buffer.take batchSize
  let orders := batch.map repoCreate
  ({ s with
      flushing := true
      flushes := s.flushes ++
        [{ batch := batch, orders := orders, attempt := 1, await := .save, caller := caller }] },
    [.save s.flushes.length orders])

def createFromEvent (s : OrderService) (dto : InventoryEventDto) (context : KafkaContext) :
    OrderService × List Output :=
  let e : BufferedEvent := { dto := dto, context := context }
  let s := { s with buffer := s.buffer ++ [e] }
  if batchSize ≤ s.buffer.length ∧ s.flushing = false then
    let r := s.flush (some context)
    (r.1, .received e :: r.2)
  else
    (s, [.received e, .handled context])

def onModuleDestroy (s : OrderService) : OrderService × List Output :=
  if 0 < s.buffer.length then s.flush none else (s, [])

/-- Activation `i` goes on with new local variables. -/
def move (s : OrderService) (i : ℕ) (f : Flush) : OrderService :=
  { s with flushes := s.flushes.set i f }

/-- `this.buffer.splice(0, batch.length); this.flushing = false;` and the activation returns. -/
def finish (s : OrderService) (i : ℕ) (f : Flush) (how : Await) : OrderService × List Output :=
  ({ s with
      buffer := s.buffer.drop f.batch.length
      flushing := false
      flushes := s.flushes.set i { f with await := how } },
    .splice i f.batch (s.buffer.take f.batch.length) :: f.caller.toList.map .handled)

/-- After `await this.repo.save(orders)`, which has written the ids into the order objects. -/
def afterSave (s : OrderService) (i : ℕ) (f : Flush) (saved : List Order) :
    OrderService × List Output :=
  (s.move i { f with orders := saved, await := .commitOffsets },
    [.commitOffsets i (RedisApi.commitOffsets f.batch)])

/-- The `catch` block, up to the `await` of its timer. -/
def caught (s : OrderService) (i : ℕ) (f : Flush) : OrderService × List Output :=
  (s.move i { f with await := .delay }, [.setTimeout i (retryDelay f.attempt)])

/-- `attempt++`, the loop test, and the code behind the loop. -/
def afterDelay (s : OrderService) (i : ℕ) (f : Flush) : OrderService × List Output :=
  if f.attempt + 1 ≤ maxRetries then
    (s.move i { f with attempt := f.attempt + 1, await := .save }, [.save i f.orders])
  else
    s.finish i f .deadLettered

/-! ## Steps -/

def step (s : OrderService) : Action → Option (OrderService × List Output)
  | .createFromEvent dto context => some (s.createFromEvent dto context)
  | .onModuleDestroy => some s.onModuleDestroy
  | .saveResolved i saved => (s.awaiting i .save).map fun f => s.afterSave i f saved
  | .saveRejected i => (s.awaiting i .save).map fun f => s.caught i f
  | .commitResolved i => (s.awaiting i .commitOffsets).map fun f => s.finish i f .batchSaved
  | .commitRejected i => (s.awaiting i .commitOffsets).map fun f => s.caught i f
  | .timeout i => (s.awaiting i .delay).map fun f => s.afterDelay i f

lemma awaiting_eq_some {s : OrderService} {i : ℕ} {w : Await} {f : Flush} :
    s.awaiting i w = some f ↔ s.flushes[i]? = some f ∧ f.await = w := by
  rw [awaiting]
  cases s.flushes[i]? with
  | none => simp
  | some g =>
      by_cases hg : g.await = w
      · simp only [hg, if_true, Option.some.injEq]
        exact ⟨fun h => ⟨h, h ▸ hg⟩, fun h => h.1⟩
      · simp only [hg, if_false, Option.some.injEq]
        exact ⟨fun h => absurd h (by simp), fun h => absurd (h.1 ▸ h.2) hg⟩

/-- An activation that can be woken has not ended. -/
lemma pending_of_awaiting {s : OrderService} {i : ℕ} {w : Await} {f : Flush}
    (h : s.awaiting i w = some f) (hw : w.pending = true) :
    s.flushes[i]? = some f ∧ f.pending = true := by
  obtain ⟨hi, hawait⟩ := awaiting_eq_some.mp h
  exact ⟨hi, by rw [Flush.pending, hawait, hw]⟩

@[simp] lemma move_buffer (s : OrderService) (i : ℕ) (f : Flush) :
    (s.move i f).buffer = s.buffer := rfl
@[simp] lemma move_flushing (s : OrderService) (i : ℕ) (f : Flush) :
    (s.move i f).flushing = s.flushing := rfl
@[simp] lemma move_flushes (s : OrderService) (i : ℕ) (f : Flush) :
    (s.move i f).flushes = s.flushes.set i f := rfl

/-- `out` neither takes an event in nor takes one off the buffer. -/
def Quiet (out : List Output) : Prop :=
  ∀ o ∈ out, (∀ e, o ≠ .received e) ∧ ∀ i b r, o ≠ .splice i b r

/-- Activation `i` moves on inside its loop: it is pending before and after, and keeps its batch. -/
structure Moves (s : OrderService) (i : ℕ) (f f' : Flush) : Prop where
  at_i : s.flushes[i]? = some f
  pending : f.pending = true
  pending' : f'.pending = true
  batch : f'.batch = f.batch

/-- **What a step can do**: take an event in, start the shutdown, move one activation on, or end
one. -/
inductive Step (s s' : OrderService) (out : List Output) : Action → Prop
  | received (dto : InventoryEventDto) (context : KafkaContext)
      (heq : (s', out) = s.createFromEvent dto context) :
      Step s s' out (.createFromEvent dto context)
  | shutDown (heq : (s', out) = s.onModuleDestroy) : Step s s' out .onModuleDestroy
  | moved {a : Action} (i : ℕ) (f f' : Flush) (heq : s' = s.move i f') (hm : Moves s i f f')
      (hq : Quiet out) : Step s s' out a
  | ended {a : Action} (i : ℕ) (f : Flush) (how : Await) (hi : s.flushes[i]? = some f)
      (hp : f.pending = true) (hhow : how.pending = false)
      (heq : (s', out) = s.finish i f how) : Step s s' out a

theorem step_cases {s s' : OrderService} {a : Action} {out : List Output}
    (h : s.step a = some (s', out)) : Step s s' out a := by
  cases a with
  | createFromEvent dto context => exact .received dto context (Option.some.inj h).symm
  | onModuleDestroy => exact .shutDown (Option.some.inj h).symm
  | saveResolved i saved =>
      obtain ⟨f, hf, heq⟩ := Option.map_eq_some_iff.mp h
      obtain ⟨hi, hp⟩ := pending_of_awaiting hf rfl
      obtain ⟨rfl, rfl⟩ := Prod.mk.injEq .. ▸ heq
      exact .moved i f _ rfl ⟨hi, hp, rfl, rfl⟩ (by simp [Quiet])
  | saveRejected i =>
      obtain ⟨f, hf, heq⟩ := Option.map_eq_some_iff.mp h
      obtain ⟨hi, hp⟩ := pending_of_awaiting hf rfl
      obtain ⟨rfl, rfl⟩ := Prod.mk.injEq .. ▸ heq
      exact .moved i f _ rfl ⟨hi, hp, rfl, rfl⟩ (by simp [Quiet])
  | commitResolved i =>
      obtain ⟨f, hf, heq⟩ := Option.map_eq_some_iff.mp h
      obtain ⟨hi, hp⟩ := pending_of_awaiting hf rfl
      exact .ended i f .batchSaved hi hp rfl heq.symm
  | commitRejected i =>
      obtain ⟨f, hf, heq⟩ := Option.map_eq_some_iff.mp h
      obtain ⟨hi, hp⟩ := pending_of_awaiting hf rfl
      obtain ⟨rfl, rfl⟩ := Prod.mk.injEq .. ▸ heq
      exact .moved i f _ rfl ⟨hi, hp, rfl, rfl⟩ (by simp [Quiet])
  | timeout i =>
      obtain ⟨f, hf, heq⟩ := Option.map_eq_some_iff.mp h
      obtain ⟨hi, hp⟩ := pending_of_awaiting hf rfl
      rw [afterDelay] at heq
      split_ifs at heq
      · obtain ⟨rfl, rfl⟩ := Prod.mk.injEq .. ▸ heq
        exact .moved i f _ rfl ⟨hi, hp, rfl, rfl⟩ (by simp [Quiet])
      · exact .ended i f .deadLettered hi hp rfl heq.symm

end OrderService

/-- The service as a machine. -/
def orderService : Machine OrderService Action Output where
  step := OrderService.step

end RedisApi
