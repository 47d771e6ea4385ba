import RedisApi.OrderConsumer.Batching

/-!
# The consumer in its surroundings

`OrderService` between the broker and the database: the broker keeps the group's committed offset
of each partition and the position the consumer reads on from, the database keeps the table
`orders`.  A step lets the broker deliver an event, lets a pending call take effect or fail, fires
a timer, asks for a shutdown, or kills the process.

A call that succeeds takes effect and resumes the service in one step; a crash in between looks
to both stores like one right after it.  A `save` that fails leaves no rows.  A `commitOffsets`
that fails may still have been applied (the answer was lost), which the step says.

A restarted process is a fresh `OrderService` that reads on from the committed offsets.  The
service inside the machine moves by the steps of `orderService` alone (`service_of_step`), so what
`Batching.lean` proves of every run of the service carries over.
-/

namespace RedisApi

open Core OrderService

structure World where
  service : OrderService
  orders : OrdersTable
  committed : ℕ → ℕ
  position : ℕ → ℕ

/-- What happens next. -/
inductive Event
  | deliver (e : BufferedEvent)
  | shutdown
  | saveOk (i : ℕ)
  | saveFail (i : ℕ)
  | commitOk (i : ℕ)
  | commitFail (i : ℕ) (applied : Bool)
  | timeout (i : ℕ)
  | crash
  deriving DecidableEq, Repr

inductive Observation
  | service (o : Output)
  | committed (i : ℕ) (offsets : List TopicPartitionOffset)
  | crashed
  deriving DecidableEq, Repr

namespace World

/-- A consumer group that starts reading where it has committed. -/
def start (orders : OrdersTable) (committed : ℕ → ℕ) : World where
  service := OrderService.fresh
  orders := orders
  committed := committed
  position := committed

/-- The service takes a step. -/
def wake (w : World) (a : Action) : Option (World × List Observation) :=
  (w.service.step a).map fun r => ({ w with service := r.1 }, r.2.map .service)

/-- The broker stores the offsets of activation `i`'s batch. -/
def applyCommit (w : World) (f : Flush) : World :=
  { w with committed := commit w.committed (RedisApi.commitOffsets f.batch) }

def step (w : World) : Event → Option (World × List Observation)
  | .deliver e =>
      wake { w with position := Function.update w.position e.partition (e.offset + 1) } e.arrival
  | .shutdown => w.wake .onModuleDestroy
  | .saveOk i =>
      match w.service.awaiting i .save with
      | none => none
      | some f =>
          match w.orders.save f.orders with
          | none => none
          | some (orders, saved) => wake { w with orders := orders } (.saveResolved i saved)
  | .saveFail i => w.wake (.saveRejected i)
  | .commitOk i =>
      match w.service.awaiting i .commitOffsets with
      | none => none
      | some f =>
          ((w.applyCommit f).wake (.commitResolved i)).map fun r =>
            (r.1, .committed i (RedisApi.commitOffsets f.batch) :: r.2)
  | .commitFail i applied =>
      match w.service.awaiting i .commitOffsets with
      | none => none
      | some f =>
          if applied then
            ((w.applyCommit f).wake (.commitRejected i)).map fun r =>
              (r.1, .committed i (RedisApi.commitOffsets f.batch) :: r.2)
          else w.wake (.commitRejected i)
  | .timeout i => w.wake (.timeout i)
  | .crash =>
      some ({ w with service := OrderService.fresh, position := w.committed }, [.crashed])

end World

/-- The consumer as a machine. -/
def consumer : Machine World Event Observation where
  step := World.step

/-! ## The service inside -/

/-- What the service itself emitted. -/
def serviceOutputs (h : List Observation) : List Output :=
  h.filterMap fun
    | .service o => some o
    | _ => none

lemma serviceOutputs_append (h out : List Observation) :
    serviceOutputs (h ++ out) = serviceOutputs h ++ serviceOutputs out := List.filterMap_append

@[simp] lemma serviceOutputs_map (out : List Output) :
    serviceOutputs (out.map .service) = out := by
  induction out with
  | nil => rfl
  | cons o out ih => exact congrArg (o :: ·) ih

namespace World

lemma wake_eq_some {w w' : World} {a : Action} {obs : List Observation} :
    w.wake a = some (w', obs) ↔ ∃ s out, w.service.step a = some (s, out) ∧
      w' = { w with service := s } ∧ obs = out.map .service := by
  rw [wake, Option.map_eq_some_iff]
  constructor
  · rintro ⟨⟨s, out⟩, hs, heq⟩
    obtain ⟨rfl, rfl⟩ := Prod.mk.injEq .. ▸ heq
    exact ⟨s, out, hs, rfl, rfl⟩
  · rintro ⟨s, out, hs, rfl, rfl⟩
    exact ⟨(s, out), hs, rfl⟩

/-! ### One lemma for each event -/

variable {w w' : World} {obs : List Observation} {i : ℕ}

lemma step_deliver {e : BufferedEvent} (h : w.step (.deliver e) = some (w', obs)) :
    ∃ s out, (s, out) = w.service.createFromEvent e.dto e.context ∧ obs = out.map .service ∧
      w' = { w with service := s,
                    position := Function.update w.position e.partition (e.offset + 1) } := by
  obtain ⟨s, out, hs, rfl, rfl⟩ := wake_eq_some.mp h
  exact ⟨s, out, (Option.some.inj hs).symm, rfl, rfl⟩

lemma step_shutdown (h : w.step .shutdown = some (w', obs)) :
    ∃ s out, (s, out) = w.service.onModuleDestroy ∧ obs = out.map .service ∧
      w' = { w with service := s } := by
  obtain ⟨s, out, hs, rfl, rfl⟩ := wake_eq_some.mp h
  exact ⟨s, out, (Option.some.inj hs).symm, rfl, rfl⟩

lemma step_saveOk (h : w.step (.saveOk i) = some (w', obs)) :
    ∃ f orders saved, w.service.awaiting i .save = some f ∧
      w.orders.save f.orders = some (orders, saved) ∧
      w' = { w with service := (w.service.afterSave i f saved).1, orders := orders } ∧
      obs = (w.service.afterSave i f saved).2.map .service := by
  rw [step] at h
  split at h
  · exact absurd h (by simp)
  · next f hf =>
    split at h
    · exact absurd h (by simp)
    · next orders saved hsave =>
      obtain ⟨s, out, hs, rfl, rfl⟩ := wake_eq_some.mp h
      simp only [OrderService.step, hf, Option.map_some, Option.some.injEq] at hs
      exact ⟨f, orders, saved, hf, hsave, by rw [hs], by rw [hs]⟩

lemma step_saveFail (h : w.step (.saveFail i) = some (w', obs)) :
    ∃ f, w.service.awaiting i .save = some f ∧
      w' = { w with service := (w.service.caught i f).1 } ∧
      obs = (w.service.caught i f).2.map .service := by
  obtain ⟨s, out, hs, rfl, rfl⟩ := wake_eq_some.mp h
  obtain ⟨f, hf, heq⟩ := Option.map_eq_some_iff.mp hs
  exact ⟨f, hf, by rw [heq], by rw [heq]⟩

lemma step_commitOk (h : w.step (.commitOk i) = some (w', obs)) :
    ∃ f, w.service.awaiting i .commitOffsets = some f ∧
      w' = { w.applyCommit f with service := (w.service.finish i f .batchSaved).1 } ∧
      obs = .committed i (RedisApi.commitOffsets f.batch) ::
        (w.service.finish i f .batchSaved).2.map .service := by
  rw [step] at h
  split at h
  · exact absurd h (by simp)
  · next f hf =>
    obtain ⟨⟨v, out⟩, hwake, heq⟩ := Option.map_eq_some_iff.mp h
    obtain ⟨rfl, rfl⟩ := Prod.mk.injEq .. ▸ heq
    obtain ⟨s, out, hs, rfl, rfl⟩ := wake_eq_some.mp hwake
    have hs' : w.service.step (.commitResolved i) = some (s, out) := hs
    simp only [OrderService.step, hf, Option.map_some, Option.some.injEq] at hs'
    exact ⟨f, hf, by rw [hs'], by rw [hs']⟩

lemma step_commitFail {applied : Bool} (h : w.step (.commitFail i applied) = some (w', obs)) :
    ∃ f, w.service.awaiting i .commitOffsets = some f ∧
      w' = { (if applied then w.applyCommit f else w) with
               service := (w.service.caught i f).1 } ∧
      serviceOutputs obs = (w.service.caught i f).2 ∧
      ∀ j offsets, .committed j offsets ∈ obs → j = i := by
  rw [step] at h
  split at h
  · exact absurd h (by simp)
  · next f hf =>
    cases applied with
    | true =>
        obtain ⟨⟨v, out⟩, hwake, heq⟩ := Option.map_eq_some_iff.mp h
        obtain ⟨rfl, rfl⟩ := Prod.mk.injEq .. ▸ heq
        obtain ⟨s, out, hs, rfl, rfl⟩ := wake_eq_some.mp hwake
        have hs' : w.service.step (.commitRejected i) = some (s, out) := hs
        simp only [OrderService.step, hf, Option.map_some, Option.some.injEq] at hs'
        refine ⟨f, hf, by rw [hs']; rfl, ?_, ?_⟩
        · rw [hs']
          exact serviceOutputs_map out
        · intro j offsets hmem
          simp only [List.mem_cons, Observation.committed.injEq, List.mem_map, reduceCtorEq,
            and_false, exists_false, or_false] at hmem
          exact hmem.1
    | false =>
        obtain ⟨s, out, hs, rfl, rfl⟩ := wake_eq_some.mp h
        simp only [OrderService.step, hf, Option.map_some, Option.some.injEq] at hs
        refine ⟨f, hf, by rw [hs]; rfl, ?_, by simp⟩
        rw [hs]
        exact serviceOutputs_map out

lemma step_timeout (h : w.step (.timeout i) = some (w', obs)) :
    ∃ f, w.service.awaiting i .delay = some f ∧
      w' = { w with service := (w.service.afterDelay i f).1 } ∧
      obs = (w.service.afterDelay i f).2.map .service := by
  obtain ⟨s, out, hs, rfl, rfl⟩ := wake_eq_some.mp h
  obtain ⟨f, hf, heq⟩ := Option.map_eq_some_iff.mp hs
  exact ⟨f, hf, by rw [heq], by rw [heq]⟩

/-- **The service moves by its own steps**, except that a crash replaces it. -/
theorem service_of_step {ev : Event} (h : w.step ev = some (w', obs)) :
    (∃ a, w.service.step a = some (w'.service, serviceOutputs obs) ∧
      (a = .onModuleDestroy → ev = .shutdown) ∧
      (∀ dto context, a = .createFromEvent dto context → ∃ e, ev = .deliver e) ∧ ev ≠ .crash) ∨
    (ev = .crash ∧ w'.service = OrderService.fresh ∧ obs = [.crashed]) := by
  cases ev with
  | deliver e =>
      obtain ⟨s, out, hs, rfl, rfl⟩ := step_deliver h
      exact Or.inl ⟨e.arrival, by rw [serviceOutputs_map]; exact congrArg some hs.symm,
        by simp [BufferedEvent.arrival], by simp, by simp⟩
  | shutdown =>
      obtain ⟨s, out, hs, rfl, rfl⟩ := step_shutdown h
      exact Or.inl ⟨.onModuleDestroy, by rw [serviceOutputs_map]; exact congrArg some hs.symm,
        by simp, by simp, by simp⟩
  | saveOk i =>
      obtain ⟨f, orders, saved, hf, -, rfl, rfl⟩ := step_saveOk h
      exact Or.inl ⟨.saveResolved i saved, by simp [OrderService.step, hf], by simp, by simp,
        by simp⟩
  | saveFail i =>
      obtain ⟨f, hf, rfl, rfl⟩ := step_saveFail h
      exact Or.inl ⟨.saveRejected i, by simp [OrderService.step, hf], by simp, by simp, by simp⟩
  | commitOk i =>
      obtain ⟨f, hf, rfl, rfl⟩ := step_commitOk h
      refine Or.inl ⟨.commitResolved i, ?_, by simp, by simp, by simp⟩
      rw [show serviceOutputs (_ :: _) = serviceOutputs (List.map .service _) from rfl,
        serviceOutputs_map]
      simp [OrderService.step, hf]
  | commitFail i applied =>
      obtain ⟨f, hf, rfl, hobs, -⟩ := step_commitFail h
      exact Or.inl ⟨.commitRejected i, by rw [hobs]; simp [OrderService.step, hf], by simp, by simp,
        by simp⟩
  | timeout i =>
      obtain ⟨f, hf, rfl, rfl⟩ := step_timeout h
      exact Or.inl ⟨.timeout i, by simp [OrderService.step, hf], by simp, by simp, by simp⟩
  | crash =>
      obtain ⟨rfl, rfl⟩ := Prod.mk.injEq .. ▸ Option.some.inj h
      exact Or.inr ⟨rfl, rfl, rfl⟩

/-- One flush at a time, with crashes and restarts. -/
theorem singleFlush_step {ev : Event} (hs : SingleFlush w.service) (hev : ev ≠ .shutdown)
    (h : w.step ev = some (w', obs)) : SingleFlush w'.service := by
  rcases service_of_step h with ⟨a, hstep, ha, -⟩ | ⟨-, hfresh, -⟩
  · refine hs.step (Machine.restrict_step.mpr ⟨?_, hstep⟩)
    cases a with
    | onModuleDestroy => exact absurd (ha rfl) hev
    | _ => rfl
  · rw [hfresh]
    exact SingleFlush.fresh

end World

end RedisApi
