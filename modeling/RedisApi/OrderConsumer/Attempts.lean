import RedisApi.OrderConsumer.Batching
import Mathlib.Data.List.Range

/-!
# The attempts of a flush

An activation of `flush` seen by itself: it saves, and on a failure waits and saves again, at most
`MAX_RETRIES` times, whatever the other activations and the shutdown do meanwhile.

* `Turn` — what wakes an activation, and how far it gets.
* `FlushStep` — a step of the service starts an activation, gives one its turn, or touches none.
* `OnSchedule` — an activation in its attempt `n` has called `save` `n` times, and has waited
  200, 400, 800, … milliseconds after the failed ones.
* `flush_on_schedule` — in every reachable state, with or without shutdowns.
-/

namespace RedisApi

open Core OrderService

/-! ## Turns -/

/-- The activation that an action wakes. -/
def Action.activation : Action → Option ℕ
  | .saveResolved i _ | .saveRejected i | .commitResolved i | .commitRejected i
  | .timeout i => some i
  | .createFromEvent _ _ | .onModuleDestroy => none

/-- The activation that an output is of. -/
def Output.activation : Output → Option ℕ
  | .save i _ | .commitOffsets i _ | .setTimeout i _ | .splice i _ _ => some i
  | .received _ | .handled _ => none

/-- **What an activation does when it is woken**, one constructor for each way from one `await` to
the next. -/
inductive Turn (i : ℕ) (f : Flush) : Flush → List Output → Prop
  | saved {orders : List Order} (at_save : f.await = .save) :
      Turn i f { f with orders := orders, await := .commitOffsets }
        [.commitOffsets i (RedisApi.commitOffsets f.batch)]
  | failed (in_try : f.await = .save ∨ f.await = .commitOffsets) :
      Turn i f { f with await := .delay } [.setTimeout i (retryDelay f.attempt)]
  | retried (at_delay : f.await = .delay) (left : f.attempt + 1 ≤ maxRetries) :
      Turn i f { f with attempt := f.attempt + 1, await := .save } [.save i f.orders]
  | finished {removed : List BufferedEvent} (at_commit : f.await = .commitOffsets) :
      Turn i f { f with await := .batchSaved }
        (.splice i f.batch removed :: f.caller.toList.map .handled)
  | gaveUp {removed : List BufferedEvent} (at_delay : f.await = .delay)
      (none_left : maxRetries < f.attempt + 1) :
      Turn i f { f with await := .deadLettered }
        (.splice i f.batch removed :: f.caller.toList.map .handled)

/-- A new activation. -/
def Flush.opened (batch : List BufferedEvent) (caller : Option KafkaContext) : Flush where
  batch := batch
  orders := batch.map repoCreate
  attempt := 1
  await := .save
  caller := caller

/-- **What a step does to the activations.** -/
inductive FlushStep (s s' : OrderService) (out : List Output) : Action → Prop
  | idle {a : Action} (woken : a.activation = none) (flushes : s'.flushes = s.flushes)
      (quiet : ∀ o ∈ out, o.activation = none) : FlushStep s s' out a
  | opened {a : Action} {batch : List BufferedEvent} {caller : Option KafkaContext}
      (before : List Output) (woken : a.activation = none)
      (flushes : s'.flushes = s.flushes ++ [Flush.opened batch caller])
      (outputs : out = before ++ [.save s.flushes.length (batch.map repoCreate)])
      (quiet : ∀ o ∈ before, o.activation = none) : FlushStep s s' out a
  | turn {a : Action} {i : ℕ} {f f' : Flush} (woken : a.activation = some i)
      (at_i : s.flushes[i]? = some f) (turn : Turn i f f' out)
      (flushes : s'.flushes = s.flushes.set i f') : FlushStep s s' out a

theorem flushStep_of_step {s s' : OrderService} {a : Action} {out : List Output}
    (h : s.step a = some (s', out)) : FlushStep s s' out a := by
  cases a with
  | createFromEvent dto context =>
      have heq := Option.some.inj h
      rw [OrderService.createFromEvent] at heq
      dsimp only at heq
      split_ifs at heq
      · obtain ⟨rfl, rfl⟩ := Prod.mk.injEq .. ▸ heq
        exact .opened [.received ⟨dto, context⟩] rfl rfl rfl
          (by simp [Output.activation])
      · obtain ⟨rfl, rfl⟩ := Prod.mk.injEq .. ▸ heq
        exact .idle rfl rfl (by simp [Output.activation])
  | onModuleDestroy =>
      have heq := Option.some.inj h
      rw [OrderService.onModuleDestroy] at heq
      split_ifs at heq
      · obtain ⟨rfl, rfl⟩ := Prod.mk.injEq .. ▸ heq
        exact .opened [] rfl rfl rfl (by simp)
      · obtain ⟨rfl, rfl⟩ := Prod.mk.injEq .. ▸ heq
        exact .idle rfl rfl (by simp)
  | saveResolved i saved =>
      obtain ⟨f, hf, heq⟩ := Option.map_eq_some_iff.mp h
      obtain ⟨rfl, rfl⟩ := Prod.mk.injEq .. ▸ heq
      obtain ⟨hi, hawait⟩ := awaiting_eq_some.mp hf
      exact .turn rfl hi (.saved hawait) rfl
  | saveRejected i =>
      obtain ⟨f, hf, heq⟩ := Option.map_eq_some_iff.mp h
      obtain ⟨rfl, rfl⟩ := Prod.mk.injEq .. ▸ heq
      obtain ⟨hi, hawait⟩ := awaiting_eq_some.mp hf
      exact .turn rfl hi (.failed (Or.inl hawait)) rfl
  | commitResolved i =>
      obtain ⟨f, hf, heq⟩ := Option.map_eq_some_iff.mp h
      obtain ⟨rfl, rfl⟩ := Prod.mk.injEq .. ▸ heq
      obtain ⟨hi, hawait⟩ := awaiting_eq_some.mp hf
      exact .turn rfl hi (.finished hawait) rfl
  | commitRejected i =>
      obtain ⟨f, hf, heq⟩ := Option.map_eq_some_iff.mp h
      obtain ⟨rfl, rfl⟩ := Prod.mk.injEq .. ▸ heq
      obtain ⟨hi, hawait⟩ := awaiting_eq_some.mp hf
      exact .turn rfl hi (.failed (Or.inr hawait)) rfl
  | timeout i =>
      obtain ⟨f, hf, heq⟩ := Option.map_eq_some_iff.mp h
      obtain ⟨hi, hawait⟩ := awaiting_eq_some.mp hf
      rw [afterDelay] at heq
      split_ifs at heq with hleft
      · obtain ⟨rfl, rfl⟩ := Prod.mk.injEq .. ▸ heq
        exact .turn rfl hi (.retried hawait hleft) rfl
      · obtain ⟨rfl, rfl⟩ := Prod.mk.injEq .. ▸ heq
        exact .turn rfl hi (.gaveUp hawait (Nat.lt_of_not_le hleft)) rfl

/-! ## The schedule -/

/-- How often activation `i` has called `save`. -/
def saveCalls (h : List Output) (i : ℕ) : ℕ :=
  h.countP fun
    | .save j _ => j = i
    | _ => false

/-- How long activation `i` has waited after each failure, in milliseconds. -/
def delays (h : List Output) (i : ℕ) : List ℕ :=
  h.filterMap fun
    | .setTimeout j ms => if j = i then some ms else none
    | _ => none

lemma saveCalls_append (h out : List Output) (i : ℕ) :
    saveCalls (h ++ out) i = saveCalls h i + saveCalls out i := List.countP_append

lemma delays_append (h out : List Output) (i : ℕ) :
    delays (h ++ out) i = delays h i ++ delays out i := List.filterMap_append

/-- Nothing is on record of an activation that has emitted nothing. -/
lemma unscheduled {out : List Output} {i : ℕ} (hno : ∀ o ∈ out, o.activation ≠ some i) :
    saveCalls out i = 0 ∧ delays out i = [] := by
  constructor
  · refine List.countP_eq_zero.mpr fun o ho => ?_
    have hne := hno o ho
    cases o with
    | save j orders => simpa [Output.activation] using hne
    | _ => simp
  · refine List.filterMap_eq_nil_iff.mpr fun o ho => ?_
    have hne := hno o ho
    cases o with
    | setTimeout j ms => simpa [Output.activation] using hne
    | _ => rfl

/-- The delays after the first `n` failures. -/
def backOffs (n : ℕ) : List ℕ := (List.range n).map fun k => retryDelay (k + 1)

lemma backOffs_succ (n : ℕ) : backOffs (n + 1) = backOffs n ++ [retryDelay (n + 1)] := by
  rw [backOffs, List.range_succ, List.map_append]
  rfl

/-- How many attempts of an activation have failed. -/
def Flush.failures (f : Flush) : ℕ :=
  match f.await with
  | .save | .commitOffsets | .batchSaved => f.attempt - 1
  | .delay | .deadLettered => f.attempt

/-- **The invariant of an activation.** -/
structure OnSchedule (h : List Output) (i : ℕ) (f : Flush) : Prop where
  first : 1 ≤ f.attempt
  last : f.attempt ≤ maxRetries
  saves : saveCalls h i = f.attempt
  delays : delays h i = backOffs f.failures
  exhausted : f.await = .deadLettered → f.attempt = maxRetries

lemma OnSchedule.append {h out : List Output} {i : ℕ} {f : Flush} (hf : OnSchedule h i f)
    (hno : ∀ o ∈ out, o.activation ≠ some i) : OnSchedule (h ++ out) i f := by
  obtain ⟨hsaves, hdelays⟩ := unscheduled hno
  refine ⟨hf.first, hf.last, ?_, ?_, hf.exhausted⟩
  · rw [saveCalls_append, hsaves, hf.saves, Nat.add_zero]
  · rw [delays_append, hdelays, hf.delays, List.append_nil]

lemma OnSchedule.opened {h before : List Output} {i : ℕ} (batch : List BufferedEvent)
    (caller : Option KafkaContext) (hno : ∀ o ∈ h, o.activation ≠ some i)
    (hquiet : ∀ o ∈ before, o.activation = none) :
    OnSchedule (h ++ (before ++ [.save i (batch.map repoCreate)])) i
      (Flush.opened batch caller) := by
  have hnone : ∀ o ∈ h ++ before, o.activation ≠ some i := by
    intro o ho
    rcases List.mem_append.mp ho with ho | ho
    · exact hno o ho
    · rw [hquiet o ho]
      simp
  obtain ⟨hsaves, hdelays⟩ := unscheduled hnone
  rw [← List.append_assoc]
  refine ⟨le_refl 1, (by decide : 1 ≤ maxRetries), ?_, ?_, by simp [Flush.opened]⟩
  · rw [saveCalls_append, hsaves]
    simp [saveCalls, Flush.opened]
  · rw [delays_append, hdelays]
    rfl

/-- What a turn that ends the activation emits is no attempt. -/
lemma unscheduled_finish (f : Flush) (i : ℕ) (removed : List BufferedEvent) :
    saveCalls (.splice i f.batch removed :: f.caller.toList.map .handled) i = 0 ∧
      delays (.splice i f.batch removed :: f.caller.toList.map .handled) i = [] := by
  cases f.caller <;> exact ⟨rfl, rfl⟩

/-- **A turn keeps to the schedule.** -/
lemma OnSchedule.turn {h out : List Output} {i : ℕ} {f f' : Flush} (hf : OnSchedule h i f)
    (ht : Turn i f f' out) : OnSchedule (h ++ out) i f' := by
  have hsaves := hf.saves
  have hdelays := hf.delays
  rw [Flush.failures] at hdelays
  cases ht with
  | saved at_save =>
      rw [at_save] at hdelays
      refine ⟨hf.first, hf.last, ?_, ?_, fun hc => absurd hc (by simp)⟩
      · rw [saveCalls_append, hsaves]
        rfl
      · rw [delays_append, hdelays]
        exact List.append_nil _
  | failed in_try =>
      -- the delay is the one that belongs to the attempt
      have hbefore : RedisApi.delays h i = backOffs (f.attempt - 1) := by
        rcases in_try with hc | hc <;> rw [hc] at hdelays <;> exact hdelays
      have hattempt : f.attempt = f.attempt - 1 + 1 := by
        have := hf.first
        omega
      refine ⟨hf.first, hf.last, ?_, ?_, fun hc => absurd hc (by simp)⟩
      · rw [saveCalls_append, hsaves]
        rfl
      · rw [delays_append, hbefore]
        show _ = backOffs f.attempt
        rw [hattempt, backOffs_succ]
        simp [RedisApi.delays]
  | retried at_delay left =>
      rw [at_delay] at hdelays
      refine ⟨by simp, left, ?_, ?_, fun hc => absurd hc (by simp)⟩
      · rw [saveCalls_append, hsaves]
        simp [saveCalls]
      · rw [delays_append, hdelays]
        exact List.append_nil _
  | finished at_commit =>
      rw [at_commit] at hdelays
      obtain ⟨hno, hnone⟩ := unscheduled_finish f i _
      refine ⟨hf.first, hf.last, ?_, ?_, fun hc => absurd hc (by simp)⟩
      · rw [saveCalls_append, hsaves, hno, Nat.add_zero]
      · rw [delays_append, hdelays, hnone]
        exact List.append_nil _
  | gaveUp at_delay none_left =>
      rw [at_delay] at hdelays
      obtain ⟨hno, hnone⟩ := unscheduled_finish f i _
      have hlast : f.attempt = maxRetries := by
        have := hf.last
        omega
      refine ⟨hf.first, hf.last, ?_, ?_, fun _ => hlast⟩
      · rw [saveCalls_append, hsaves, hno, Nat.add_zero]
      · rw [delays_append, hdelays, hnone]
        exact List.append_nil _

/-- What a turn emits is of its activation. -/
lemma Turn.activation {i : ℕ} {f f' : Flush} {out : List Output} (ht : Turn i f f' out) :
    ∀ o ∈ out, o.activation = some i ∨ o.activation = none := by
  cases ht with
  | finished | gaveUp => cases f.caller <;> simp [Output.activation]
  | _ => simp [Output.activation]

/-! ## Every run -/

/-- Every activation is on schedule, and nothing is on record of one that has not started. -/
structure Scheduled (h : List Output) (s : OrderService) : Prop where
  each : Each s.flushes (OnSchedule h)
  known : ∀ o ∈ h, ∀ i, o.activation = some i → i < s.flushes.length

theorem Scheduled.step {h out : List Output} {s s' : OrderService} {a : Action}
    (hs : Scheduled h s) (hstep : s.step a = some (s', out)) : Scheduled (h ++ out) s' := by
  cases flushStep_of_step hstep with
  | idle woken flushes quiet =>
      have hno : ∀ i, ∀ o ∈ out, o.activation ≠ some i := fun i o ho => by simp [quiet o ho]
      refine ⟨?_, ?_⟩
      · rw [flushes]
        exact hs.each.mono fun i f hf => hf.append (hno i)
      · rw [flushes]
        intro o ho i hi
        rcases List.mem_append.mp ho with ho | ho
        · exact hs.known o ho i hi
        · exact absurd hi (hno i o ho)
  | @opened batch caller before woken flushes outputs quiet =>
      have hnew : ∀ o ∈ out, ∀ i, o.activation = some i → i = s.flushes.length := by
        intro o ho i hi
        rw [outputs] at ho
        rcases List.mem_append.mp ho with ho | ho
        · exact absurd hi (by simp [quiet o ho])
        · rw [List.mem_singleton.mp ho] at hi
          exact (Option.some.inj hi).symm
      refine ⟨?_, ?_⟩
      · rw [flushes]
        refine Each.concat (fun i f hi => ?_) ?_
        · have hlt := (List.getElem?_eq_some_iff.mp hi).1
          refine (hs.each i f hi).append fun o ho hc => ?_
          have := hnew o ho i hc
          omega
        · rw [outputs]
          refine OnSchedule.opened _ _ (fun o ho hc => ?_) quiet
          exact absurd (hs.known o ho _ hc) (lt_irrefl _)
      · rw [flushes, List.length_append, List.length_singleton]
        intro o ho i hi
        rcases List.mem_append.mp ho with ho | ho
        · exact Nat.lt_succ_of_lt (hs.known o ho i hi)
        · have := hnew o ho i hi
          omega
  | @turn i f f' woken at_i turn flushes =>
      have hlt := (List.getElem?_eq_some_iff.mp at_i).1
      refine ⟨?_, ?_⟩
      · rw [flushes]
        refine Each.set hs.each at_i ((hs.each i f at_i).turn turn) fun j g hij hg => ?_
        refine hg.append fun o ho hc => ?_
        rcases turn.activation o ho with hown | hnone
        · exact hij (Option.some.inj (hown.symm.trans hc))
        · exact absurd (hnone.symm.trans hc) (by simp)
      · rw [flushes, List.length_set]
        intro o ho j hj
        rcases List.mem_append.mp ho with ho | ho
        · exact hs.known o ho j hj
        · rcases turn.activation o ho with hown | hnone
          · exact Option.some.inj (hown.symm.trans hj) ▸ hlt
          · exact absurd (hnone.symm.trans hj) (by simp)

lemma scheduled_of_reaches {h : List Output} {s : OrderService}
    (hr : orderService.Reaches OrderService.fresh h s) : Scheduled h s := by
  refine hr.invariant (I := Scheduled) ?_ ?_
  · exact ⟨each_nil _, fun o ho => absurd ho List.not_mem_nil⟩
  · rintro h s a s' out - hs hstep
    exact hs.step hstep

/-- **Five attempts, and how long they take.**  In every reachable state, for every interleaving of
arrivals, shutdowns and failures: an activation has called `save` once for each attempt, at most
five times; it has waited 200, 400, 800, 1600 and 3200 milliseconds after the failed ones, in this
order; and it is dead-lettered only after all five. -/
theorem flush_on_schedule {h : List Output} {s : OrderService}
    (hr : orderService.Reaches OrderService.fresh h s) {i : ℕ} {f : Flush}
    (hi : s.flushes[i]? = some f) :
    saveCalls h i = f.attempt ∧ f.attempt ≤ 5 ∧
      delays h i <+: [200, 400, 800, 1600, 3200] ∧ (delays h i).length = f.failures ∧
      (f.await = .deadLettered → delays h i = [200, 400, 800, 1600, 3200]) := by
  have hf := (scheduled_of_reaches hr).each i f hi
  have hfailures : f.failures ≤ maxRetries := by
    have hlast := hf.last
    rw [Flush.failures]
    split <;> omega
  have hall : backOffs maxRetries = [200, 400, 800, 1600, 3200] := rfl
  refine ⟨hf.saves, hf.last, ?_, ?_, fun hdead => ?_⟩
  · rw [hf.delays, ← hall, ← Nat.add_sub_cancel' hfailures, backOffs, backOffs, List.range_add,
      List.map_append]
    exact List.prefix_append _ _
  · rw [hf.delays, backOffs, List.length_map, List.length_range]
  · rw [hf.delays, Flush.failures, hdead]
    show backOffs f.attempt = _
    rw [hf.exhausted hdead, hall]

/-- A shutdown starts a second activation while the first waits; the first fails twice, the second
once. -/
def overlappingAttempts : List Action :=
  [(eventAt 0 "0").arrival, (eventAt 0 "1").arrival, (eventAt 0 "2").arrival, .saveRejected 0,
    .onModuleDestroy, .saveRejected 1, .timeout 0, .saveResolved 0 [], .commitRejected 0]

theorem flush_on_schedule_overlapping : ∃ s h f,
    orderService.run OrderService.fresh overlappingAttempts = some (s, h) ∧
      s.flushes[0]? = some f ∧ delays h 0 = [200, 400] ∧
      (saveCalls h 0 = f.attempt ∧ f.attempt ≤ 5 ∧
        delays h 0 <+: [200, 400, 800, 1600, 3200] ∧ (delays h 0).length = f.failures ∧
        (f.await = .deadLettered → delays h 0 = [200, 400, 800, 1600, 3200])) := by
  have hrun := (rfl : orderService.run OrderService.fresh overlappingAttempts = some (_, _))
  exact ⟨_, _, _, hrun, rfl, rfl, flush_on_schedule (Machine.reaches_of_run hrun) rfl⟩

end RedisApi
