import RedisApi.Core.Executions
import RedisApi.OrderConsumer.Attempts
import RedisApi.OrderConsumer.Batching

/-!
# Every event is flushed

What the service does in the long run, provided that the promises it awaits settle and its timers
fire (`FairTo`), in whatever order and with whatever result.

* `flushVariant` — every turn of an activation brings it closer to its end; it has at most fifteen.
* `flush_returns` — so every activation of `flush` returns.
* `every_event_flushed` — without a shutdown, and as long as events go on arriving, every event is
  taken off the buffer with its batch, sooner or later: a batch that fails for good does not hold
  up those behind it.
* `served` — an execution that is fair.
-/

namespace RedisApi

open Core OrderService Machine

/-! ## Turns are bounded -/

/-- How many turns an activation has left at most. -/
def Flush.turnsLeft (f : Flush) : ℕ :=
  match f.await with
  | .save => 3 * (maxRetries - f.attempt) + 3
  | .commitOffsets => 3 * (maxRetries - f.attempt) + 2
  | .delay => 3 * (maxRetries - f.attempt) + 1
  | .batchSaved | .deadLettered => 0

/-- The same by its number, before it has started as well. -/
def OrderService.turnsLeft (s : OrderService) (i : ℕ) : ℕ :=
  match s.flushes[i]? with
  | none => 3 * maxRetries
  | some f => f.turnsLeft

/-- The action wakes activation `i`. -/
def wakes (i : ℕ) (a : Action) : Bool := a.activation = some i

lemma Turn.turnsLeft_lt {i : ℕ} {f f' : Flush} {out : List Output} (ht : Turn i f f' out) :
    f'.turnsLeft < f.turnsLeft := by
  cases ht with
  | saved at_save => simp [Flush.turnsLeft, at_save]
  | failed in_try =>
      rcases in_try with h | h <;> simp [Flush.turnsLeft, h]
  | retried at_delay left =>
      simp only [Flush.turnsLeft, at_delay]
      omega
  | finished at_commit => simp [Flush.turnsLeft, at_commit]
  | gaveUp at_delay => simp [Flush.turnsLeft, at_delay]

/-- **Every turn of activation `i` brings it closer to its end**, and nothing else sets it back. -/
def flushVariant (i : ℕ) : orderService.Variant (wakes i) where
  rank s := s.turnsLeft i
  step := by
    intro s s' a out hstep
    cases flushStep_of_step hstep with
    | idle woken flushes quiet =>
        rw [wakes, woken, OrderService.turnsLeft, flushes]
        simp [OrderService.turnsLeft]
    | @opened batch caller before woken flushes outputs quiet =>
        rw [wakes, woken, OrderService.turnsLeft, flushes, OrderService.turnsLeft]
        rcases Nat.lt_trichotomy i s.flushes.length with hi | rfl | hi
        · rw [List.getElem?_append_left hi]
          simp
        · rw [List.getElem?_concat_length, List.getElem?_eq_none (le_refl _)]
          exact le_refl 15
        · rw [List.getElem?_eq_none (by rw [List.length_append]; exact hi),
            List.getElem?_eq_none (Nat.le_of_lt hi)]
          simp
    | @turn j f f' woken at_j turn flushes =>
        rw [wakes, woken, OrderService.turnsLeft, flushes, getElem?_set_of_some at_j]
        have hlt := turn.turnsLeft_lt
        by_cases hij : j = i
        · subst hij
          rw [if_pos rfl, OrderService.turnsLeft, at_j]
          simpa [Nat.add_one_le_iff] using hlt
        · rw [if_neg hij, OrderService.turnsLeft]
          simp [hij]

/-! ## A flush returns -/

/-- Activation `i` has started, and has not returned. -/
def Suspended (i : ℕ) (s : OrderService) : Prop :=
  ∃ f, s.flushes[i]? = some f ∧ f.pending = true

/-- The action that goes well for an activation. -/
def proceedWith (i : ℕ) (f : Flush) : Action :=
  match f.await with
  | .save => .saveResolved i f.orders
  | .commitOffsets => .commitResolved i
  | .delay | .batchSaved | .deadLettered => .timeout i

lemma proceedWith_step {s : OrderService} {i : ℕ} {f : Flush} (hi : s.flushes[i]? = some f)
    (hp : f.pending = true) :
    wakes i (proceedWith i f) = true ∧ (s.step (proceedWith i f)).isSome = true := by
  have hawaiting : ∀ w, f.await = w → s.awaiting i w = some f :=
    fun w hw => awaiting_eq_some.mpr ⟨hi, hw⟩
  rw [proceedWith]
  cases hw : f.await with
  | save => simp [wakes, Action.activation, OrderService.step, hawaiting _ hw]
  | commitOffsets => simp [wakes, Action.activation, OrderService.step, hawaiting _ hw]
  | delay => simp [wakes, Action.activation, OrderService.step, hawaiting _ hw]
  | batchSaved | deadLettered => exact absurd hp (by simp [Flush.pending, hw, Await.pending])

/-- What a suspended activation awaits can settle. -/
lemma enabled_of_suspended {i : ℕ} {s : OrderService} (hs : Suspended i s) :
    Execution.Enabled orderService (wakes i) s := by
  obtain ⟨f, hi, hp⟩ := hs
  exact ⟨proceedWith i f, proceedWith_step hi hp⟩

/-- An activation keeps still until it is woken. -/
lemma Suspended.keep {i : ℕ} {s s' : OrderService} {a : Action} {out : List Output}
    (hs : Suspended i s) (ha : wakes i a = false) (hstep : s.step a = some (s', out)) :
    Suspended i s' := by
  obtain ⟨f, hi, hp⟩ := hs
  cases flushStep_of_step hstep with
  | idle woken flushes quiet => exact ⟨f, by rw [flushes, hi], hp⟩
  | opened before woken flushes outputs quiet =>
      exact ⟨f, by rw [flushes]; exact getElem?_append_of_some hi _, hp⟩
  | @turn j g g' woken at_j turn flushes =>
      have hji : j ≠ i := by
        rintro rfl
        simp [wakes, woken] at ha
      exact ⟨f, by rw [flushes, List.getElem?_set_ne hji, hi], hp⟩

/-- What is suspended has returned some time later, if it gets its turns. -/
lemma eventually_returns {e : orderService.Execution} {i : ℕ} (hfair : e.FairTo (wakes i)) (t : ℕ) :
    ∃ u, t ≤ u ∧ ¬ Suspended i (e.state u) := by
  refine (flushVariant i).eventually (D := fun s => ¬ Suspended i s) ?_
  intro u _ hu
  exact hfair.turn (P := Suspended i) (fun s hs => enabled_of_suspended hs)
    (fun k hk ha => hk.keep ha (e.step k)) (not_not.mp hu)

/-- **Every flush returns**, at the latest after its fifteenth turn: whatever else the process does
meanwhile, shutdowns included, if what the activation awaits settles, each time it awaits
something. -/
theorem flush_returns {e : orderService.Execution} (h0 : e.state 0 = OrderService.fresh) {i : ℕ}
    (hfair : e.FairTo (wakes i)) {t : ℕ} (ht : Suspended i (e.state t)) :
    (∃ u, t < u ∧ ¬ Suspended i (e.state u)) ∧
      ∀ u, (List.range u).countP (fun k => wakes i (e.act k)) ≤ 15 := by
  constructor
  · obtain ⟨u, htu, hu⟩ := eventually_returns hfair t
    refine ⟨u, ?_, hu⟩
    rcases Nat.lt_or_eq_of_le htu with hlt | rfl
    · exact hlt
    · exact absurd ht hu
  · intro u
    have hle := (flushVariant i).countP_range_add_le e u
    have hfirst : (flushVariant i).rank (e.state 0) = 15 := by
      rw [h0]
      rfl
    omega

/-! ## Events are taken off the buffer -/

/-- What ends an activation removes its batch; any other turn leaves it suspended. -/
lemma Turn.ended_or_pending {i : ℕ} {f f' : Flush} {out : List Output} (ht : Turn i f f' out) :
    f'.pending = true ∨ ∃ removed, removedBatches out = [removed] := by
  cases ht with
  | saved | failed | retried => exact Or.inl rfl
  | @finished removed | @gaveUp removed =>
      refine Or.inr ⟨removed, ?_⟩
      cases f.caller <;> rfl

/-- A step that is the last of an activation removes a batch. -/
lemma removed_of_returns {i : ℕ} {s s' : OrderService} {a : Action} {out : List Output}
    (hs : Suspended i s) (hstep : s.step a = some (s', out)) (hs' : ¬ Suspended i s') :
    ∃ removed, removedBatches out = [removed] := by
  have hwakes : wakes i a = true := by
    by_contra hc
    exact hs' (hs.keep (Bool.eq_false_iff.mpr hc) hstep)
  have hactivation : a.activation = some i := of_decide_eq_true hwakes
  cases flushStep_of_step hstep with
  | idle woken | opened before woken => exact absurd (woken.symm.trans hactivation) (by simp)
  | @turn j f f' woken at_j turn flushes =>
      obtain rfl : j = i := Option.some.inj (woken.symm.trans hactivation)
      rcases turn.ended_or_pending with hp | hremoved
      · refine absurd ⟨f', ?_, hp⟩ hs'
        rw [flushes, getElem?_set_of_some at_j, if_pos rfl]
      · exact hremoved

/-- While no activation is suspended, all that can happen is an arrival, and the third event in the
buffer starts an activation. -/
lemma arrival_of_idle {s s' : OrderService} {a : Action} {out : List Output} (hs : SingleFlush s)
    (hidle : ∀ i, ¬ Suspended i s)
    (hstep : (orderService.restrict noShutdown).step s a = some (s', out)) :
    s'.buffer.length = s.buffer.length + 1 ∧
      (batchSize ≤ s'.buffer.length → ∃ i, Suspended i s') := by
  have hnone : ∀ (i : ℕ) (f : Flush), s.flushes[i]? = some f → f.pending = false :=
    fun i f hi => Bool.eq_false_iff.mpr fun hp => hidle i ⟨f, hi, hp⟩
  obtain ⟨hg, hstep⟩ := Machine.restrict_step.mp hstep
  cases step_cases hstep with
  | received dto context heq =>
      have hflag : s.flushing = false := by
        have hcount := hs.count
        by_contra hc
        rw [if_pos (Bool.not_eq_false _ ▸ hc), inProgress] at hcount
        have hpos : 0 < s.flushes.countP Flush.pending := by omega
        obtain ⟨f, hf, hp⟩ := List.countP_pos_iff.mp hpos
        obtain ⟨i, hi⟩ := List.getElem?_of_mem hf
        exact absurd (hp.symm.trans (hnone i f hi)) (by simp)
      rw [show s' = _ from congrArg Prod.fst heq]
      refine ⟨by rw [(createFromEvent_buffer s dto context).1, List.length_append]; rfl, ?_⟩
      intro hfull
      rw [(createFromEvent_buffer s dto context).1] at hfull
      let batch := (s.buffer ++ [BufferedEvent.mk dto context]).take batchSize
      refine ⟨s.flushes.length, Flush.opened batch (some context), ?_, rfl⟩
      rw [OrderService.createFromEvent]
      dsimp only
      rw [if_pos ⟨hfull, hflag⟩]
      exact List.getElem?_concat_length
  | shutDown heq => exact absurd hg (by simp [noShutdown])
  | moved i f f' heq hm hq => exact absurd hm.pending (by simp [hnone i f hm.at_i])
  | ended i f how hi hp hhow heq => exact absurd hp (by simp [hnone i f hi])

section EveryEvent

variable {e : orderService.Execution} (h0 : e.state 0 = OrderService.fresh)
  (hopen : ∀ t, e.act t ≠ .onModuleDestroy)

/-- How many events have been taken off the buffer. -/
def flushedCount (h : List Output) : ℕ := (removedBatches h).flatten.length

include hopen

lemma unrestricted (t : ℕ) : noShutdown (e.state t) (e.act t) = true := by
  have hne := hopen t
  cases ha : e.act t with
  | onModuleDestroy => exact absurd ha hne
  | _ => rfl

include h0

lemma singleFlush_fifo_at (t : ℕ) : SingleFlush (e.state t) ∧ Fifo (e.history t) (e.state t) := by
  have hr := e.reaches_restrict (unrestricted hopen) t
  rw [h0] at hr
  exact singleFlush_fifo hr

/-- Again and again an activation is suspended. -/
lemma eventually_suspended (t : ℕ) : ∃ u, t ≤ u ∧ ∃ i, Suspended i (e.state u) := by
  by_contra hc
  have hidle : ∀ u, t ≤ u → ∀ i, ¬ Suspended i (e.state u) :=
    fun u hu i hs => hc ⟨u, hu, i, hs⟩
  have hnext : ∀ u, t ≤ u → (e.state (u + 1)).buffer.length = (e.state u).buffer.length + 1 ∧
      (e.state (u + 1)).buffer.length < batchSize := by
    intro u hu
    obtain ⟨hgrows, hstarts⟩ := arrival_of_idle (singleFlush_fifo_at h0 hopen u).1 (hidle u hu)
      (Machine.restrict_step.mpr ⟨unrestricted hopen u, e.step u⟩)
    refine ⟨hgrows, Nat.lt_of_not_le fun hfull => ?_⟩
    obtain ⟨i, hi⟩ := hstarts hfull
    exact hidle (u + 1) (by omega) i hi
  -- three arrivals in a row fill the buffer
  have hfirst := hnext t (le_refl t)
  have hsecond := hnext (t + 1) (by omega)
  have hthird := hnext (t + 1 + 1) (by omega)
  rw [show batchSize = 3 from rfl] at hthird
  omega

/-- And each time it returns three events have gone. -/
lemma flushedCount_grows (hfair : ∀ i, e.FairTo (wakes i)) (t : ℕ) :
    ∃ u, t ≤ u ∧ flushedCount (e.history t) < flushedCount (e.history u) := by
  obtain ⟨v, htv, i, hi⟩ := eventually_suspended h0 hopen t
  obtain ⟨w, hvw, hw⟩ := eventually_returns (hfair i) v
  -- the step that ends the activation
  obtain ⟨k, hk, hs, hs'⟩ := e.exists_last (P := Suspended i) hvw hi hw
  obtain ⟨removed, hremoved⟩ := removed_of_returns hs (e.step k) hs'
  have hall : removedBatches (e.history (k + 1)) = removedBatches (e.history k) ++ [removed] := by
    rw [Execution.history, removedBatches_append, hremoved]
  have hlen : removed.length = batchSize := by
    refine (singleFlush_fifo_at h0 hopen (k + 1)).2.full removed ?_
    rw [hall]
    simp
  have hle : flushedCount (e.history t) ≤ flushedCount (e.history k) := by
    obtain ⟨h, hh⟩ := e.history_prefix (show t ≤ k by omega)
    rw [flushedCount, flushedCount, ← hh, removedBatches_append, List.flatten_append,
      List.length_append]
    omega
  refine ⟨k + 1, by omega, ?_⟩
  rw [flushedCount, flushedCount, hall] at *
  simp only [List.flatten_append, List.flatten_singleton, List.length_append, hlen] at *
  have hpos : 0 < batchSize := by decide
  omega

/-- **Every event is flushed.**  Without a shutdown, whatever arrives and whatever fails, if what
the activations await settles: all that has been received at some time has been taken off the buffer
at a later one, in order.  (An execution goes on for ever, so events go on arriving: while no
activation is suspended, nothing else can happen.) -/
theorem every_event_flushed (hfair : ∀ i, e.FairTo (wakes i)) (t : ℕ) :
    ∃ u, receivedEvents (e.history t) <+: (removedBatches (e.history u)).flatten := by
  have hmany : ∀ n, ∃ u, t ≤ u ∧ n ≤ flushedCount (e.history u) := by
    intro n
    induction n with
    | zero => exact ⟨t, le_refl t, Nat.zero_le _⟩
    | succ n ih =>
        obtain ⟨u, htu, hu⟩ := ih
        obtain ⟨v, huv, hv⟩ := flushedCount_grows h0 hopen hfair u
        exact ⟨v, by omega, by omega⟩
  obtain ⟨u, htu, hu⟩ := hmany (receivedEvents (e.history t)).length
  -- both are prefixes of what has been received by then
  have hremoved : (removedBatches (e.history u)).flatten <+: receivedEvents (e.history u) := by
    rw [← (singleFlush_fifo_at h0 hopen u).2.in_order]
    exact List.prefix_append _ _
  have hreceived : receivedEvents (e.history t) <+: receivedEvents (e.history u) := by
    obtain ⟨h, hh⟩ := e.history_prefix htu
    rw [← hh, receivedEvents_append]
    exact List.prefix_append _ _
  exact ⟨u, List.prefix_of_prefix_length_le hreceived hremoved hu⟩

end EveryEvent

/-! ## A process that serves what it awaits -/

/-- Serve the activation that is suspended; if there is none, another event arrives. -/
def serveFirst (s : OrderService) : Action :=
  match s.flushes.findIdx? Flush.pending with
  | none => (eventAt 0 "0").arrival
  | some i =>
      match s.flushes[i]? with
      | none => (eventAt 0 "0").arrival
      | some f => proceedWith i f

lemma serveFirst_cases (s : OrderService) :
    serveFirst s = (eventAt 0 "0").arrival ∧ (∀ i, ¬ Suspended i s) ∨
      ∃ i f, serveFirst s = proceedWith i f ∧ s.flushes[i]? = some f ∧ f.pending = true := by
  rw [serveFirst]
  cases hfind : s.flushes.findIdx? Flush.pending with
  | none =>
      refine Or.inl ⟨rfl, ?_⟩
      rintro i ⟨f, hi, hp⟩
      have hnone := List.findIdx?_eq_none_iff.mp hfind f (List.mem_of_getElem? hi)
      exact absurd (hp.symm.trans hnone) (by simp)
  | some i =>
      obtain ⟨hlt, hp, -⟩ := List.findIdx?_eq_some_iff_getElem.mp hfind
      refine Or.inr ⟨i, s.flushes[i], ?_, List.getElem?_eq_getElem hlt, hp⟩
      dsimp only
      rw [List.getElem?_eq_getElem hlt]

lemma serveFirst_isSome (s : OrderService) : (s.step (serveFirst s)).isSome = true := by
  rcases serveFirst_cases s with ⟨hs, -⟩ | ⟨i, f, hs, hi, hp⟩
  · rw [hs]
    rfl
  · rw [hs]
    exact (proceedWith_step hi hp).2

/-- The execution in which everything goes well. -/
def served : orderService.Execution :=
  Execution.ofStrategy orderService serveFirst serveFirst_isSome OrderService.fresh

lemma served_open (t : ℕ) : served.act t ≠ .onModuleDestroy := by
  have hproceed : ∀ i f, proceedWith i f ≠ .onModuleDestroy := by
    intro i f
    rw [proceedWith]
    cases f.await <;> simp
  show serveFirst _ ≠ _
  rcases serveFirst_cases (served.state t) with ⟨hs, -⟩ | ⟨i, f, hs, -⟩
  · intro hc
    exact absurd (hs.symm.trans hc) (by simp [BufferedEvent.arrival])
  · intro hc
    exact hproceed i f (hs.symm.trans hc)

/-- An activation that can be woken is suspended. -/
lemma suspended_of_enabled {i : ℕ} {s : OrderService}
    (hs : Execution.Enabled orderService (wakes i) s) : Suspended i s := by
  obtain ⟨a, ha, hstep⟩ := hs
  obtain ⟨⟨s', out⟩, hstep⟩ := Option.isSome_iff_exists.mp hstep
  have hactivation : a.activation = some i := of_decide_eq_true ha
  cases flushStep_of_step hstep with
  | idle woken | opened before woken => exact absurd (woken.symm.trans hactivation) (by simp)
  | @turn j f f' woken at_j turn flushes =>
      obtain rfl : j = i := Option.some.inj (woken.symm.trans hactivation)
      refine ⟨f, at_j, ?_⟩
      cases turn with
      | saved hw | retried hw | finished hw | gaveUp hw => rw [Flush.pending, hw]; rfl
      | failed hw => rcases hw with hw | hw <;> rw [Flush.pending, hw] <;> rfl

lemma served_fair (i : ℕ) : served.FairTo (wakes i) := by
  intro t henabled
  refine ⟨t, le_refl t, ?_⟩
  obtain ⟨f, hi, hp⟩ := suspended_of_enabled (henabled t (le_refl t))
  show wakes i (serveFirst (served.state t)) = true
  rcases serveFirst_cases (served.state t) with ⟨-, hidle⟩ | ⟨j, g, hs, hj, hq⟩
  · exact absurd ⟨f, hi, hp⟩ (hidle i)
  · -- there is only one
    have hone := (singleFlush_fifo_at rfl served_open t).1
    rw [hs, hone.unique hi hp hj hq]
    exact (proceedWith_step hj hq).1

theorem flush_returns_served : served.state 0 = OrderService.fresh ∧
    Suspended 0 (served.state 3) ∧ served.FairTo (wakes 0) ∧
      (∃ u, 3 < u ∧ ¬ Suspended 0 (served.state u)) ∧
        ∀ u, (List.range u).countP (fun k => wakes 0 (served.act k)) ≤ 15 := by
  have hsuspended : Suspended 0 (served.state 3) := ⟨_, rfl, rfl⟩
  exact ⟨rfl, hsuspended, served_fair 0, flush_returns rfl (served_fair 0) hsuspended⟩

theorem every_event_flushed_served : (receivedEvents (served.history 3)).length = 3 ∧
    ∃ u, receivedEvents (served.history 3) <+: (removedBatches (served.history u)).flatten :=
  ⟨rfl, every_event_flushed rfl served_open served_fair 3⟩

end RedisApi
