import RedisApi.Product.Inventory

/-!
# What the broker has recorded

The topic `inventory.item-used` against the stock.  An emit may be rejected after the broker has
stored the event: only its acknowledgement is lost, and the handler cannot tell.  It then gives the
unit back all the same, and the event stays.

* `lostAcks` — the requests to which this has happened.
* `Recorded` — the topic holds one event for each success and one for each lost acknowledgement.
* `recorded_le_consumed` — the topic stays within what has been taken from the stock as long as no
  unit is given back whose event is stored, and once all requests have ended only then.
* `recorded_past_consumed` — one request, whose acknowledgement is lost.
-/

namespace RedisApi.Product

open Core

/-! ## Lost acknowledgements -/

/-- The requests whose emit was rejected after the broker had stored the event. -/
def lostAcks (h : List Output) : List ℕ :=
  h.filterMap fun
    | .emitFailed r (some _) => some r
    | _ => none

lemma lostAcks_append (h out : List Output) : lostAcks (h ++ out) = lostAcks h ++ lostAcks out :=
  List.filterMap_append

/-- The unit of request `r` was given back although its event is stored. -/
def StoredUndone (h : List Output) (r : ℕ) : Prop := r ∈ lostAcks h ∧ .incremented r ∈ h

/-! ## The record -/

/-- What a transition makes the broker store: the event of a success, or one whose acknowledgement
is lost. -/
lemma Transition.stored {redis redis' : Redis} {r : ℕ} {q : Request} {a : Action}
    {before after : Phase} {out : List Output}
    (ht : Transition redis r q a before (redis', after, out)) :
    (out.filterMap Output.published).length + (if before.succeeded then 1 else 0) =
      (lostAcks out).length + (if after.succeeded then 1 else 0) := by
  cases ht with
  | @emitRejected n stored => cases stored <;> rfl
  | _ => rfl

/-- A transition loses an acknowledgement while it emits, and ends up failing. -/
lemma Transition.lostAck {redis redis' : Redis} {r : ℕ} {q : Request} {a : Action}
    {before after : Phase} {out : List Output}
    (ht : Transition redis r q a before (redis', after, out)) :
    lostAcks out = [] ∨
      (lostAcks out = [r] ∧ before.failing = false ∧ after.failing = true ∧
        after.holdsUnit = true) := by
  cases ht with
  | @emitRejected n stored =>
      cases stored with
      | false => exact Or.inl rfl
      | true => exact Or.inr ⟨rfl, rfl, rfl, rfl⟩
  | _ => exact Or.inl rfl

/-- A request that fails goes on failing, and lets go of its unit only by giving it back. -/
lemma Transition.failing {s : State} {redis redis' : Redis} {r : ℕ} {q : Request} {a : Action}
    {before after : Phase} {out : List Output}
    (ht : Transition redis r q a before (redis', after, out)) (hg : faultless s a = true)
    (hbefore : before.failing = true) :
    after.failing = true ∧ (after.holdsUnit = true ∨ .incremented r ∈ out) := by
  cases ht with
  | rolledBack => exact ⟨by simp [Phase.failing], Or.inr (by simp)⟩
  | acquireRejected | checkRejected | releaseRejected | incrementRejected =>
      exact absurd hg (by simp [faultless])
  | _ => exact absurd hbefore (by simp [Phase.failing])

/-- **The invariant of the topic.** -/
structure Recorded (h : List Output) (s : State) : Prop where
  length : s.topic.length = s.succeeded + (lostAcks h).length
  nodup : (lostAcks h).Nodup
  failing : ∀ r ∈ lostAcks h, ∃ q, s.requests[r]? = some q ∧ q.phase.failing = true ∧
    (q.phase.holdsUnit = true ∨ .incremented r ∈ h)

/-- A step in which no acknowledgement is lost. -/
lemma Recorded.quiet {h out : List Output} {s s' : State} (hrec : Recorded h s)
    (hno : lostAcks out = []) (hlength : s'.topic.length = s'.succeeded + (lostAcks h).length)
    (hkeep : ∀ (r : ℕ) (q : Request), s.requests[r]? = some q → q.phase.failing = true →
      ∃ q' : Request, s'.requests[r]? = some q' ∧ q'.phase.failing = true ∧
        (q' = q ∨ q'.phase.holdsUnit = true ∨ .incremented r ∈ out)) :
    Recorded (h ++ out) s' := by
  have hsame : lostAcks (h ++ out) = lostAcks h := by
    rw [lostAcks_append, hno, List.append_nil]
  refine ⟨?_, ?_, ?_⟩ <;> rw [hsame]
  · exact hlength
  · exact hrec.nodup
  · intro r hr
    obtain ⟨q, hq, hfail, hheld⟩ := hrec.failing r hr
    obtain ⟨q', hq', hfail', rfl | hheld' | hundone⟩ := hkeep r q hq hfail
    · exact ⟨_, hq', hfail', hheld.imp_right (List.mem_append_left _)⟩
    · exact ⟨q', hq', hfail', Or.inl hheld'⟩
    · exact ⟨q', hq', hfail', Or.inr (List.mem_append_right _ hundone)⟩

theorem Recorded.step {h : List Output} {s s' : State} {a : Action} {out : List Output}
    (hrec : Recorded h s) (hg : faultless s a = true) (hstep : s.step a = some (s', out)) :
    Recorded (h ++ out) s' := by
  have hlength := hrec.length
  rw [State.succeeded] at hlength
  cases step_cases hstep with
  | arrived correlationId =>
      refine hrec.quiet rfl ?_ fun r q hq hfail => ⟨q, ?_, hfail, Or.inl rfl⟩
      · rw [State.succeeded, count_arrival _ rfl]
        exact hlength
      · exact getElem?_append_of_some hq _
  | advanced r q before redis after hadv =>
      have hsucc := hadv.count Phase.succeeded
      have hmove := hadv.transition.stored
      have htopic : s'.topic.length =
          s'.succeeded + (lostAcks h).length + (lostAcks out).length := by
        have heq : s'.topic = s.topic ++ out.filterMap Output.published := by rw [hadv.state]
        rw [heq, List.length_append, State.succeeded]
        omega
      rcases hadv.transition.lostAck with hno | ⟨hone, hb, ha, hheld⟩
      · refine hrec.quiet hno (by rw [hno] at htopic; exact htopic) fun r' q' hq' hfail => ?_
        by_cases hrr : r = r'
        · subst hrr
          rw [Option.some.inj (hq'.symm.trans hadv.at_r), hadv.phase] at hfail
          obtain ⟨hfail', hheld⟩ := hadv.transition.failing hg hfail
          exact ⟨_, hadv.at_self, hfail', Or.inr hheld⟩
        · exact ⟨q', by rw [hadv.at_other hrr, hq'], hfail, Or.inl rfl⟩
      · have hnew : r ∉ lostAcks h := by
          intro hr
          obtain ⟨p, hp, hfail, -⟩ := hrec.failing r hr
          rw [Option.some.inj (hp.symm.trans hadv.at_r), hadv.phase, hb] at hfail
          exact absurd hfail (by simp)
        refine ⟨?_, ?_, ?_⟩ <;> rw [lostAcks_append, hone]
        · rw [List.length_append, htopic, hone, Nat.add_assoc]
        · rw [List.nodup_append']
          exact ⟨hrec.nodup, List.nodup_singleton r, by simpa using hnew⟩
        · intro r' hr'
          by_cases hrr : r = r'
          · subst hrr
            exact ⟨_, hadv.at_self, ha, Or.inl hheld⟩
          · have hmem := (List.mem_append.mp hr').resolve_right fun hc =>
              hrr (List.mem_singleton.mp hc).symm
            obtain ⟨q', hq', hfail, hheld'⟩ := hrec.failing r' hmem
            exact ⟨q', by rw [hadv.at_other hrr, hq'], hfail,
              hheld'.imp_right (List.mem_append_left _)⟩
  | read => exact hrec.quiet rfl hlength fun r q hq hfail => ⟨q, hq, hfail, Or.inl rfl⟩
  | reset => exact absurd hg (by simp [faultless])
  | ticked => exact hrec.quiet rfl hlength fun r q hq hfail => ⟨q, hq, hfail, Or.inl rfl⟩

/-! ## The topic against the stock -/

/-- Both invariants, along every run. -/
lemma recorded_of_reaches {redis : Redis} {h : List Output} {s : State}
    (hr : (product.restrict faultless).Reaches (State.start redis) h s) :
    Balance redis.stock s ∧ Recorded h s := by
  refine hr.invariant (I := fun h s => Balance redis.stock s ∧ Recorded h s) ?_ ?_
  · exact ⟨balance_start redis, rfl, List.nodup_nil, by simp [lostAcks]⟩
  · rintro h s a s' out - ⟨hb, hrec⟩ hstep
    obtain ⟨hg, hstep⟩ := Machine.restrict_step.mp hstep
    exact ⟨hb.step hg hstep, hrec.step hg hstep⟩

/-- As long as no unit is given back whose event is stored, every lost acknowledgement belongs to a
request that still holds its unit. -/
lemma Recorded.lostAcks_le {h : List Output} {s : State} (hrec : Recorded h s)
    (hno : ∀ r, ¬ StoredUndone h r) : (lostAcks h).length ≤ s.inFlight := by
  refine length_le_countP_of_nodup hrec.nodup fun r hr => ?_
  obtain ⟨q, hq, -, hheld | hundone⟩ := hrec.failing r hr
  · exact ⟨q, hq, hheld⟩
  · exact absurd ⟨hr, hundone⟩ (hno r)

/-- **When the topic stays within the consumption.**  For every interleaving, every outcome of the
emits and any stock at the start: no more events are stored than units have been taken, in every
state before which no unit was given back whose event is stored; and once all requests have ended,
in no other. -/
theorem recorded_le_consumed {redis : Redis} {h : List Output} {s : State}
    (hr : (product.restrict faultless).Reaches (State.start redis) h s) :
    ((∀ r, ¬ StoredUndone h r) → (s.topic.length : ℤ) ≤ redis.stock - s.redis.stock) ∧
      (s.allEnded → ((s.topic.length : ℤ) ≤ redis.stock - s.redis.stock ↔
        ∀ r, ¬ StoredUndone h r)) := by
  obtain ⟨hb, hrec⟩ := recorded_of_reaches hr
  have hbalance := hb.balance
  have hlength := hrec.length
  have hwithin : (∀ r, ¬ StoredUndone h r) →
      (s.topic.length : ℤ) ≤ redis.stock - s.redis.stock := by
    intro hno
    have hle := hrec.lostAcks_le hno
    omega
  refine ⟨hwithin, fun hall => ⟨fun hle r hundone => ?_, hwithin⟩⟩
  have hflight := inFlight_of_allEnded hall
  have hnone : lostAcks h = [] := List.eq_nil_of_length_eq_zero (by omega)
  have hmem := hundone.1
  rw [hnone] at hmem
  exact absurd hmem List.not_mem_nil

/-- A request sells the last unit; another one finds nothing. -/
def soldOut : List Action :=
  [.useItem "a", .resume 0, .resume 0, .resume 0, .useItem "b", .resume 1, .resume 0, .resume 1,
    .resume 1]

theorem recorded_le_consumed_soldOut : ∃ s h,
    (product.restrict faultless).run
        (State.start { inventory := some 1, lock := none, now := 0 }) soldOut = some (s, h) ∧
      s.allEnded ∧ s.topic.length = 1 ∧ (∀ r, ¬ StoredUndone h r) := by
  have hrun := (rfl : (product.restrict faultless).run
    (State.start { inventory := some 1, lock := none, now := 0 }) soldOut = some (_, _))
  exact ⟨_, _, hrun, by decide, rfl,
    ((recorded_le_consumed (Machine.reaches_of_run hrun)).2 (by decide)).mp (by decide)⟩

/-- One request, whose event is stored and whose acknowledgement is lost. -/
def lostAck : List Action :=
  [.useItem "a", .resume 0, .resume 0, .resume 0, .rejectEmit 0 true, .resume 0]

/-- **An event without consumption**: the unit is back in stock, and the event is on the topic. -/
theorem recorded_past_consumed : ∃ s h,
    (product.restrict faultless).Reaches
        (State.start { inventory := some 1, lock := none, now := 0 }) h s ∧
      s.allEnded ∧ s.redis.stock = 1 ∧ s.topic.length = 1 ∧
      ¬ (s.topic.length : ℤ) ≤ 1 - s.redis.stock := by
  have hrun := (rfl : (product.restrict faultless).run
    (State.start { inventory := some 1, lock := none, now := 0 }) lostAck = some (_, _))
  exact ⟨_, _, Machine.reaches_of_run hrun, by decide, rfl, rfl, by decide⟩

end RedisApi.Product
