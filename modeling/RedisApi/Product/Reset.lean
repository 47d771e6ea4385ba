import RedisApi.Product.Inventory
import Mathlib.Data.Finset.Card

/-!
# Bounds on the stock, with resets

`resetInventory` sets the counter to `initialStock` whatever is in flight.  A request that has
decremented before the reset and whose emit fails after it gives a unit back that the reset has
already restored.

So what bounds the stock is not the number of requests in flight but the number of those that have
decremented *since the last reset*: `Bounded.fresh` is a set that contains them.  As long as nobody
else gives a unit back, stock and set together stay within `initialStock`.

* `Bounded` — the invariant.
* `within_bounds` — the bounds, in every run in which no reset comes between a decrement and its
  compensation.
* `reset_exceeds` — one request and one reset.
-/

namespace RedisApi.Product

open Core

/-- Redis takes every command. -/
def commandsSucceed (_ : State) : Action → Bool
  | .reject _ => false
  | _ => true

/-- The counter is absent or in range, and so is what every successful request has reported. -/
structure WithinBounds (s : State) : Prop where
  inventory : ∀ v, s.redis.inventory = some v → 0 ≤ v ∧ v ≤ initialStock
  reported : ∀ q ∈ s.requests, ∀ a, q.phase = .ended (.answer a) → a.success = true →
    0 ≤ a.remaining ∧ a.remaining ≤ initialStock - 1

/-- The inventory has been reset since the script was run for `r`. -/
def Stale (h : List Output) (r : ℕ) : Prop := ∃ n, [.checked r n, .reset].Sublist h

/-- No reset comes between a decrement and the increment that compensates it. -/
def NoResetBetween (h : List Output) : Prop :=
  ∀ r n, ¬ [.checked r n, .reset, .incremented r].Sublist h

lemma NoResetBetween.left {h out : List Output} (hn : NoResetBetween (h ++ out)) :
    NoResetBetween h :=
  fun r n hs => hn r n (hs.trans (List.sublist_append_left h out))

lemma Stale.append {h : List Output} {r : ℕ} (hs : Stale h r) (out : List Output) :
    Stale (h ++ out) r := by
  obtain ⟨n, hn⟩ := hs
  exact ⟨n, hn.trans (List.sublist_append_left h out)⟩

/-- A request that is about to compensate has seen no reset. -/
lemma NoResetBetween.not_stale {h out : List Output} {r : ℕ} (hn : NoResetBetween (h ++ out))
    (hmem : .incremented r ∈ out) : ¬ Stale h r := by
  rintro ⟨n, hs⟩
  exact hn r n (hs.append (List.singleton_sublist.mpr hmem))

/-! ## The invariant -/

/-- What a request in a phase has got from the script. -/
def Phase.Reported (h : List Output) (r : ℕ) : Phase → Prop
  | .releasing _ (some n) => n ≤ initialStock - 1 ∧ .checked r n ∈ h
  | .emitting n | .rollingBack n => (0 ≤ n ∧ n ≤ initialStock - 1) ∧ .checked r n ∈ h
  | .ended (.answer a) => a.success = true → 0 ≤ a.remaining ∧ a.remaining ≤ initialStock - 1
  | _ => True

lemma Phase.Reported.append {h : List Output} {r : ℕ} {p : Phase} (hp : p.Reported h r)
    (out : List Output) : p.Reported (h ++ out) r := by
  cases p with
  | releasing token remaining =>
      cases remaining with
      | none => trivial
      | some n => exact ⟨hp.1, List.mem_append_left _ hp.2⟩
  | emitting n => exact ⟨hp.1, List.mem_append_left _ hp.2⟩
  | rollingBack n => exact ⟨hp.1, List.mem_append_left _ hp.2⟩
  | ended o => cases o <;> exact hp
  | _ => trivial

/-- A request that holds a unit has run the script. -/
lemma Phase.Reported.checked {h : List Output} {r : ℕ} {p : Phase} (hp : p.Reported h r)
    (hheld : p.holdsUnit = true) : ∃ n, .checked r n ∈ h := by
  cases p with
  | releasing token remaining =>
      cases remaining with
      | none => exact absurd hheld (by simp [holdsUnit])
      | some n => exact ⟨n, hp.2⟩
  | emitting n => exact ⟨n, hp.2⟩
  | rollingBack n => exact ⟨n, hp.2⟩
  | _ => exact absurd hheld (by simp [holdsUnit])

/-- **The invariant of the bounds.** -/
structure Bounded (h : List Output) (s : State) : Prop where
  nonneg : 0 ≤ s.redis.stock
  fresh : ∃ F : Finset ℕ, s.redis.stock + F.card ≤ initialStock ∧
    s.AllPhases fun r p => p.holdsUnit = true → ¬ Stale h r → r ∈ F
  reported : s.AllPhases fun r p => p.Reported h r

/-- What a transition does to the stock: nothing, a decrement, or an increment. -/
lemma Transition.stock_cases {s : State} {redis redis' : Redis} {r : ℕ} {q : Request} {a : Action}
    {before after : Phase} {out : List Output}
    (ht : Transition redis r q a before (redis', after, out)) (hg : commandsSucceed s a = true) :
    (redis'.stock = redis.stock ∧ (after.holdsUnit = true → before.holdsUnit = true)) ∨
    (redis'.stock = redis.stock - 1 ∧ 0 < redis.stock) ∨
    (redis' = redis.increment ∧ before.holdsUnit = true ∧ after.holdsUnit = false ∧
      .incremented r ∈ out) := by
  cases ht with
  | decremented positive => exact Or.inr (Or.inl ⟨rfl, positive⟩)
  | rolledBack => exact Or.inr (Or.inr ⟨rfl, rfl, rfl, by simp⟩)
  | releasedRejected => exact Or.inl ⟨by simp, by simp [Phase.holdsUnit]⟩
  | releasedEmpty => exact Or.inl ⟨by simp, by simp [Phase.holdsUnit]⟩
  | released nonneg => exact Or.inl ⟨by simp, fun _ => by simp [Phase.holdsUnit, nonneg]⟩
  | acquireRejected => exact absurd hg (by simp [commandsSucceed])
  | checkRejected => exact absurd hg (by simp [commandsSucceed])
  | releaseRejected => exact absurd hg (by simp [commandsSucceed])
  | incrementRejected => exact absurd hg (by simp [commandsSucceed])
  | _ => exact Or.inl ⟨rfl, by simp [Phase.holdsUnit]⟩

/-- What a request reports, after a transition from a stock within the bounds. -/
lemma Transition.reported {h : List Output} {redis redis' : Redis} {r : ℕ} {q : Request}
    {a : Action} {before after : Phase} {out : List Output}
    (ht : Transition redis r q a before (redis', after, out)) (hb : before.Reported h r)
    (hle : redis.stock ≤ initialStock) : after.Reported (h ++ out) r := by
  cases ht with
  | refused => exact ⟨by decide, by simp⟩
  | decremented => exact ⟨Int.sub_le_sub_right hle 1, by simp⟩
  | released nonneg => exact ⟨⟨nonneg, hb.1⟩, List.mem_append_left _ hb.2⟩
  | releasedEmpty => exact fun hc => absurd hc (by simp)
  | emitted => exact fun _ => hb.1
  | emitRejected => exact ⟨hb.1, List.mem_append_left _ hb.2⟩
  | _ => trivial

/-- A missing key counts as a full stock. -/
lemma Redis.inventory_isSome {redis : Redis} (hlt : redis.stock < initialStock) :
    redis.inventory.isSome := by
  cases hinv : redis.inventory with
  | some v => rfl
  | none => exact absurd hlt (by simp [Redis.stock, hinv])

/-- Nothing but the phases of others and their records is looked at. -/
lemma Bounded.advances {h : List Output} {s s' : State} {a : Action} {r : ℕ} {q : Request}
    {before after : Phase} {redis : Redis} {out : List Output} (hb : Bounded h s)
    (hadv : Advances s a r q before redis after out s') (hg : commandsSucceed s a = true)
    (hn : NoResetBetween (h ++ out)) : Bounded (h ++ out) s' := by
  obtain ⟨hnonneg, ⟨F, hF, hfresh⟩, hrep⟩ := hb
  have hle : s.redis.stock ≤ initialStock := by omega
  have hstill : ∀ (r' : ℕ) (p : Phase), r ≠ r' → (p.holdsUnit = true → ¬ Stale h r' → r' ∈ F) →
      p.holdsUnit = true → ¬ Stale (h ++ out) r' → r' ∈ F :=
    fun r' p _ hp hheld hst => hp hheld fun hc => hst (hc.append out)
  have hreported := hrep.advances hadv (fun r' p _ hp => hp.append out)
    (hadv.transition.reported (hadv.of_allPhases hrep) hle)
  rcases hadv.transition.stock_cases hg with ⟨heq, hkeep⟩ | ⟨heq, hpos⟩ |
    ⟨rfl, hbefore, hafter, hinc⟩
  · refine ⟨by rw [hadv.redis_eq, heq]; exact hnonneg,
      ⟨F, by rw [hadv.redis_eq, heq]; exact hF, hfresh.advances hadv hstill ?_⟩, hreported⟩
    exact fun hheld hst => hadv.of_allPhases hfresh (hkeep hheld) fun hc => hst (hc.append out)
  · -- a new decrement: one unit less in stock, one request more in the set
    have hcard := Finset.card_insert_le r F
    refine ⟨by rw [hadv.redis_eq, heq]; omega, ⟨insert r F, ?_, ?_⟩, hreported⟩
    · rw [hadv.redis_eq, heq]
      omega
    · refine hfresh.advances hadv (fun r' p hne hp hheld hst => ?_)
        fun _ _ => Finset.mem_insert_self r F
      exact Finset.mem_insert_of_mem (hstill r' p hne hp hheld hst)
  · -- a compensation: the request has seen no reset, so it leaves the set
    have hin : r ∈ F := hadv.of_allPhases hfresh hbefore (hn.not_stale hinc)
    have hcard := Finset.card_erase_add_one hin
    have hlt : s.redis.stock < initialStock := by omega
    have hstock := Redis.increment_stock (Redis.inventory_isSome hlt)
    refine ⟨by rw [hadv.redis_eq, hstock]; omega, ⟨F.erase r, ?_, ?_⟩, hreported⟩
    · rw [hadv.redis_eq, hstock]
      omega
    · refine hfresh.advances hadv (fun r' p hne hp hheld hst => ?_)
        fun hheld => absurd (hheld.symm.trans hafter) (by simp)
      exact Finset.mem_erase.mpr ⟨hne.symm, hstill r' p hne hp hheld hst⟩

theorem Bounded.step {h : List Output} {s s' : State} {a : Action} {out : List Output}
    (hb : Bounded h s) (hg : commandsSucceed s a = true) (hn : NoResetBetween (h ++ out))
    (hstep : s.step a = some (s', out)) : Bounded (h ++ out) s' := by
  cases step_cases hstep with
  | arrived correlationId =>
      obtain ⟨hnonneg, ⟨F, hF, hfresh⟩, hrep⟩ := hb
      refine ⟨hnonneg, ⟨F, hF, State.AllPhases.arrival (hfresh.mono fun r p hp hheld hst => ?_)
        correlationId ?_⟩, (hrep.mono fun r p hp => hp.append _).arrival correlationId trivial⟩
      · exact hp hheld fun hc => hst (hc.append _)
      · simp [Phase.holdsUnit]
  | advanced r q before redis after hadv => exact hb.advances hadv hg hn
  | read =>
      obtain ⟨hnonneg, ⟨F, hF, hfresh⟩, hrep⟩ := hb
      refine ⟨hnonneg, ⟨F, hF, hfresh.mono fun r p hp hheld hst => ?_⟩,
        hrep.mono fun r p hp => hp.append _⟩
      exact hp hheld fun hc => hst (hc.append _)
  | reset =>
      -- after the reset whoever holds a unit has got it before
      refine ⟨show 0 ≤ initialStock by decide, ⟨∅, by simp, fun r q hq hheld hst => absurd ?_ hst⟩,
        hb.reported.mono fun r p hp => hp.append _⟩
      obtain ⟨n, hchecked⟩ := (hb.reported r q hq).checked hheld
      exact ⟨n, pair_sublist_append hchecked (List.mem_singleton_self _)⟩
  | ticked =>
      rw [List.append_nil]
      exact ⟨hb.nonneg, hb.fresh, hb.reported⟩

/-- **The bounds hold** in every run in which no reset comes between a request's decrement and the
increment that compensates it. -/
theorem within_bounds {redis : Redis}
    (hstart : ∀ v, redis.inventory = some v → 0 ≤ v ∧ v ≤ initialStock) {h : List Output}
    {s : State} (hr : (product.restrict commandsSucceed).Reaches (State.start redis) h s)
    (hn : NoResetBetween h) : WithinBounds s := by
  have hb : Bounded h s := by
    refine hr.invariant (I := fun h s => NoResetBetween h → Bounded h s) ?_ ?_ hn
    · intro _
      have hstock : 0 ≤ redis.stock ∧ redis.stock ≤ initialStock := by
        cases hinv : redis.inventory with
        | none => simp [Redis.stock, hinv, initialStock]
        | some v => simpa [Redis.stock, hinv] using hstart v hinv
      exact ⟨hstock.1, ⟨∅, by simpa [State.start] using hstock.2, allPhases_start _ _⟩,
        allPhases_start _ _⟩
    · rintro h s a s' out - hb hstep hn
      obtain ⟨hg, hstep⟩ := Machine.restrict_step.mp hstep
      exact (hb hn.left).step hg hn hstep
  obtain ⟨hnonneg, ⟨F, hF, -⟩, hrep⟩ := hb
  constructor
  · intro v hv
    have hstock : s.redis.stock = v := by simp [Redis.stock, hv]
    rw [← hstock]
    omega
  · intro q hq a hp hsucc
    obtain ⟨r, hr'⟩ := List.mem_iff_getElem?.mp hq
    have hphase := hrep r q hr'
    rw [hp] at hphase
    exact hphase hsucc

/-- A reset before a request's decrement; its emit fails and it compensates. -/
def resetBefore : List Action :=
  [.useItem "a", .resume 0, .resetInventory, .resume 0, .resume 0, .rejectEmit 0 false, .resume 0]

theorem within_bounds_resetBefore : ∃ s h,
    (product.restrict commandsSucceed).run
        (State.start { inventory := some 7, lock := none, now := 0 }) resetBefore = some (s, h) ∧
      s.redis.inventory = some 1000 ∧ WithinBounds s := by
  have hrun := (rfl : (product.restrict commandsSucceed).run
    (State.start { inventory := some 7, lock := none, now := 0 }) resetBefore = some (_, _))
  refine ⟨_, _, hrun, rfl, within_bounds (by simp [initialStock]) (Machine.reaches_of_run hrun) ?_⟩
  intro r n hs
  have hs : List.Sublist [Output.checked r n, .reset, .incremented r]
      [Output.started 0, .locked 0 ⟨0, 1⟩ 0, .reset, .checked 0 999, .unlocked 0 ⟨0, 1⟩ 0,
        .emitFailed 0 none, .incremented 0, .ended 0 .deliveryFailed] := hs
  have hmem := hs.subset List.mem_cons_self
  simp only [List.mem_cons, Output.checked.injEq, reduceCtorEq, List.not_mem_nil, false_or,
    or_false] at hmem
  obtain ⟨rfl, rfl⟩ := hmem
  exact absurd hs (by decide)

/-- The same request, with the reset after its decrement. -/
def resetBetween : List Action :=
  [.useItem "a", .resume 0, .resume 0, .resume 0, .resetInventory, .rejectEmit 0 false, .resume 0]

/-- **The stock exceeds its bound**: the unit given back has been restored by the reset already. -/
theorem reset_exceeds : ∃ s h,
    (product.restrict commandsSucceed).run
        (State.start { inventory := none, lock := none, now := 0 }) resetBetween = some (s, h) ∧
      s.redis.inventory = some 1001 ∧ ¬ WithinBounds s := by
  have hrun := (rfl : (product.restrict commandsSucceed).run
    (State.start { inventory := none, lock := none, now := 0 }) resetBetween = some (_, _))
  refine ⟨_, _, hrun, rfl, fun hc => ?_⟩
  exact absurd (hc.inventory 1001 rfl).2 (by decide)

end RedisApi.Product
