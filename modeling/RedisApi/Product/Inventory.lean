import RedisApi.Product.UseItem

/-!
# Conservation of the inventory

Every unit that was in stock at the start is still there, or is held by a request that has
decremented and not yet ended, or has gone with a request that answered success.  The script
decrements and answers in one go, so this needs no lock: it holds whatever the locks do, and the
lock's expiry inside a critical section changes nothing.

* `Conserved` — the balance, kept by every step without a reset or a rejected Redis call.
* `Tally` — how many requests the script was run for, by what became of them.
* `inventory_conserved` — both along every run, and what follows once all requests have ended.
-/

namespace RedisApi.Product

open Core

/-- Redis takes every command, and nobody resets the inventory. -/
def faultless (_ : State) : Action → Bool
  | .reject _ | .resetInventory => false
  | _ => true

/-! ## What became of a request -/

namespace Phase

/-- The decrement has been made, and neither kept for good nor undone. -/
def holdsUnit : Phase → Bool
  | .releasing _ (some n) => 0 ≤ n
  | .emitting _ | .rollingBack _ => true
  | _ => false

/-- The request has answered success. -/
def succeeded : Phase → Bool
  | .ended (.answer a) => a.success
  | _ => false

/-- The script found nothing in stock. -/
def refused : Phase → Bool
  | .releasing _ (some n) => n < 0
  | .ended (.answer a) => !a.success
  | _ => false

/-- The decrement has been made and undone. -/
def undone : Phase → Bool
  | .ended o => o = .deliveryFailed
  | _ => false

/-- The emit has failed. -/
def failing : Phase → Bool
  | .rollingBack _ => true
  | .ended o => o = .deliveryFailed
  | _ => false

def isEnded : Phase → Bool
  | .ended _ => true
  | _ => false

/-- The script has been run for the request. -/
def executed (p : Phase) : Bool := p.holdsUnit || p.refused || p.succeeded || p.undone

/-- The four things that can have become of such a request exclude each other. -/
lemma executed_split (p : Phase) : (if p.executed then 1 else 0) =
    (if p.holdsUnit then 1 else 0) + (if p.refused then 1 else 0) +
      (if p.succeeded then 1 else 0) + (if p.undone then 1 else 0) := by
  cases p with
  | releasing token remaining =>
      cases remaining with
      | none => rfl
      | some n =>
          rcases lt_or_ge n 0 with hn | hn
          · simp [executed, holdsUnit, refused, succeeded, undone, hn, not_le.mpr hn]
          · simp [executed, holdsUnit, refused, succeeded, undone, hn, not_lt.mpr hn]
  | ended o =>
      cases o with
      | answer a => cases hs : a.success <;>
          simp [executed, holdsUnit, refused, succeeded, undone, hs, Outcome.deliveryFailed]
      | httpException status message =>
          simp [executed, holdsUnit, refused, succeeded]
      | rejected => rfl
  | _ => rfl

end Phase

def State.inFlight (s : State) : ℕ := s.count Phase.holdsUnit
def State.succeeded (s : State) : ℕ := s.count Phase.succeeded
def State.refused (s : State) : ℕ := s.count Phase.refused
def State.undone (s : State) : ℕ := s.count Phase.undone
def State.failing (s : State) : ℕ := s.count Phase.failing

/-- All requests have ended. -/
def State.allEnded (s : State) : Prop := ∀ q ∈ s.requests, q.phase.isEnded = true

instance (s : State) : Decidable s.allEnded :=
  inferInstanceAs (Decidable (∀ q ∈ s.requests, q.phase.isEnded = true))

/-- The requests for which `checkAndDecrement` was executed. -/
def checkedRequests (h : List Output) : List ℕ :=
  h.filterMap fun
    | .checked r _ => some r
    | _ => none

lemma checkedRequests_append (h out : List Output) :
    checkedRequests (h ++ out) = checkedRequests h ++ checkedRequests out := List.filterMap_append

/-! ## The balance -/

/-- **The invariant of the stock.**  `present` is what makes `INCR` undo a decrement: on a missing
key it would start from zero. -/
structure Conserved (S : ℤ) (s : State) : Prop where
  nonneg : 0 ≤ s.redis.stock
  balance : s.redis.stock + s.inFlight + s.succeeded = S
  present : 0 < s.inFlight → s.redis.inventory.isSome

/-- The part of it that does not need a stock of at least zero. -/
structure Balance (S : ℤ) (s : State) : Prop where
  balance : s.redis.stock + s.inFlight + s.succeeded = S
  present : 0 < s.inFlight → s.redis.inventory.isSome

lemma balance_start (redis : Redis) : Balance redis.stock (State.start redis) := by
  refine ⟨?_, fun hpos => absurd hpos (by simp [State.inFlight, count_start])⟩
  show redis.stock + ((0 : ℕ) : ℤ) + ((0 : ℕ) : ℤ) = redis.stock
  simp

/-- What a transition does to the balance. -/
structure Transition.Balanced (redis redis' : Redis) (before after : Phase) : Prop where
  balance : redis'.stock + (if after.holdsUnit then 1 else 0) + (if after.succeeded then 1 else 0) =
    redis.stock + (if before.holdsUnit then 1 else 0) + (if before.succeeded then 1 else 0)
  nonneg : 0 ≤ redis.stock → 0 ≤ redis'.stock
  present : redis.inventory.isSome ∨ (before.holdsUnit = false ∧ after.holdsUnit = true) →
    redis'.inventory.isSome

lemma Transition.balanced {s : State} {redis redis' : Redis} {r : ℕ} {q : Request} {a : Action}
    {before after : Phase} {out : List Output}
    (ht : Transition redis r q a before (redis', after, out)) (hg : faultless s a = true)
    (hkey : before.holdsUnit = true → redis.inventory.isSome) :
    Transition.Balanced redis redis' before after := by
  cases ht with
  | acquired | contended | woken | exhausted => exact ⟨rfl, id, by simp [Phase.holdsUnit]⟩
  | refused => exact ⟨rfl, id, fun _ => rfl⟩
  | decremented positive =>
      have hone : 1 ≤ redis.stock := positive
      refine ⟨?_, fun _ => Int.sub_nonneg_of_le hone, fun _ => rfl⟩
      simp [Phase.holdsUnit, Phase.succeeded, hone]
  | releasedEmpty negative =>
      refine ⟨?_, by simp, by simp [Phase.holdsUnit]⟩
      simp [Phase.holdsUnit, Phase.succeeded, Outcome.outOfStock, not_le.mpr negative]
  | released nonneg =>
      refine ⟨?_, by simp, ?_⟩
      · simp [Phase.holdsUnit, Phase.succeeded, nonneg]
      · simp [Phase.holdsUnit, nonneg]
  | emitted => exact ⟨by simp [Phase.holdsUnit, Phase.succeeded, Outcome.itemUsed], id,
      by simp [Phase.holdsUnit]⟩
  | rolledBack =>
      have hstock := Redis.increment_stock (hkey rfl)
      refine ⟨?_, by omega, fun _ => rfl⟩
      simp [Phase.holdsUnit, Phase.succeeded, Outcome.deliveryFailed, hstock]
  | emitRejected => exact ⟨rfl, id, by simp [Phase.holdsUnit]⟩
  | releasedRejected => exact ⟨by simp [Phase.holdsUnit, Phase.succeeded], by simp,
      by simp [Phase.holdsUnit]⟩
  | acquireRejected | checkRejected | releaseRejected | incrementRejected =>
      exact absurd hg (by simp [faultless])

/-- **One step keeps the balance**, whatever the stock at the start. -/
theorem Balance.step {S : ℤ} {s s' : State} {a : Action} {out : List Output}
    (hb : Balance S s) (hg : faultless s a = true) (h : s.step a = some (s', out)) :
    Balance S s' := by
  cases step_cases h with
  | arrived correlationId =>
      have hheld := count_arrival (s := s) (p := Phase.holdsUnit) correlationId rfl
      have hsucc := count_arrival (s := s) (p := Phase.succeeded) correlationId rfl
      constructor
      · rw [State.inFlight, State.succeeded, hheld, hsucc]
        exact hb.balance
      · rw [State.inFlight, hheld]
        exact hb.present
  | advanced r q before redis after hadv =>
      have hheld := hadv.count Phase.holdsUnit
      have hsucc := hadv.count Phase.succeeded
      have hbal := hadv.transition.balanced hg fun hbefore =>
        hb.present (State.count_pos hadv.at_r (by rw [hadv.phase]; exact hbefore))
      have hbalance := hb.balance
      rw [State.inFlight, State.succeeded] at hbalance
      constructor
      · have hmove := hbal.balance
        rw [State.inFlight, State.succeeded, hadv.redis_eq]
        split_ifs at hheld hsucc hmove <;> omega
      · intro hpos
        rw [hadv.redis_eq]
        refine hbal.present ?_
        -- either somebody held a unit before, or this request is the first to
        by_cases hbefore : 0 < s.inFlight
        · exact Or.inl (hb.present hbefore)
        · rw [State.inFlight] at hpos hbefore
          right
          cases hb : before.holdsUnit <;> cases ha : after.holdsUnit <;>
            simp only [hb, ha, if_true, Bool.false_eq_true, if_false] at hheld <;>
            first | omega | simp
  | read => exact hb
  | reset => exact absurd hg (by simp [faultless])
  | ticked => exact ⟨hb.balance, hb.present⟩

theorem Conserved.step {S : ℤ} {s s' : State} {a : Action} {out : List Output}
    (hc : Conserved S s) (hg : faultless s a = true) (h : s.step a = some (s', out)) :
    Conserved S s' := by
  obtain ⟨hbalance, hpresent⟩ := Balance.step ⟨hc.balance, hc.present⟩ hg h
  refine ⟨?_, hbalance, hpresent⟩
  cases step_cases h with
  | advanced r q before redis after hadv =>
      have hbal := hadv.transition.balanced hg fun hbefore =>
        hc.present (State.count_pos hadv.at_r (by rw [hadv.phase]; exact hbefore))
      rw [hadv.redis_eq]
      exact hbal.nonneg hc.nonneg
  | arrived | read | ticked => exact hc.nonneg
  | reset => exact absurd hg (by simp [faultless])

/-! ## The tally -/

lemma State.count_executed (s : State) :
    s.count Phase.executed = s.inFlight + s.refused + s.succeeded + s.undone := by
  simp only [State.inFlight, State.refused, State.succeeded, State.undone, State.count]
  induction s.requests with
  | nil => rfl
  | cons q qs ih =>
      have hq := q.phase.executed_split
      simp only [List.countP_cons]
      omega

/-- The script is run once for a request, and its result is on record from then on. -/
lemma Transition.executed {s : State} {redis redis' : Redis} {r : ℕ} {q : Request} {a : Action}
    {before after : Phase} {out : List Output}
    (ht : Transition redis r q a before (redis', after, out)) (hg : faultless s a = true) :
    (after.executed = before.executed ∧ checkedRequests out = []) ∨
      (before.executed = false ∧ after.executed = true ∧ checkedRequests out = [r]) := by
  cases ht with
  | refused => exact Or.inr ⟨rfl, rfl, rfl⟩
  | decremented positive =>
      have hone : 1 ≤ redis.stock := positive
      exact Or.inr ⟨rfl, by simp [Phase.executed, Phase.holdsUnit, hone], rfl⟩
  | releasedEmpty negative =>
      exact Or.inl ⟨by simp [Phase.executed, Phase.holdsUnit, Phase.refused, negative,
        Outcome.outOfStock], rfl⟩
  | released nonneg => exact Or.inl ⟨by simp [Phase.executed, Phase.holdsUnit, nonneg], rfl⟩
  | acquireRejected | checkRejected | releaseRejected | incrementRejected =>
      exact absurd hg (by simp [faultless])
  | _ => exact Or.inl ⟨rfl, rfl⟩

/-- **The tally.**  The script was run for as many requests as the phases say, for none twice. -/
structure Tally (h : List Output) (s : State) : Prop where
  length : (checkedRequests h).length = s.count Phase.executed
  executed : ∀ r ∈ checkedRequests h, ∃ q, s.requests[r]? = some q ∧ q.phase.executed = true
  nodup : (checkedRequests h).Nodup

/-- A step in which the script is not run. -/
lemma Tally.quiet {h out : List Output} {s s' : State} (ht : Tally h s)
    (hno : checkedRequests out = []) (hcount : s'.count Phase.executed = s.count Phase.executed)
    (hkeep : ∀ (r : ℕ) (q : Request), s.requests[r]? = some q → q.phase.executed = true →
      ∃ q' : Request, s'.requests[r]? = some q' ∧ q'.phase.executed = true) :
    Tally (h ++ out) s' := by
  have hsame : checkedRequests (h ++ out) = checkedRequests h := by
    rw [checkedRequests_append, hno, List.append_nil]
  refine ⟨?_, ?_, ?_⟩ <;> rw [hsame]
  · rw [ht.length, hcount]
  · intro r hr
    obtain ⟨q, hq, hex⟩ := ht.executed r hr
    exact hkeep r q hq hex
  · exact ht.nodup

/-- A step in which it is run for `r`, for which it was not run before. -/
lemma Tally.check {h out : List Output} {s s' : State} {r : ℕ} {q q' : Request} (ht : Tally h s)
    (hone : checkedRequests out = [r])
    (hcount : s'.count Phase.executed = s.count Phase.executed + 1)
    (hq : s.requests[r]? = some q) (hbefore : q.phase.executed = false)
    (hq' : s'.requests[r]? = some q') (hafter : q'.phase.executed = true)
    (hother : ∀ r', r ≠ r' → s'.requests[r']? = s.requests[r']?) : Tally (h ++ out) s' := by
  have hnew : r ∉ checkedRequests h := by
    intro hr
    obtain ⟨p, hp, hex⟩ := ht.executed r hr
    rw [Option.some.inj (hp.symm.trans hq), hbefore] at hex
    exact absurd hex (by simp)
  refine ⟨?_, ?_, ?_⟩ <;> rw [checkedRequests_append, hone]
  · rw [List.length_append, List.length_singleton, ht.length, hcount]
  · intro r' hr'
    by_cases hrr : r = r'
    · exact ⟨q', hrr ▸ hq', hafter⟩
    · have hmem := (List.mem_append.mp hr').resolve_right fun hc =>
        hrr (List.mem_singleton.mp hc).symm
      rw [hother r' hrr]
      exact ht.executed r' hmem
  · rw [List.nodup_append']
    exact ⟨ht.nodup, List.nodup_singleton r, by simpa using hnew⟩

theorem Tally.step {h : List Output} {s s' : State} {a : Action} {out : List Output}
    (ht : Tally h s) (hg : faultless s a = true) (hstep : s.step a = some (s', out)) :
    Tally (h ++ out) s' := by
  cases step_cases hstep with
  | arrived correlationId =>
      refine ht.quiet rfl (count_arrival _ rfl) fun r q hq hex => ⟨q, ?_, hex⟩
      exact getElem?_append_of_some hq _
  | advanced r q before redis after hadv =>
      have hcount := hadv.count Phase.executed
      rcases hadv.transition.executed hg with ⟨hsame, hno⟩ | ⟨hb, ha, hone⟩
      · rw [hsame] at hcount
        refine ht.quiet hno (by omega) fun r' q' hq' hex => ?_
        by_cases hrr : r = r'
        · subst hrr
          rw [Option.some.inj (hq'.symm.trans hadv.at_r), hadv.phase, ← hsame] at hex
          exact ⟨_, hadv.at_self, hex⟩
        · exact ⟨q', by rw [hadv.at_other hrr, hq'], hex⟩
      · rw [hb, ha] at hcount
        simp only [Bool.false_eq_true, if_false, if_true, Nat.add_zero] at hcount
        exact ht.check hone hcount hadv.at_r (by rw [hadv.phase, hb]) hadv.at_self ha
          fun r' hrr => hadv.at_other hrr
  | read => exact ht.quiet rfl rfl fun r q hq hex => ⟨q, hq, hex⟩
  | reset => exact absurd hg (by simp [faultless])
  | ticked => exact ht.quiet rfl rfl fun r q hq hex => ⟨q, hq, hex⟩

/-! ## Runs in which no emit fails -/

/-- No emit has failed. -/
def NoEmitFailed (h : List Output) : Prop := ∀ r stored, .emitFailed r stored ∉ h

lemma NoEmitFailed.left {h out : List Output} (hn : NoEmitFailed (h ++ out)) : NoEmitFailed h :=
  fun r stored hmem => hn r stored (List.mem_append_left _ hmem)

lemma NoEmitFailed.right {h out : List Output} (hn : NoEmitFailed (h ++ out)) : NoEmitFailed out :=
  fun r stored hmem => hn r stored (List.mem_append_right _ hmem)

/-- Nothing is given back, so once a request has been refused nothing is left. -/
structure Undisturbed (s : State) : Prop where
  none_failing : s.failing = 0
  empty : 0 < s.refused → s.redis.stock = 0

/-- Without failing emits the stock only falls, and a request is refused only at zero. -/
lemma Transition.undisturbed {s : State} {redis redis' : Redis} {r : ℕ} {q : Request} {a : Action}
    {before after : Phase} {out : List Output}
    (ht : Transition redis r q a before (redis', after, out)) (hg : faultless s a = true)
    (hno : NoEmitFailed out) (hbefore : before.failing = false) (hnonneg : 0 ≤ redis.stock) :
    after.failing = false ∧ (redis'.stock = redis.stock ∨ 0 < redis.stock) ∧
      (after.refused = true → before.refused = true ∨ redis'.stock = 0) := by
  cases ht with
  | refused empty => exact ⟨rfl, Or.inl rfl, fun _ => Or.inr (le_antisymm empty hnonneg)⟩
  | decremented positive =>
      refine ⟨rfl, Or.inr positive, fun hc => ?_⟩
      have hone : 1 ≤ redis.stock := positive
      simp only [Phase.refused, decide_eq_true_eq] at hc
      omega
  | releasedRejected => exact ⟨rfl, Or.inl (by simp), by simp [Phase.refused]⟩
  | releasedEmpty negative =>
      refine ⟨by simp [Phase.failing, Outcome.outOfStock, Outcome.deliveryFailed],
        Or.inl (by simp), fun _ => Or.inl ?_⟩
      simp [Phase.refused, negative]
  | released => exact ⟨rfl, Or.inl (by simp), by simp [Phase.refused]⟩
  | emitted => exact ⟨by simp [Phase.failing, Outcome.itemUsed, Outcome.deliveryFailed],
      Or.inl rfl, by simp [Phase.refused, Outcome.itemUsed]⟩
  | exhausted => exact ⟨by simp [Phase.failing, Outcome.lockContention, Outcome.deliveryFailed],
      Or.inl rfl, by simp [Phase.refused, Outcome.lockContention]⟩
  | rolledBack => exact absurd hbefore (by simp [Phase.failing])
  | emitRejected => exact absurd (List.mem_singleton_self _) (hno _ _)
  | acquireRejected | checkRejected | releaseRejected | incrementRejected =>
      exact absurd hg (by simp [faultless])
  | _ => exact ⟨rfl, Or.inl rfl, by simp [Phase.refused]⟩

theorem Undisturbed.step {S : ℤ} {s s' : State} {a : Action} {out : List Output}
    (hu : Undisturbed s) (hc : Conserved S s) (hg : faultless s a = true) (hno : NoEmitFailed out)
    (hstep : s.step a = some (s', out)) : Undisturbed s' := by
  cases step_cases hstep with
  | arrived correlationId =>
      constructor
      · rw [State.failing, count_arrival _ rfl]
        exact hu.none_failing
      · rw [State.refused, count_arrival _ rfl]
        exact hu.empty
  | advanced r q before redis after hadv =>
      have hfail := hadv.count Phase.failing
      have href := hadv.count Phase.refused
      have hbefore : before.failing = false := by
        by_contra hb
        have hpos := State.count_pos (p := Phase.failing) hadv.at_r
          (by rw [hadv.phase]; simpa using hb)
        have hzero := hu.none_failing
        rw [State.failing] at hzero
        omega
      obtain ⟨hafter, hstock, hrefused⟩ :=
        hadv.transition.undisturbed hg hno hbefore hc.nonneg
      constructor
      · have hzero := hu.none_failing
        rw [State.failing] at hzero ⊢
        rw [hbefore, hafter] at hfail
        omega
      · intro hpos
        rw [hadv.redis_eq]
        by_cases hold : 0 < s.refused
        · have hempty := hu.empty hold
          rcases hstock with heq | hlt
          · rw [heq, hempty]
          · omega
        · rw [State.refused] at hpos hold
          cases ha : after.refused with
          | false =>
              rw [ha] at href
              simp only [Bool.false_eq_true, if_false] at href
              omega
          | true =>
              rcases hrefused ha with hb | hz
              · have hposb := State.count_pos (p := Phase.refused) hadv.at_r
                  (by rw [hadv.phase]; exact hb)
                exact absurd hposb hold
              · exact hz
  | read => exact hu
  | reset => exact absurd hg (by simp [faultless])
  | ticked => exact ⟨hu.none_failing, hu.empty⟩

/-! ## Every run -/

/-- The invariants of every run. -/
structure Accounting (S : ℤ) (h : List Output) (s : State) : Prop where
  conserved : Conserved S s
  tally : Tally h s
  undisturbed : NoEmitFailed h → Undisturbed s

theorem accounting_of_reaches {redis : Redis} (hS : 0 ≤ redis.stock) {h : List Output} {s : State}
    (hr : (product.restrict faultless).Reaches (State.start redis) h s) :
    Accounting redis.stock h s := by
  refine hr.invariant (I := Accounting redis.stock) ?_ ?_
  · obtain ⟨hbalance, hpresent⟩ := balance_start redis
    exact ⟨⟨hS, hbalance, hpresent⟩, ⟨rfl, by simp [checkedRequests], List.nodup_nil⟩,
      fun _ => ⟨rfl, fun hpos => absurd hpos (by simp [State.refused, count_start])⟩⟩
  · rintro h s a s' out - ⟨hc, ht, hu⟩ hstep
    obtain ⟨hg, hstep⟩ := Machine.restrict_step.mp hstep
    exact ⟨hc.step hg hstep, ht.step hg hstep,
      fun hno => (hu hno.left).step hc hg hno.right hstep⟩

lemma count_eq_zero_of_allEnded {s : State} (hall : s.allEnded) {p : Phase → Bool}
    (hp : ∀ phase : Phase, phase.isEnded = true → p phase = false) : s.count p = 0 := by
  rw [State.count, List.countP_eq_zero]
  intro q hq hc
  exact absurd (hc.symm.trans (hp q.phase (hall q hq))) (by simp)

lemma inFlight_of_allEnded {s : State} (hall : s.allEnded) : s.inFlight = 0 := by
  refine count_eq_zero_of_allEnded hall fun phase hp => ?_
  cases phase <;> first | rfl | exact absurd hp (by simp [Phase.isEnded])

/-- What holds at every point of a run from a stock of `S`. -/
structure InventoryConserved (S : ℤ) (h : List Output) (s : State) : Prop where
  nonneg : 0 ≤ s.redis.stock
  balance : s.redis.stock + s.inFlight + s.succeeded = S
  no_overspend : (s.succeeded : ℤ) ≤ S
  sold : NoEmitFailed h → s.allEnded → (checkedRequests h).Nodup ∧
    (s.succeeded : ℤ) = min S (checkedRequests h).length

/-- **Inventory conservation.**  From any stock, for every interleaving, every outcome of the emits
and every expiry of a lock: the stock is never negative, nothing is lost or made, and so no more
requests succeed than there were units.  If no emit has failed, once all requests have ended as
many have succeeded as the script was run for, or as there were units. -/
theorem inventory_conserved {redis : Redis} (hS : 0 ≤ redis.stock) {h : List Output} {s : State}
    (hr : (product.restrict faultless).Reaches (State.start redis) h s) :
    InventoryConserved redis.stock h s := by
  obtain ⟨hc, ht, hu⟩ := accounting_of_reaches hS hr
  have hbalance := hc.balance
  have hnonneg := hc.nonneg
  refine ⟨hnonneg, hbalance, by omega, fun hno hall => ⟨ht.nodup, ?_⟩⟩
  have hlength := ht.length
  rw [State.count_executed] at hlength
  have hflight := inFlight_of_allEnded hall
  have hundone : s.undone = 0 := by
    have hfailing := (hu hno).none_failing
    rw [State.failing, State.count, List.countP_eq_zero] at hfailing
    rw [State.undone, State.count, List.countP_eq_zero]
    intro q hq hc
    refine hfailing q hq ?_
    cases hp : q.phase <;> simp_all [Phase.undone, Phase.failing]
  rcases Nat.eq_zero_or_pos s.refused with hrefused | hrefused
  · -- nobody was refused: everyone the script was run for has succeeded
    have hall : (checkedRequests h).length = s.succeeded := by omega
    rw [hall, min_eq_right (by omega)]
  · have hempty := (hu hno).empty hrefused
    have hsold : (s.succeeded : ℤ) = redis.stock := by omega
    rw [← hsold, min_eq_left (by omega)]

/-- Two requests for the last unit; the second gets the lock while the first emits. -/
def lastUnit : List Action :=
  [.useItem "a", .useItem "b", .resume 0, .resume 1, .resume 0, .resume 0] ++
    List.replicate 50 .tick ++
    [.resume 1, .resume 1, .resume 1, .getInventory, .resume 0, .resume 1]

theorem inventory_conserved_lastUnit : ∃ s h,
    (product.restrict faultless).run
        (State.start { inventory := some 1, lock := none, now := 0 }) lastUnit = some (s, h) ∧
      s.succeeded = 1 ∧ s.refused = 1 ∧ InventoryConserved 1 h s := by
  have hrun := (rfl : (product.restrict faultless).run
    (State.start { inventory := some 1, lock := none, now := 0 }) lastUnit = some (_, _))
  exact ⟨_, _, hrun, rfl, rfl, inventory_conserved (by decide) (Machine.reaches_of_run hrun)⟩

end RedisApi.Product
