import RedisApi.Product.UseItem

/-!
# What a request leaves behind

A request decrements at most once and increments at most once, so its net effect on the counter is
decided by which of the two it has done when it ends.  The ledger of a phase says how often it has
done each so far.

Every way out keeps its promise but one.  `releaseLock` stands in a `finally` block around the
decrement only; when it is rejected, its error leaves the handler there, past the `catch` that would
undo the decrement.

* `Phase.Ledger` — the invariant.
* `conforms_iff` — when a request that has ended has had the effect its answer promises.
* `lost_decrement` — one request, whose release is rejected.
-/

namespace RedisApi.Product

open Core

def Phase.isRollingBack : Phase → Bool
  | .rollingBack _ => true
  | _ => false

/-- A rejected call has had no effect, and the compensating `increment` is not rejected. -/
def effectless (s : State) : Action → Bool
  | .reject r => !(s.requests[r]?.any fun q => q.phase.isRollingBack)
  | .rejectEmit _ stored => !stored
  | _ => true

/-! ## What is on record of a request -/

namespace Output

/-- `DECR inventory` on behalf of `r`: the script has not answered `-1`. -/
def isDecrement (r : ℕ) : Output → Bool
  | .checked r' n => r' = r && decide (0 ≤ n)
  | _ => false

/-- `INCR inventory` on behalf of `r`. -/
def isIncrement (r : ℕ) : Output → Bool
  | .incremented r' => r' = r
  | _ => false

def isEvent (r : ℕ) : Output → Bool
  | .emitted r' _ => r' = r
  | _ => false

end Output

def decrements (h : List Output) (r : ℕ) : ℕ := h.countP (Output.isDecrement r)
def increments (h : List Output) (r : ℕ) : ℕ := h.countP (Output.isIncrement r)
def events (h : List Output) (r : ℕ) : ℕ := h.countP (Output.isEvent r)

/-- The increments of request `r` minus its decrements. -/
def netEffect (h : List Output) (r : ℕ) : ℤ := increments h r - decrements h r

/-- What a request's outcome promises about its effect. -/
def Conforms (h : List Output) (r : ℕ) : Outcome → Prop
  | .answer a => if a.success then netEffect h r = -1 ∧ events h r = 1 else netEffect h r = 0
  | .httpException _ _ | .rejected => netEffect h r = 0

/-- The release of request `r` was rejected, after it had decremented. -/
def ReleaseLost (h : List Output) (r : ℕ) : Prop :=
  0 < decrements h r ∧ .releaseRejected r ∈ h

/-! ## The ledger -/

namespace Phase

/-- How often a request in this phase has decremented, unless it has ended with a rejection. -/
def decremented : Phase → ℕ
  | .releasing _ (some n) => if 0 ≤ n then 1 else 0
  | .emitting _ | .rollingBack _ => 1
  | .ended (.answer a) => if a.success then 1 else 0
  | .ended o => if o = .deliveryFailed then 1 else 0
  | _ => 0

def incremented : Phase → ℕ
  | .ended o => if o = .deliveryFailed then 1 else 0
  | _ => 0

def published : Phase → ℕ
  | .ended (.answer a) => if a.success then 1 else 0
  | _ => 0

/-- **The invariant of a request.** -/
def Ledger (h : List Output) (r : ℕ) : Phase → Prop
  | .ended .rejected => increments h r = 0 ∧
      (decrements h r = 0 ∨ (decrements h r = 1 ∧ .releaseRejected r ∈ h))
  | p => .releaseRejected r ∉ h ∧ decrements h r = p.decremented ∧
      increments h r = p.incremented ∧ events h r = p.published

end Phase

lemma decrements_append (h out : List Output) (r : ℕ) :
    decrements (h ++ out) r = decrements h r + decrements out r := List.countP_append

lemma increments_append (h out : List Output) (r : ℕ) :
    increments (h ++ out) r = increments h r + increments out r := List.countP_append

lemma events_append (h out : List Output) (r : ℕ) :
    events (h ++ out) r = events h r + events out r := List.countP_append

@[simp] lemma decrements_cons (o : Output) (out : List Output) (r : ℕ) :
    decrements (o :: out) r = decrements out r + if o.isDecrement r then 1 else 0 :=
  List.countP_cons ..

@[simp] lemma increments_cons (o : Output) (out : List Output) (r : ℕ) :
    increments (o :: out) r = increments out r + if o.isIncrement r then 1 else 0 :=
  List.countP_cons ..

@[simp] lemma events_cons (o : Output) (out : List Output) (r : ℕ) :
    events (o :: out) r = events out r + if o.isEvent r then 1 else 0 :=
  List.countP_cons ..

@[simp] lemma decrements_nil (r : ℕ) : decrements [] r = 0 := rfl
@[simp] lemma increments_nil (r : ℕ) : increments [] r = 0 := rfl
@[simp] lemma events_nil (r : ℕ) : events [] r = 0 := rfl

/-- Nothing that is emitted goes on the ledger of request `r`. -/
def OffRecord (out : List Output) (r : ℕ) : Prop :=
  decrements out r = 0 ∧ increments out r = 0 ∧ events out r = 0 ∧ .releaseRejected r ∉ out

lemma offRecord_of_other {h : List Output} {r : ℕ} (hno : ∀ o ∈ h, o.request ≠ some r) :
    OffRecord h r := by
  refine ⟨?_, ?_, ?_, fun hmem => hno _ hmem rfl⟩
  · refine List.countP_eq_zero.mpr fun o ho => ?_
    cases o <;> simp only [Output.isDecrement, Bool.and_eq_true, decide_eq_true_eq,
      Bool.false_eq_true, not_false_eq_true]
    rintro ⟨rfl, -⟩
    exact hno _ ho rfl
  · refine List.countP_eq_zero.mpr fun o ho => ?_
    cases o <;> simp only [Output.isIncrement, decide_eq_true_eq, Bool.false_eq_true,
      not_false_eq_true]
    rintro rfl
    exact hno _ ho rfl
  · refine List.countP_eq_zero.mpr fun o ho => ?_
    cases o <;> simp only [Output.isEvent, decide_eq_true_eq, Bool.false_eq_true,
      not_false_eq_true]
    rintro rfl
    exact hno _ ho rfl

lemma Phase.ledger_iff {h : List Output} {r : ℕ} {p : Phase} (hp : p ≠ .ended .rejected) :
    p.Ledger h r ↔ .releaseRejected r ∉ h ∧ decrements h r = p.decremented ∧
      increments h r = p.incremented ∧ events h r = p.published := by
  cases p with
  | ended o =>
      cases o with
      | rejected => exact absurd rfl hp
      | _ => exact Iff.rfl
  | _ => exact Iff.rfl

lemma Phase.Ledger.append {h out : List Output} {r : ℕ} (hout : OffRecord out r)
    {p : Phase} (hp : p.Ledger h r) : p.Ledger (h ++ out) r := by
  obtain ⟨hd, hi, he, hl⟩ := hout
  have hmem : .releaseRejected r ∈ h ++ out ↔ .releaseRejected r ∈ h :=
    ⟨fun hc => (List.mem_append.mp hc).resolve_right hl, List.mem_append_left _⟩
  by_cases hrej : p = .ended .rejected
  · subst hrej
    simpa only [Ledger, decrements_append, increments_append, hd, hi, hmem, Nat.add_zero] using hp
  · rw [ledger_iff hrej] at hp ⊢
    simpa only [decrements_append, increments_append, events_append, hd, hi, he, hmem,
      Nat.add_zero] using hp

/-- A transition puts on the ledger by what the phase of the request moves on. -/
def Entered (out : List Output) (r : ℕ) (before after : Phase) : Prop :=
  .releaseRejected r ∉ out ∧ after.decremented = before.decremented + decrements out r ∧
    after.incremented = before.incremented + increments out r ∧
    after.published = before.published + events out r

/-- Or it ends the request with a rejection, which a decrement survives only in the release. -/
def EnteredRejected (out : List Output) (r : ℕ) (before : Phase) : Prop :=
  decrements out r = 0 ∧ before.incremented + increments out r = 0 ∧
    (before.decremented = 0 ∨ before.decremented = 1 ∧ .releaseRejected r ∈ out)

lemma Transition.entered {redis redis' : Redis} {r : ℕ} {q : Request} {a : Action}
    {before after : Phase} {out : List Output}
    (ht : Transition redis r q a before (redis', after, out))
    (hundo : ∀ n, before = .rollingBack n → a ≠ .reject r) :
    (after ≠ .ended .rejected ∧ Entered out r before after) ∨
      (after = .ended .rejected ∧ EnteredRejected out r before) := by
  cases ht with
  | incrementRejected => exact absurd rfl (hundo _ rfl)
  | decremented positive =>
      have hone : 1 ≤ redis.stock := positive
      exact Or.inl ⟨by simp, by simp, by simp [Phase.decremented, Output.isDecrement, hone],
        rfl, rfl⟩
  | refused => exact Or.inl ⟨by simp, by simp, by simp [Phase.decremented, Output.isDecrement],
      rfl, rfl⟩
  | releasedEmpty negative =>
      exact Or.inl ⟨by simp [Outcome.outOfStock], by simp,
        by simp [Phase.decremented, Output.isDecrement, Outcome.outOfStock, not_le.mpr negative],
        rfl, rfl⟩
  | released nonneg =>
      exact Or.inl ⟨by simp, by simp, by simp [Phase.decremented, Output.isDecrement, nonneg],
        rfl, rfl⟩
  | emitted =>
      exact Or.inl ⟨by simp [Outcome.itemUsed], by simp, rfl, rfl,
        by simp [Phase.published, Output.isEvent, Outcome.itemUsed]⟩
  | rolledBack =>
      exact Or.inl ⟨by simp [Outcome.deliveryFailed], by simp, rfl,
        by simp [Phase.incremented, Output.isIncrement], rfl⟩
  | exhausted => exact Or.inl ⟨by simp [Outcome.lockContention], by simp, rfl, rfl, rfl⟩
  | acquireRejected => exact Or.inr ⟨rfl, rfl, rfl, Or.inl rfl⟩
  | releasedRejected => exact Or.inr ⟨rfl, rfl, rfl, Or.inl rfl⟩
  | @releaseRejected token remaining =>
      refine Or.inr ⟨rfl, rfl, rfl, ?_⟩
      cases remaining with
      | none => exact Or.inl rfl
      | some n =>
          rw [Phase.decremented]
          split_ifs
          · exact Or.inr ⟨rfl, by simp⟩
          · exact Or.inl rfl
  | _ => exact Or.inl ⟨by simp, by simp, rfl, rfl, rfl⟩

/-- The ledger of the request that makes a transition. -/
lemma Transition.ledger {h : List Output} {redis redis' : Redis} {r : ℕ} {q : Request} {a : Action}
    {before after : Phase} {out : List Output}
    (ht : Transition redis r q a before (redis', after, out))
    (hundo : ∀ n, before = .rollingBack n → a ≠ .reject r) (hb : before.Ledger h r) :
    after.Ledger (h ++ out) r := by
  have hrun : before ≠ .ended .rejected := by cases ht <;> simp
  obtain ⟨hl, hd, hi, he⟩ := (Phase.ledger_iff hrun).mp hb
  rcases ht.entered hundo with ⟨hne, hl', hd', hi', he'⟩ | ⟨rfl, hd', hi', hlost⟩
  · rw [Phase.ledger_iff hne, decrements_append, increments_append, events_append, List.mem_append]
    exact ⟨fun hc => hc.elim hl hl', by omega, by omega, by omega⟩
  · rw [Phase.Ledger, decrements_append, increments_append, hd', Nat.add_zero, hd]
    refine ⟨by omega, hlost.imp_right ?_⟩
    exact fun hc => ⟨hc.1, List.mem_append_right _ hc.2⟩

/-- Every request's ledger, at every point of every run. -/
theorem ledger_of_reaches {redis : Redis} {h : List Output} {s : State}
    (hr : (product.restrict effectless).Reaches (State.start redis) h s) :
    Known h s ∧ s.AllPhases fun r p => p.Ledger h r := by
  refine hr.invariant (I := fun h s => Known h s ∧ s.AllPhases fun r p => p.Ledger h r) ?_ ?_
  · exact ⟨by simp [Known], allPhases_start _ _⟩
  rintro h s a s' out - ⟨hk, hs⟩ hstep
  obtain ⟨hg, hstep⟩ := Machine.restrict_step.mp hstep
  refine ⟨hk.step hstep, ?_⟩
  cases step_cases hstep with
  | arrived correlationId =>
      have hstarted : ∀ r, OffRecord [.started s.requests.length] r := fun r =>
        ⟨rfl, rfl, rfl, by simp⟩
      refine State.AllPhases.arrival (hs.mono fun r p hp => hp.append (hstarted r)) correlationId ?_
      obtain ⟨hd, hi, he, hl⟩ := offRecord_of_other hk.fresh
      exact Phase.Ledger.append (hstarted _) ⟨hl, hd, hi, he⟩
  | advanced r q before redis after hadv =>
      have hout := hadv.transition.request_eq
      refine hs.advances hadv (fun r' p hne hp => hp.append (offRecord_of_other fun o ho => ?_)) ?_
      · rw [hout o ho]
        exact fun hc => hne (Option.some.inj hc)
      · refine hadv.transition.ledger ?_ (hadv.of_allPhases hs)
        -- the machine does not reject the increment that undoes a decrement
        rintro n rfl rfl
        simp [effectless, hadv.at_r, hadv.phase, Phase.isRollingBack] at hg
  | read => exact hs.mono fun r p hp => hp.append ⟨rfl, rfl, rfl, by simp⟩
  | reset => exact hs.mono fun r p hp => hp.append ⟨rfl, rfl, rfl, by simp⟩
  | ticked => exact hs.mono fun r p hp => hp.append ⟨rfl, rfl, rfl, by simp⟩

/-! ## Requests that have ended -/

/-- **When a request keeps its promise.**  For every interleaving and every pattern of rejected
calls, a request that has ended has had the effect its outcome promises if and only if its release
was not rejected after it had decremented. -/
theorem conforms_iff {redis : Redis} {h : List Output} {s : State}
    (hr : (product.restrict effectless).Reaches (State.start redis) h s)
    {r : ℕ} {q : Request} (hq : s.requests[r]? = some q) {outcome : Outcome}
    (hended : q.phase = .ended outcome) : Conforms h r outcome ↔ ¬ ReleaseLost h r := by
  have hledger := (ledger_of_reaches hr).2 r q hq
  rw [hended] at hledger
  cases outcome with
  | answer a =>
      obtain ⟨hl, hd, hi, he⟩ := hledger
      refine iff_of_true ?_ fun hc => hl hc.2
      have hi0 : increments h r = 0 := by
        simpa [Phase.incremented, Outcome.deliveryFailed] using hi
      simp only [Phase.decremented, Phase.published] at hd he
      cases ha : a.success with
      | true =>
          rw [ha, if_pos rfl] at hd he
          simp [Conforms, ha, netEffect, hd, hi0, he]
      | false =>
          rw [ha, if_neg (by simp)] at hd
          simp [Conforms, ha, netEffect, hd, hi0]
  | httpException status message =>
      obtain ⟨hl, hd, hi, he⟩ := hledger
      refine iff_of_true ?_ fun hc => hl hc.2
      -- the two kinds of 503: both counts are zero, or both are one
      have hsame : increments h r = decrements h r := hi.trans hd.symm
      simp [Conforms, netEffect, hsame]
  | rejected =>
      obtain ⟨hi, hd⟩ := hledger
      rcases hd with hd | ⟨hd, hl⟩
      · refine iff_of_true ?_ fun hc => ?_
        · simp [Conforms, netEffect, hi, hd]
        · exact absurd hc.1 (by rw [hd]; exact Nat.lt_irrefl 0)
      · refine iff_of_false ?_ fun hc => hc ⟨by rw [hd]; exact Nat.one_pos, hl⟩
        simp [Conforms, netEffect, hi, hd]

/-- A request decrements, its emit fails, and it undoes the decrement; another one is refused. -/
def failedEmit : List Action :=
  [.useItem "a", .resume 0, .resume 0, .resume 0, .rejectEmit 0 false, .useItem "b", .resume 1,
    .resume 1, .resume 1, .resume 0]

theorem conforms_iff_failedEmit : ∃ s h q,
    (product.restrict effectless).run
        (State.start { inventory := some 1, lock := none, now := 0 }) failedEmit = some (s, h) ∧
      s.redis.stock = 1 ∧ s.requests[0]? = some q ∧ q.phase = .ended .deliveryFailed ∧
      (Conforms h 0 .deliveryFailed ↔ ¬ ReleaseLost h 0) := by
  have hrun := (rfl : (product.restrict effectless).run
    (State.start { inventory := some 1, lock := none, now := 0 }) failedEmit = some (_, _))
  exact ⟨_, _, _, hrun, rfl, rfl, rfl, conforms_iff (Machine.reaches_of_run hrun) rfl rfl⟩

/-- One request, whose release is rejected. -/
def rejectedRelease : List Action := [.useItem "a", .resume 0, .resume 0, .reject 0]

/-- **A unit is lost**: the request ends with an exception, and the stock is one short. -/
theorem lost_decrement : ∃ s h q,
    (product.restrict effectless).run
        (State.start { inventory := some 10, lock := none, now := 0 }) rejectedRelease
        = some (s, h) ∧
      s.requests[0]? = some q ∧ q.phase = .ended .rejected ∧ s.redis.stock = 9 ∧
      ¬ Conforms h 0 .rejected := by
  have hrun := (rfl : (product.restrict effectless).run
    (State.start { inventory := some 10, lock := none, now := 0 }) rejectedRelease = some (_, _))
  refine ⟨_, _, _, hrun, rfl, rfl, rfl, fun hc => ?_⟩
  exact absurd (show netEffect _ 0 = 0 from hc) (by decide)

end RedisApi.Product
