import RedisApi.Product.UseItem

/-!
# Turned away

A request that never gets the lock gives up after five attempts, with a 503.  The lock of a holder
that has crashed goes away by itself after `LOCK_TTL_MS`, and the back-off is longer than that: so a
single stale lock turns nobody away.

* `Redis.LockLive` — a lock that is set has some time to live, at most `LOCK_TTL_MS`.
* `Phase.Waited` — how long a request has been waiting in its attempt `n`, and whom it has seen
  holding the lock in its fourth and fifth.
* `LockedOnce` — a request acquires the lock once at most, so whom it has seen are two.
* `lock_contention` — a request that is turned away has waited for 1550 ms, has seen two others
  acquire the lock meanwhile, and has done nothing.
-/

namespace RedisApi.Product

open Core

/-! ## The lock lives -/

/-- A lock that is set has some time to live, at most `lockTtlMs`. -/
def Redis.LockLive (redis : Redis) : Prop :=
  ∀ lock, redis.lock = some lock →
    redis.now < lock.expiresAt ∧ lock.expiresAt ≤ redis.now + lockTtlMs

/-- What a transition does to the lock. -/
inductive Transition.LockStep (redis redis' : Redis) (r : ℕ) (out : List Output) : Prop
  | kept (lock : redis'.lock = redis.lock)
  | removed (lock : redis'.lock = none)
  | acquired (attempt : ℕ)
      (lock : redis'.lock = some ⟨⟨r, attempt⟩, redis.now + lockTtlMs⟩)
      (recorded : .locked r ⟨r, attempt⟩ redis.now ∈ out)

lemma Redis.releaseLock_lock (redis : Redis) (token : Token) :
    (redis.releaseLock token).lock = redis.lock ∨ (redis.releaseLock token).lock = none := by
  rw [Redis.releaseLock]
  cases hl : redis.lock with
  | none => exact Or.inr hl
  | some lock =>
      dsimp only
      split_ifs
      · exact Or.inr rfl
      · exact Or.inl hl

lemma Transition.lockStep {redis redis' : Redis} {r : ℕ} {q : Request} {a : Action}
    {before after : Phase} {out : List Output}
    (ht : Transition redis r q a before (redis', after, out)) :
    redis'.now = redis.now ∧ Transition.LockStep redis redis' r out := by
  have hrelease : ∀ token, Transition.LockStep redis (redis.releaseLock token) r out := by
    intro token
    rcases redis.releaseLock_lock token with hl | hl
    · exact .kept hl
    · exact .removed hl
  cases ht with
  | @acquired attempt free => exact ⟨rfl, .acquired attempt rfl (by simp)⟩
  | releasedRejected | releasedEmpty | released => exact ⟨Redis.releaseLock_now _ _, hrelease _⟩
  | _ => exact ⟨rfl, .kept rfl⟩

/-- A lock that is still there after a millisecond was there before. -/
lemma Redis.tick_lock {redis : Redis} {lock : Lock} (hl : redis.tick.lock = some lock) :
    redis.lock = some lock ∧ redis.now + 1 < lock.expiresAt := by
  rcases Option.filter_eq_some_iff.mp hl with ⟨hbefore, hlive⟩
  exact ⟨hbefore, of_decide_eq_true hlive⟩

lemma lockLive_of_step {s s' : State} {a : Action} {out : List Output} (hs : s.redis.LockLive)
    (hstep : s.step a = some (s', out)) : s'.redis.LockLive := by
  cases step_cases hstep with
  | advanced r q before redis after hadv =>
      rcases hadv.transition.lockStep with ⟨hnow, hlock⟩
      intro lock hl
      rw [hadv.redis_eq] at hl ⊢
      rw [hnow]
      cases hlock with
      | kept hkept => exact hs lock (hkept.symm.trans hl)
      | removed hnone => exact absurd (hnone.symm.trans hl) (by simp)
      | acquired attempt hnew =>
          rw [hnew, Option.some.injEq] at hl
          subst hl
          simp [lockTtlMs]
  | ticked =>
      intro lock hl
      rcases Redis.tick_lock hl with ⟨hbefore, hlive⟩
      have hbounds := hs lock hbefore
      refine ⟨hlive, ?_⟩
      simp only [Redis.tick]
      omega
  | _ => exact hs

/-! ## Waiting -/

/-- Request `r` has only arrived. -/
def OnlyStarted (h : List Output) (r : ℕ) : Prop := ∀ o ∈ h, o.request = some r → o = .started r

/-- Another request acquired the lock 400 ms before the time `n`, or earlier. -/
def OneOther (h : List Output) (r n : ℕ) : Prop :=
  ∃ r₁ token₁ n₁, r₁ ≠ r ∧ .locked r₁ token₁ n₁ ∈ h ∧ n₁ + 400 ≤ n

/-- The lock has been acquired twice by others, the second time 100 ms after the first or later. -/
def HeldTwice (h : List Output) (r : ℕ) : Prop :=
  ∃ r₁ token₁ n₁ r₂ token₂ n₂, r₁ ≠ r ∧ r₂ ≠ r ∧ .locked r₁ token₁ n₁ ∈ h ∧
    .locked r₂ token₂ n₂ ∈ h ∧ n₁ + 100 ≤ n₂

/-- What is true of a request that arrived after the time `t₀` and has not had the lock. -/
def Phase.Waited (h : List Output) (t₀ now r : ℕ) : Phase → Prop
  | .acquiring attempt =>
      OnlyStarted h r ∧ 1 ≤ attempt ∧ attempt ≤ lockRetryCount ∧
        t₀ + lockRetryMs * (2 ^ (attempt - 1) - 1) ≤ now ∧ (attempt = 5 → OneOther h r now)
  | .backoff attempt wakeAt =>
      OnlyStarted h r ∧ 1 ≤ attempt ∧ attempt ≤ lockRetryCount ∧
        t₀ + lockRetryMs * (2 ^ attempt - 1) ≤ wakeAt ∧
        (attempt = 4 → OneOther h r wakeAt) ∧ (attempt = 5 → HeldTwice h r)
  | .ended outcome =>
      outcome = .lockContention →
        (∀ o ∈ h, o.request = some r → o = .started r ∨ o = .ended r .lockContention) ∧
          t₀ + 1550 ≤ now ∧ HeldTwice h r
  | _ => True

lemma OnlyStarted.append {h out : List Output} {r : ℕ} (hs : OnlyStarted h r)
    (hout : ∀ o ∈ out, o.request ≠ some r) : OnlyStarted (h ++ out) r := by
  intro o ho hr
  rcases List.mem_append.mp ho with ho | ho
  · exact hs o ho hr
  · exact absurd hr (hout o ho)

lemma OneOther.append {h : List Output} {r n n' : ℕ} (hs : OneOther h r n) (hn : n ≤ n')
    (out : List Output) : OneOther (h ++ out) r n' := by
  rcases hs with ⟨r₁, token₁, n₁, hr, hlocked, hle⟩
  exact ⟨r₁, token₁, n₁, hr, List.mem_append_left _ hlocked, Nat.le_trans hle hn⟩

lemma HeldTwice.append {h : List Output} {r : ℕ} (hs : HeldTwice h r) (out : List Output) :
    HeldTwice (h ++ out) r := by
  rcases hs with ⟨r₁, token₁, n₁, r₂, token₂, n₂, hr₁, hr₂, h₁, h₂, hle⟩
  exact ⟨r₁, token₁, n₁, r₂, token₂, n₂, hr₁, hr₂, List.mem_append_left _ h₁,
    List.mem_append_left _ h₂, hle⟩

/-- What others do, and time that passes, leave it true. -/
lemma Phase.Waited.append {h out : List Output} {t₀ now now' r : ℕ} {p : Phase}
    (hp : p.Waited h t₀ now r) (hout : ∀ o ∈ out, o.request ≠ some r) (hnow : now ≤ now') :
    p.Waited (h ++ out) t₀ now' r := by
  cases p with
  | acquiring attempt =>
      rcases hp with ⟨honly, hfirst, hlast, hclock, hone⟩
      exact ⟨honly.append hout, hfirst, hlast, by omega, fun h5 => (hone h5).append hnow out⟩
  | backoff attempt wakeAt =>
      rcases hp with ⟨honly, hfirst, hlast, hclock, hone, htwo⟩
      exact ⟨honly.append hout, hfirst, hlast, hclock,
        fun h4 => (hone h4).append (Nat.le_refl _) out, fun h5 => (htwo h5).append out⟩
  | ended outcome =>
      intro houtcome
      rcases hp houtcome with ⟨honly, hclock, htwo⟩
      refine ⟨?_, by omega, htwo.append out⟩
      intro o ho hr
      rcases List.mem_append.mp ho with ho | ho
      · exact honly o ho hr
      · exact absurd hr (hout o ho)
  | _ => trivial

/-- **A lock that outlives the time `t₀` by its whole time to live was acquired after it.** -/
def HoldersRecorded (h : List Output) (t₀ : ℕ) (redis : Redis) : Prop :=
  ∀ lock, redis.lock = some lock → t₀ + lockTtlMs < lock.expiresAt →
    ∃ r token n, .locked r token n ∈ h ∧ lock.expiresAt = n + lockTtlMs

/-- The times at which the back-off ends. -/
lemma backoff_total {attempt : ℕ} (hfirst : 1 ≤ attempt) :
    lockRetryMs * (2 ^ (attempt - 1) - 1) + retryDelay attempt =
      lockRetryMs * (2 ^ attempt - 1) := by
  rcases Nat.exists_eq_add_of_le' hfirst with ⟨k, rfl⟩
  have hpos : 0 < 2 ^ k := Nat.two_pow_pos k
  rw [retryDelay, lockRetryMs, Nat.add_sub_cancel, pow_succ]
  omega

section transition

variable {h out : List Output} {redis redis' : Redis} {r t₀ : ℕ} {q : Request} {a : Action}
  {before after : Phase}

/-- An attempt that finds the lock set, 300 ms after the time `t₀` or later: another request has
acquired it since. -/
lemma other_of_held {lock : Lock} (hlive : redis.LockLive) (hrec : HoldersRecorded h t₀ redis)
    (honly : OnlyStarted h r) (held : redis.lock = some lock)
    (hlate : t₀ + lockTtlMs ≤ redis.now) :
    ∃ r₁ token₁ n₁, r₁ ≠ r ∧ .locked r₁ token₁ n₁ ∈ h ∧ n₁ ≤ redis.now ∧
      redis.now < n₁ + lockTtlMs := by
  have hbounds := hlive lock held
  rcases hrec lock held (by omega) with ⟨r₁, token₁, n₁, hmem, hexpires⟩
  refine ⟨r₁, token₁, n₁, ?_, hmem, by omega, by omega⟩
  rintro rfl
  exact absurd (honly _ hmem rfl) (by simp)

lemma Transition.waited (ht : Transition redis r q a before (redis', after, out))
    (hlive : redis.LockLive) (hrec : HoldersRecorded h t₀ redis)
    (hb : before.Waited h t₀ redis.now r) :
    after.Waited (h ++ out) t₀ redis'.now r := by
  cases ht with
  | @contended attempt lock held =>
      rcases hb with ⟨honly, hfirst, hlast, hclock, hone⟩
      have htotal := backoff_total hfirst
      rw [List.append_nil]
      refine ⟨honly, hfirst, hlast, by omega, ?_, ?_⟩
      · rintro rfl
        have hlate : t₀ + lockTtlMs ≤ redis.now := by
          simp only [lockTtlMs, lockRetryMs] at hclock ⊢
          omega
        rcases other_of_held hlive hrec honly held hlate with ⟨r₁, token₁, n₁, hr, hmem, hle, -⟩
        refine ⟨r₁, token₁, n₁, hr, hmem, ?_⟩
        rw [show retryDelay 4 = 400 from rfl]
        omega
      · rintro rfl
        have hlate : t₀ + lockTtlMs ≤ redis.now := by
          simp only [lockTtlMs, lockRetryMs] at hclock ⊢
          omega
        rcases hone rfl with ⟨r₁, token₁, n₁, hr₁, hmem₁, hle₁⟩
        rcases other_of_held hlive hrec honly held hlate with ⟨r₂, token₂, n₂, hr₂, hmem₂, -, hlt⟩
        refine ⟨r₁, token₁, n₁, r₂, token₂, n₂, hr₁, hr₂, hmem₁, hmem₂, ?_⟩
        simp only [lockTtlMs] at hlt
        omega
  | @woken attempt wakeAt due left =>
      rcases hb with ⟨honly, hfirst, hlast, hclock, hone, htwo⟩
      rw [List.append_nil]
      refine ⟨honly, by omega, left, by simpa using Nat.le_trans hclock due, ?_⟩
      intro h5
      have hother := (hone (by omega)).append due []
      rwa [List.append_nil] at hother
  | @exhausted attempt wakeAt due none_left =>
      rcases hb with ⟨honly, hfirst, hlast, hclock, hone, htwo⟩
      have h5 : attempt = 5 := by
        simp only [lockRetryCount] at hlast none_left
        omega
      subst h5
      intro _
      refine ⟨?_, ?_, (htwo rfl).append _⟩
      · intro o ho hr
        rcases List.mem_append.mp ho with ho | ho
        · exact Or.inl (honly o ho hr)
        · exact Or.inr (List.mem_singleton.mp ho)
      · simp only [lockRetryMs] at hclock
        omega
  | emitted => exact fun hc => absurd hc (by simp [Outcome.itemUsed, Outcome.lockContention])
  | releasedRejected | releasedEmpty | rolledBack | acquireRejected | releaseRejected
  | incrementRejected =>
      exact fun hc => absurd hc (by
        simp [Outcome.outOfStock, Outcome.deliveryFailed, Outcome.lockContention])
  | _ => trivial

end transition

/-! ## Every run -/

/-- **The invariant of a request that arrives after the time `t₀`.** -/
structure Waiting (t₀ r : ℕ) (h : List Output) (s : State) : Prop where
  clock : t₀ ≤ s.redis.now
  live : s.redis.LockLive
  recorded : HoldersRecorded h t₀ s.redis
  absent : s.requests.length ≤ r → ∀ o ∈ h, o.request ≠ some r
  phase : ∀ q, s.requests[r]? = some q → q.phase.Waited h t₀ s.redis.now r

lemma HoldersRecorded.append {h : List Output} {t₀ : ℕ} {redis redis' : Redis}
    (hs : HoldersRecorded h t₀ redis)
    (hlock : ∀ lock, redis'.lock = some lock → redis.lock = some lock) (out : List Output) :
    HoldersRecorded (h ++ out) t₀ redis' := by
  intro lock hl hlate
  rcases hs lock (hlock lock hl) hlate with ⟨r, token, n, hmem, hn⟩
  exact ⟨r, token, n, List.mem_append_left _ hmem, hn⟩

lemma HoldersRecorded.transition {h out : List Output} {t₀ r : ℕ} {redis redis' : Redis}
    (hs : HoldersRecorded h t₀ redis) (hstep : Transition.LockStep redis redis' r out) :
    HoldersRecorded (h ++ out) t₀ redis' := by
  cases hstep with
  | kept hkept =>
      refine hs.append ?_ out
      intro lock hl
      exact hkept.symm.trans hl
  | removed hnone =>
      intro lock hl
      exact absurd (hnone.symm.trans hl) (by simp)
  | acquired attempt hnew hmem =>
      intro lock hl _
      rw [hnew, Option.some.injEq] at hl
      subst hl
      exact ⟨r, _, redis.now, List.mem_append_right _ hmem, rfl⟩

/-- A step that no request takes keeps the invariant. -/
lemma Waiting.quiet {t₀ r : ℕ} {h out : List Output} {s s' : State} (hs : Waiting t₀ r h s)
    (hlive : s'.redis.LockLive) (hnow : s.redis.now ≤ s'.redis.now)
    (hlock : ∀ lock, s'.redis.lock = some lock → s.redis.lock = some lock)
    (hrequests : s'.requests = s.requests) (hout : ∀ o ∈ out, o.request ≠ some r) :
    Waiting t₀ r (h ++ out) s' where
  clock := Nat.le_trans hs.clock hnow
  live := hlive
  recorded := hs.recorded.append hlock out
  absent := by
    rw [hrequests]
    intro hr o ho
    rcases List.mem_append.mp ho with ho | ho
    · exact hs.absent hr o ho
    · exact hout o ho
  phase := by
    rw [hrequests]
    intro q hq
    exact (hs.phase q hq).append hout hnow

theorem Waiting.step {t₀ r : ℕ} {h : List Output} {s s' : State} {a : Action} {out : List Output}
    (hs : Waiting t₀ r h s) (hstep : s.step a = some (s', out)) : Waiting t₀ r (h ++ out) s' := by
  have hlive := lockLive_of_step hs.live hstep
  cases step_cases hstep with
  | arrived correlationId =>
      have hother : ∀ o ∈ [Output.started s.requests.length],
          o.request = some s.requests.length := by
        simp [Output.request]
      refine ⟨hs.clock, hlive, hs.recorded.append (fun _ hl => hl) _, ?_, ?_⟩
      · rw [List.length_append, List.length_singleton]
        intro hr o ho
        rcases List.mem_append.mp ho with ho | ho
        · exact hs.absent (by omega) o ho
        · rw [hother o ho]
          simp only [ne_eq, Option.some.injEq]
          omega
      · intro q hq
        rcases Nat.lt_trichotomy r s.requests.length with hr | rfl | hr
        · rw [List.getElem?_append_left hr] at hq
          refine (hs.phase q hq).append ?_ (Nat.le_refl _)
          intro o ho
          rw [hother o ho]
          simp only [ne_eq, Option.some.injEq]
          omega
        · -- it is the one that arrives
          rw [List.getElem?_concat_length, Option.some.injEq] at hq
          subst hq
          refine ⟨?_, Nat.le_refl 1, by decide, by simpa using hs.clock, by simp⟩
          intro o ho hr
          rcases List.mem_append.mp ho with ho | ho
          · exact absurd hr (hs.absent (Nat.le_refl _) o ho)
          · exact List.mem_singleton.mp ho
        · rw [List.getElem?_eq_none (by rw [List.length_append]; exact hr)] at hq
          exact absurd hq (by simp)
  | advanced r' q' before redis after hadv =>
      rcases hadv.transition.lockStep with ⟨hnow, hlock⟩
      have hlength : s'.requests.length = s.requests.length := by simp [hadv.state]
      have hout : r' ≠ r → ∀ o ∈ out, o.request ≠ some r := by
        intro hr o ho
        rw [hadv.transition.request_eq o ho]
        simpa using hr
      refine ⟨?_, hlive, ?_, ?_, ?_⟩
      · rw [hadv.redis_eq, hnow]
        exact hs.clock
      · rw [hadv.redis_eq]
        exact hs.recorded.transition hlock
      · rw [hlength]
        intro hr o ho
        have hlt := (List.getElem?_eq_some_iff.mp hadv.at_r).1
        rcases List.mem_append.mp ho with ho | ho
        · exact hs.absent hr o ho
        · exact hout (by omega) o ho
      · intro q hq
        by_cases hr : r' = r
        · subst hr
          rw [hadv.at_self, Option.some.injEq] at hq
          subst hq
          have hbefore := hs.phase q' hadv.at_r
          rw [hadv.phase] at hbefore
          rw [hadv.redis_eq]
          exact hadv.transition.waited hs.live hs.recorded hbefore
        · rw [hadv.at_other hr] at hq
          rw [hadv.redis_eq, hnow]
          exact (hs.phase q hq).append (hout hr) (Nat.le_refl _)
  | read =>
      exact hs.quiet hlive (Nat.le_refl _) (fun _ hl => hl) rfl (by simp [Output.request])
  | reset =>
      exact hs.quiet hlive (Nat.le_refl _) (fun _ hl => hl) rfl (by simp [Output.request])
  | ticked =>
      exact hs.quiet hlive (Nat.le_succ _) (fun _ hl => (Redis.tick_lock hl).1) rfl (by simp)

lemma waiting_of_reaches {s s' : State} {h : List Output} (hlive : s.redis.LockLive) {r : ℕ}
    (hr : s.requests.length ≤ r) (hreaches : product.Reaches s h s') :
    Waiting s.redis.now r h s' := by
  refine hreaches.invariant (I := Waiting s.redis.now r) ?_ ?_
  · refine ⟨Nat.le_refl _, hlive, ?_, ?_, ?_⟩
    · intro lock hl hlate
      have hbounds := hlive lock hl
      omega
    · intro _ o ho
      exact absurd ho List.not_mem_nil
    · intro q hq
      rw [List.getElem?_eq_none hr] at hq
      exact absurd hq (by simp)
  · rintro h s a s' out - hs hstep
    exact hs.step hstep

/-! ## Acquiring once -/

/-- The request has not acquired the lock. -/
def NotLocked (h : List Output) (r : ℕ) : Prop := ∀ token n, .locked r token n ∉ h

/-- Before the lock. -/
def Phase.isWaiting : Phase → Bool
  | .acquiring _ | .backoff _ _ => true
  | _ => false

/-- **A request acquires the lock once at most.** -/
structure LockedOnce (h : List Output) (s : State) : Prop where
  once : ∀ r token n token' n', .locked r token n ∈ h → .locked r token' n' ∈ h → n = n'
  waiting : s.AllPhases fun r p => p.isWaiting = true → NotLocked h r
  absent : ∀ r, s.requests.length ≤ r → NotLocked h r

lemma NotLocked.append {h out : List Output} {r : ℕ} (hh : NotLocked h r)
    (hout : NotLocked out r) : NotLocked (h ++ out) r := by
  intro token n hmem
  rcases List.mem_append.mp hmem with hmem | hmem
  · exact hh token n hmem
  · exact hout token n hmem

/-- What a transition says of the lock: nothing, and the request that waits afterwards has waited
before; or that a request that waited has acquired it and waits no longer. -/
lemma Transition.locked_cases {redis redis' : Redis} {r : ℕ} {q : Request} {a : Action}
    {before after : Phase} {out : List Output}
    (ht : Transition redis r q a before (redis', after, out)) :
    ((∀ r', NotLocked out r') ∧ (after.isWaiting = true → before.isWaiting = true)) ∨
      (before.isWaiting = true ∧ after.isWaiting = false ∧
        ∃ token, out = [.locked r token redis.now]) := by
  cases ht with
  | acquired => exact Or.inr ⟨rfl, rfl, _, rfl⟩
  | contended | woken => exact Or.inl ⟨fun r' token n hmem => by simp at hmem, fun _ => rfl⟩
  | _ =>
      refine Or.inl ⟨fun r' token n hmem => by simp at hmem, ?_⟩
      intro hwaiting
      exact absurd hwaiting (by simp [Phase.isWaiting])

/-- A step that says nothing of the lock. -/
lemma LockedOnce.quiet {h out : List Output} {s s' : State} (hs : LockedOnce h s)
    (hout : ∀ r, NotLocked out r)
    (hwaiting : s'.AllPhases fun r p => p.isWaiting = true → NotLocked h r)
    (hlength : s.requests.length ≤ s'.requests.length) : LockedOnce (h ++ out) s' where
  once := by
    intro r token n token' n' hmem hmem'
    have hold : ∀ token n, Output.locked r token n ∈ h ++ out → .locked r token n ∈ h := by
      intro token n hmem
      rcases List.mem_append.mp hmem with hmem | hmem
      · exact hmem
      · exact absurd hmem (hout r token n)
    exact hs.once r token n token' n' (hold _ _ hmem) (hold _ _ hmem')
  waiting := hwaiting.mono fun r _ hp hw => (hp hw).append (hout r)
  absent := fun r hr => (hs.absent r (Nat.le_trans hlength hr)).append (hout r)

theorem LockedOnce.step {h : List Output} {s s' : State} {a : Action} {out : List Output}
    (hs : LockedOnce h s) (hstep : s.step a = some (s', out)) : LockedOnce (h ++ out) s' := by
  cases step_cases hstep with
  | arrived correlationId =>
      refine hs.quiet (fun r token n hmem => by simp at hmem) ?_ (by simp)
      exact hs.waiting.arrival _ fun _ => hs.absent _ (Nat.le_refl _)
  | advanced r q before redis after hadv =>
      have hlength : s'.requests.length = s.requests.length := by simp [hadv.state]
      have hbefore := hadv.of_allPhases hs.waiting
      rcases hadv.transition.locked_cases with ⟨hout, hkept⟩ | ⟨hwaited, hdone, token, rfl⟩
      · exact hs.quiet hout (hs.waiting.advances hadv (fun _ _ _ hp => hp)
          fun hw => hbefore (hkept hw)) (Nat.le_of_eq hlength.symm)
      · have hnew : NotLocked h r := hbefore hwaited
        have hother : ∀ r', r ≠ r' → NotLocked [.locked r token s.redis.now] r' := by
          intro r' hr token' n' hmem
          exact hr (Output.locked.inj (List.mem_singleton.mp hmem)).1.symm
        refine ⟨?_, ?_, ?_⟩
        · intro r' token₁ n₁ token₂ n₂ hmem₁ hmem₂
          rcases List.mem_append.mp hmem₁ with hold₁ | hnew₁ <;>
            rcases List.mem_append.mp hmem₂ with hold₂ | hnew₂
          · exact hs.once r' token₁ n₁ token₂ n₂ hold₁ hold₂
          · rcases Output.locked.inj (List.mem_singleton.mp hnew₂) with ⟨rfl, -, -⟩
            exact absurd hold₁ (hnew _ _)
          · rcases Output.locked.inj (List.mem_singleton.mp hnew₁) with ⟨rfl, -, -⟩
            exact absurd hold₂ (hnew _ _)
          · rcases Output.locked.inj (List.mem_singleton.mp hnew₁) with ⟨-, -, rfl⟩
            rcases Output.locked.inj (List.mem_singleton.mp hnew₂) with ⟨-, -, rfl⟩
            rfl
        · refine hs.waiting.advances hadv (fun r' _ hr hp hw => (hp hw).append (hother r' hr)) ?_
          intro hw
          exact absurd (hdone.symm.trans hw) (by simp)
        · intro r' hr
          have hlt := (List.getElem?_eq_some_iff.mp hadv.at_r).1
          rw [hlength] at hr
          exact (hs.absent r' hr).append (hother r' (by omega))
  | read | reset =>
      exact hs.quiet (fun r token n hmem => by simp at hmem) hs.waiting (Nat.le_refl _)
  | ticked => exact hs.quiet (fun r token n hmem => by simp at hmem) hs.waiting (Nat.le_refl _)

lemma lockedOnce_of_reaches {redis : Redis} {h : List Output} {s : State}
    (hr : product.Reaches (State.start redis) h s) : LockedOnce h s := by
  refine hr.invariant (I := LockedOnce) ?_ ?_
  · refine ⟨?_, allPhases_start _ _, ?_⟩
    · intro r token n token' n' hmem
      exact absurd hmem List.not_mem_nil
    · intro r _ token n
      exact List.not_mem_nil
  · rintro h s a s' out - hs hstep
    exact hs.step hstep

/-! ## Turned away -/

/-- **Whoever is turned away has been waiting for 1550 ms behind two others.**  From any reachable
state on, whatever happens and fails: a request that arrives and is answered 503 for lock contention
gets this answer no sooner than 1550 ms later; meanwhile two other requests have acquired the lock,
one 100 ms after the other or later, so no single holder turns it away, not even one that never
releases; and the request has had no part in anything else.  A lock that somebody holds at the very
start has the time to live that `acquireLock` gives it, or less. -/
theorem lock_contention {redis : Redis} (hlive : redis.LockLive) {g h : List Output} {s s' : State}
    (hbefore : product.Reaches (State.start redis) g s) (hafter : product.Reaches s h s') {r : ℕ}
    (harrives : s.requests.length ≤ r) {q : Request} (hq : s'.requests[r]? = some q)
    (hended : q.phase = .ended .lockContention) :
    s.redis.now + 1550 ≤ s'.redis.now ∧
      (∃ r₁ token₁ n₁ r₂ token₂ n₂, r₁ ≠ r ∧ r₂ ≠ r ∧ r₁ ≠ r₂ ∧ .locked r₁ token₁ n₁ ∈ h ∧
        .locked r₂ token₂ n₂ ∈ h ∧ n₁ + 100 ≤ n₂) ∧
      ∀ o ∈ h, o.request = some r → o = .started r ∨ o = .ended r .lockContention := by
  have hs : s.redis.LockLive := by
    refine hbefore.stateInvariant (I := fun s => s.redis.LockLive) hlive ?_
    intro s a s' out hs hstep
    exact lockLive_of_step hs hstep
  have hphase := (waiting_of_reaches hs harrives hafter).phase q hq
  rw [hended] at hphase
  rcases hphase rfl with ⟨honly, hclock, r₁, token₁, n₁, r₂, token₂, n₂, hr₁, hr₂, h₁, h₂, hle⟩
  refine ⟨hclock, ⟨r₁, token₁, n₁, r₂, token₂, n₂, hr₁, hr₂, ?_, h₁, h₂, hle⟩, honly⟩
  rintro rfl
  have honce := (lockedOnce_of_reaches (hbefore.trans hafter)).once r₁ token₁ n₁ token₂ n₂
    (List.mem_append_right g h₁) (List.mem_append_right g h₂)
  omega

def ticks (n : ℕ) : List Action := List.replicate n .tick

/-- Request 0 waits while 1, 2 and 3 take the lock one after the other and never release it. -/
def crashedHolders : List Action :=
  [.useItem "0", .useItem "1", .resume 1, .resume 0] ++ ticks 50 ++ [.resume 0, .resume 0] ++
    ticks 100 ++ [.resume 0, .resume 0] ++ ticks 150 ++ [.useItem "2", .resume 2] ++ ticks 50 ++
    [.resume 0, .resume 0] ++ ticks 350 ++ [.useItem "3", .resume 3] ++ ticks 50 ++
    [.resume 0, .resume 0] ++ ticks 800 ++ [.resume 0]

set_option maxRecDepth 10000 in
theorem lock_contention_crashedHolders : ∃ h s',
    product.run (State.start { inventory := none, lock := none, now := 0 }) crashedHolders =
      some (s', h) ∧ s'.redis.now = 1550 ∧ 0 + 1550 ≤ s'.redis.now ∧
      (∃ r₁ token₁ n₁ r₂ token₂ n₂, r₁ ≠ 0 ∧ r₂ ≠ 0 ∧ r₁ ≠ r₂ ∧ .locked r₁ token₁ n₁ ∈ h ∧
        .locked r₂ token₂ n₂ ∈ h ∧ n₁ + 100 ≤ n₂) ∧
      ∀ o ∈ h, o.request = some 0 → o = .started 0 ∨ o = .ended 0 .lockContention := by
  have hruns : ((product.run (State.start { inventory := none, lock := none, now := 0 })
      crashedHolders).any fun r => decide (r.1.redis.now = 1550 ∧
        r.1.requests[0]? = some ⟨"0", .ended .lockContention⟩)) = true := by
    decide +kernel
  rcases (Option.any_eq_true _ _).mp hruns with ⟨⟨s', h⟩, hrun, hend⟩
  rcases of_decide_eq_true hend with ⟨hnow, hq⟩
  exact ⟨h, s', hrun, hnow, lock_contention (s := State.start ⟨none, none, 0⟩)
    (by simp [Redis.LockLive]) Machine.Reaches.refl (Machine.reaches_of_run hrun)
    (Nat.le_refl 0) hq rfl⟩

end RedisApi.Product
