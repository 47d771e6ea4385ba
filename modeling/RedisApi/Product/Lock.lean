import RedisApi.Product.UseItem

/-!
# The lock

`acquireLock` sets the key only if it is absent, to a token of its own, and with a time to live;
`releaseLock` deletes the key only if it still holds that token.  So the key goes away in two ways
only, and a request that comes late with its release finds a token that is not its own.

The lock excludes only for as long as it lives: what a request knows, from its `SET` to its
release, is that the key holds its token *or* its time is up (`Guarded.held`).  Mutual exclusion is
therefore a statement about runs in which every holder releases in time.

* `Guarded` — the invariant, in terms of what has been emitted.
* `lock_safe` — who removes the key; what the script and the emit come after; who is in the
  critical section.
-/

namespace RedisApi.Product

open Core

/-! ## Statement -/

/-- Request `r` has executed a successful `SET NX`, and not yet the release of that token. -/
def InSection (h : List Output) (r : ℕ) : Prop :=
  ∃ token t, .locked r token t ∈ h ∧ ∀ t', .unlocked r token t' ∉ h

/-- So far every holder has released before its time to live was over, or still can. -/
def ReleasedInTime (h : List Output) (now : ℕ) : Prop :=
  ∀ r token t, .locked r token t ∈ h →
    (∃ t', .unlocked r token t' ∈ h ∧ t' < t + lockTtlMs) ∨ now < t + lockTtlMs

/-- The lock of state `s`, with history `h`, is safe. -/
structure LockSafe (h : List Output) (s : State) : Prop where
  /-- A lock that a step removes has expired, or is released by the attempt whose token it holds;
  no step replaces it. -/
  removed : ∀ a s' out lock, product.step s a = some (s', out) → s.redis.lock = some lock →
    s'.redis.lock ≠ some lock → s'.redis.lock = none ∧
      ((a = .tick ∧ lock.expiresAt ≤ s'.redis.now) ∨
        (a = .resume lock.token.request ∧ ∃ q remaining,
          s.requests[lock.token.request]? = some q ∧ q.phase = .releasing lock.token remaining))
  checked : ∀ r n, .checked r n ∈ h →
    ∃ token t, [.locked r token t, .checked r n].Sublist h
  emitted : ∀ r event, .emitted r event ∈ h →
    ∃ token t, [.unlocked r token t, .emitted r event].Sublist h
  emitFailed : ∀ r stored, .emitFailed r stored ∈ h →
    ∃ token t, [.unlocked r token t, .emitFailed r stored].Sublist h
  exclusive : ReleasedInTime h s.redis.now → ∀ r r', InSection h r → InSection h r' → r = r'

/-! ## The invariant -/

/-- What a request in a phase has done to the lock. -/
def Phase.Locking (h : List Output) (r : ℕ) : Phase → Prop
  | .checking token => token.request = r ∧ ∃ t, .locked r token t ∈ h
  | .releasing token _ => token.request = r
  | .emitting _ => ∃ token t, .unlocked r token t ∈ h
  | _ => True

lemma Phase.Locking.append {h : List Output} {r : ℕ} {p : Phase} (hp : p.Locking h r)
    (out : List Output) : p.Locking (h ++ out) r := by
  cases p with
  | checking token =>
      obtain ⟨hr, t, ht⟩ := hp
      exact ⟨hr, t, List.mem_append_left _ ht⟩
  | emitting n =>
      obtain ⟨token, t, ht⟩ := hp
      exact ⟨token, t, List.mem_append_left _ ht⟩
  | _ => exact hp

/-- **The invariant of the lock.** -/
structure Guarded (h : List Output) (s : State) : Prop where
  owner : ∀ r token t, .locked r token t ∈ h → token.request = r
  held : ∀ r token t, .locked r token t ∈ h → (∀ t', .unlocked r token t' ∉ h) →
    s.redis.lock = some { token := token, expiresAt := t + lockTtlMs } ∨
      t + lockTtlMs ≤ s.redis.now
  phases : s.AllPhases fun r p => p.Locking h r

/-- What a transition does to the lock and to the record of it. -/
structure Transition.Locks (h : List Output) (redis redis' : Redis) (r : ℕ) (after : Phase)
    (out : List Output) : Prop where
  owner : ∀ r' token t, .locked r' token t ∈ out → token.request = r'
  held : ∀ r' token t, .locked r' token t ∈ out →
    redis'.lock = some { token := token, expiresAt := t + lockTtlMs }
  kept : ∀ r' token e, token.request = r' → (∀ t', .unlocked r' token t' ∉ out) →
    redis.lock = some { token := token, expiresAt := e } →
      redis'.lock = some { token := token, expiresAt := e }
  now : redis'.now = redis.now
  phase : after.Locking (h ++ out) r

lemma Redis.releaseLock_of_ne {redis : Redis} {token : Token} {lock : Lock}
    (hl : redis.lock = some lock) (hne : lock.token ≠ token) :
    (redis.releaseLock token).lock = some lock := by
  rw [Redis.releaseLock, hl]
  dsimp only
  rw [if_neg hne, hl]

lemma Transition.locks {h : List Output} {redis redis' : Redis} {r : ℕ} {q : Request} {a : Action}
    {before after : Phase} {out : List Output}
    (ht : Transition redis r q a before (redis', after, out)) (hb : before.Locking h r) :
    Transition.Locks h redis redis' r after out := by
  -- the release of another token leaves the lock alone
  have hrelease : ∀ {token : Token}, token.request = r → .unlocked r token redis.now ∈ out →
      ∀ r' token' e, token'.request = r' → (∀ t', .unlocked r' token' t' ∉ out) →
        redis.lock = some { token := token', expiresAt := e } →
          (redis.releaseLock token).lock = some { token := token', expiresAt := e } := by
    intro token hr hmem r' token' e hr' hno hl
    refine Redis.releaseLock_of_ne hl ?_
    rintro rfl
    rw [hr] at hr'
    subst hr'
    exact hno _ hmem
  cases ht with
  | acquired free =>
      refine ⟨?_, ?_, ?_, rfl, rfl, redis.now, by simp⟩
      · intro r' token t hmem
        obtain ⟨rfl, rfl, -⟩ := Output.locked.inj (List.mem_singleton.mp hmem)
        rfl
      · intro r' token t hmem
        obtain ⟨-, rfl, rfl⟩ := Output.locked.inj (List.mem_singleton.mp hmem)
        rfl
      · intro r' token e _ _ hl
        exact absurd (free.symm.trans hl) (by simp)
  | refused | decremented | checkRejected =>
      exact ⟨by simp, by simp, fun _ _ _ _ _ hl => hl, rfl, hb.1⟩
  | releasedRejected | releasedEmpty =>
      exact ⟨by simp, by simp, hrelease hb (by simp), Redis.releaseLock_now _ _, trivial⟩
  | @released token n nonneg =>
      exact ⟨by simp, by simp, hrelease hb (by simp), Redis.releaseLock_now _ _,
        token, redis.now, by simp⟩
  | _ => exact ⟨by simp, by simp, fun _ _ _ _ _ hl => hl, rfl, trivial⟩

theorem Guarded.step {h : List Output} {s s' : State} {a : Action} {out : List Output}
    (hi : Guarded h s) (hstep : s.step a = some (s', out)) : Guarded (h ++ out) s' := by
  cases step_cases hstep with
  | arrived correlationId =>
      have hphases := hi.phases.mono fun r p hp => hp.append [.started s.requests.length]
      refine ⟨?_, ?_, hphases.arrival correlationId trivial⟩
      · simpa using hi.owner
      · simpa using hi.held
  | advanced r q before redis after hadv =>
      have hlocks := hadv.transition.locks (hadv.of_allPhases hi.phases)
      refine ⟨?_, ?_, hi.phases.advances hadv (fun _ _ _ hp => hp.append out) hlocks.phase⟩
      · intro r' token t hmem
        rcases List.mem_append.mp hmem with hmem | hmem
        · exact hi.owner r' token t hmem
        · exact hlocks.owner r' token t hmem
      · intro r' token t hmem hno
        rw [hadv.redis_eq]
        rcases List.mem_append.mp hmem with hmem | hmem
        · have hheld := hi.held r' token t hmem fun t' hc => hno t' (List.mem_append_left _ hc)
          rcases hheld with hl | hle
          · exact Or.inl (hlocks.kept r' token _ (hi.owner r' token t hmem)
              (fun t' hc => hno t' (List.mem_append_right _ hc)) hl)
          · right
            rw [hlocks.now]
            exact hle
        · exact Or.inl (hlocks.held r' token t hmem)
  | read =>
      have hphases := hi.phases.mono fun r p hp => hp.append [.read s.redis.stock]
      refine ⟨?_, ?_, hphases⟩
      · simpa using hi.owner
      · simpa using hi.held
  | reset =>
      have hphases := hi.phases.mono fun r p hp => hp.append [.reset]
      refine ⟨?_, ?_, hphases⟩
      · simpa using hi.owner
      · simpa using hi.held
  | ticked =>
      rw [List.append_nil]
      refine ⟨hi.owner, fun r token t hmem hno => ?_, hi.phases⟩
      show s.redis.lock.filter _ = _ ∨ t + lockTtlMs ≤ s.redis.now + 1
      rcases hi.held r token t hmem hno with hl | hle
      · rw [hl]
        by_cases hlive : s.redis.now + 1 < t + lockTtlMs
        · exact Or.inl (by simp [Option.filter, hlive])
        · exact Or.inr (Nat.le_of_not_lt hlive)
      · exact Or.inr (Nat.le_succ_of_le hle)

/-! ## Who removes the lock -/

/-- A transition that changes a held lock is the release of the attempt that holds it. -/
lemma Transition.lock_removed {h : List Output} {redis redis' : Redis} {r : ℕ} {q : Request}
    {a : Action} {before after : Phase} {out : List Output} {lock : Lock}
    (ht : Transition redis r q a before (redis', after, out)) (hb : before.Locking h r)
    (hl : redis.lock = some lock) (hchange : redis'.lock ≠ some lock) :
    redis'.lock = none ∧ a = .resume lock.token.request ∧ r = lock.token.request ∧
      ∃ remaining, before = .releasing lock.token remaining := by
  have hrelease : ∀ {token : Token}, (redis.releaseLock token).lock ≠ some lock →
      lock.token = token ∧ (redis.releaseLock token).lock = none := by
    intro token hne
    by_cases htok : lock.token = token
    · refine ⟨htok, ?_⟩
      rw [Redis.releaseLock, hl]
      dsimp only
      rw [if_pos htok]
    · exact absurd (Redis.releaseLock_of_ne hl htok) hne
  cases ht with
  | acquired free => exact absurd (free.symm.trans hl) (by simp)
  | releasedRejected =>
      obtain ⟨rfl, hnone⟩ := hrelease hchange
      exact ⟨hnone, congrArg _ hb.symm, hb.symm, _, rfl⟩
  | releasedEmpty =>
      obtain ⟨rfl, hnone⟩ := hrelease hchange
      exact ⟨hnone, congrArg _ hb.symm, hb.symm, _, rfl⟩
  | released =>
      obtain ⟨rfl, hnone⟩ := hrelease hchange
      exact ⟨hnone, congrArg _ hb.symm, hb.symm, _, rfl⟩
  | _ => exact absurd hl hchange

theorem Guarded.lock_removed {h : List Output} {s s' : State} {a : Action} {out : List Output}
    {lock : Lock} (hi : Guarded h s) (hstep : s.step a = some (s', out))
    (hl : s.redis.lock = some lock) (hchange : s'.redis.lock ≠ some lock) :
    s'.redis.lock = none ∧
      ((a = .tick ∧ lock.expiresAt ≤ s'.redis.now) ∨
        (a = .resume lock.token.request ∧ ∃ q remaining,
          s.requests[lock.token.request]? = some q ∧
            q.phase = .releasing lock.token remaining)) := by
  cases step_cases hstep with
  | arrived correlationId => exact absurd hl hchange
  | advanced r q before redis after hadv =>
      rw [hadv.redis_eq] at hchange ⊢
      obtain ⟨hnone, ha, hr, remaining, hbefore⟩ :=
        hadv.transition.lock_removed (hadv.of_allPhases hi.phases) hl hchange
      exact ⟨hnone, Or.inr ⟨ha, q, remaining, hr ▸ hadv.at_r, hadv.phase.trans hbefore⟩⟩
  | read => exact absurd hl hchange
  | reset => exact absurd hl hchange
  | ticked =>
      have hfilter : s.redis.tick.lock =
          if s.redis.now + 1 < lock.expiresAt then some lock else none := by
        rw [Redis.tick, hl]
        simp [Option.filter]
      by_cases hlive : s.redis.now + 1 < lock.expiresAt
      · rw [if_pos hlive] at hfilter
        exact absurd hfilter hchange
      · rw [if_neg hlive] at hfilter
        exact ⟨hfilter, Or.inl ⟨rfl, Nat.le_of_not_lt hlive⟩⟩

/-! ## What the script and the emit come after -/

/-- Every run of the script comes after a lock of its request, every emit after a release. -/
structure Ordered (h : List Output) : Prop where
  checked : ∀ r n, .checked r n ∈ h →
    ∃ token t, [.locked r token t, .checked r n].Sublist h
  emitted : ∀ r event, .emitted r event ∈ h →
    ∃ token t, [.unlocked r token t, .emitted r event].Sublist h
  emitFailed : ∀ r stored, .emitFailed r stored ∈ h →
    ∃ token t, [.unlocked r token t, .emitFailed r stored].Sublist h

/-- The outputs whose order is at stake, in a transition of request `r`. -/
lemma Transition.ordered {h : List Output} {redis redis' : Redis} {r : ℕ} {q : Request}
    {a : Action} {before after : Phase} {out : List Output}
    (ht : Transition redis r q a before (redis', after, out)) (hb : before.Locking h r) :
    (∀ r' n, .checked r' n ∈ out → ∃ token t, .locked r' token t ∈ h) ∧
    (∀ r' event, .emitted r' event ∈ out → ∃ token t, .unlocked r' token t ∈ h) ∧
    (∀ r' stored, .emitFailed r' stored ∈ out → ∃ token t, .unlocked r' token t ∈ h) := by
  cases ht with
  | @refused token empty =>
      refine ⟨fun r' n hmem => ?_, by simp, by simp⟩
      rw [(Output.checked.inj (List.mem_singleton.mp hmem)).1]
      exact ⟨token, hb.2⟩
  | @decremented token positive =>
      refine ⟨fun r' n hmem => ?_, by simp, by simp⟩
      rw [(Output.checked.inj (List.mem_singleton.mp hmem)).1]
      exact ⟨token, hb.2⟩
  | emitted =>
      refine ⟨by simp, fun r' event hmem => ?_, by simp⟩
      simp only [List.mem_cons, Output.emitted.injEq, reduceCtorEq, List.not_mem_nil,
        or_false] at hmem
      rw [hmem.1]
      exact hb
  | emitRejected =>
      refine ⟨by simp, by simp, fun r' stored hmem => ?_⟩
      rw [(Output.emitFailed.inj (List.mem_singleton.mp hmem)).1]
      exact hb
  | _ => exact ⟨by simp, by simp, by simp⟩

theorem Ordered.step {h : List Output} {s s' : State} {a : Action} {out : List Output}
    (ho : Ordered h) (hi : Guarded h s) (hstep : s.step a = some (s', out)) :
    Ordered (h ++ out) := by
  -- an old output keeps what it came after, a new one comes after all of `h`
  have grow : ∀ {x : Output} {P : Token → ℕ → Output},
      (x ∈ h → ∃ token t, [P token t, x].Sublist h) →
      (x ∈ out → ∃ token t, P token t ∈ h) →
      x ∈ h ++ out → ∃ token t, [P token t, x].Sublist (h ++ out) := by
    intro x P hold hnew hmem
    rcases List.mem_append.mp hmem with hmem | hmem
    · obtain ⟨token, t, hsub⟩ := hold hmem
      exact ⟨token, t, hsub.trans (List.sublist_append_left h out)⟩
    · obtain ⟨token, t, hin⟩ := hnew hmem
      exact ⟨token, t, pair_sublist_append hin hmem⟩
  have hnew : (∀ r n, .checked r n ∈ out → ∃ token t, .locked r token t ∈ h) ∧
      (∀ r event, .emitted r event ∈ out → ∃ token t, .unlocked r token t ∈ h) ∧
      (∀ r stored, .emitFailed r stored ∈ out → ∃ token t, .unlocked r token t ∈ h) := by
    cases step_cases hstep with
    | arrived correlationId => simp
    | advanced r q before redis after hadv =>
        exact hadv.transition.ordered (hadv.of_allPhases hi.phases)
    | read => simp
    | reset => simp
    | ticked => simp
  exact ⟨fun r n => grow (ho.checked r n) (hnew.1 r n),
    fun r event => grow (ho.emitted r event) (hnew.2.1 r event),
    fun r stored => grow (ho.emitFailed r stored) (hnew.2.2 r stored)⟩

/-! ## Every run -/

theorem guarded_of_reaches {inventory : Option ℤ} {now : ℕ} {h : List Output} {s : State}
    (hr : product.Reaches (State.start { inventory := inventory, lock := none, now := now }) h s) :
    Guarded h s ∧ Ordered h := by
  refine hr.invariant (I := fun h s => Guarded h s ∧ Ordered h) ?_ ?_
  · exact ⟨⟨by simp, by simp, allPhases_start _ _⟩, by simp, by simp, by simp⟩
  · rintro h s a s' out - ⟨hi, ho⟩ hstep
    exact ⟨hi.step hstep, ho.step hi hstep⟩

/-- **Lock safety**, for every interleaving of any number of requests, with expiry at any point and
any Redis call rejected. -/
theorem lock_safe {inventory : Option ℤ} {now : ℕ} {h : List Output} {s : State}
    (hr : product.Reaches (State.start { inventory := inventory, lock := none, now := now }) h s) :
    LockSafe h s := by
  obtain ⟨hi, ho⟩ := guarded_of_reaches hr
  refine ⟨fun a s' out lock hstep => hi.lock_removed hstep, ho.checked, ho.emitted, ho.emitFailed,
    ?_⟩
  intro htime r r' ⟨token, t, hin, hno⟩ ⟨token', t', hin', hno'⟩
  -- whoever is in the section in time holds the key
  have holds : ∀ r token t, .locked r token t ∈ h → (∀ t', .unlocked r token t' ∉ h) →
      s.redis.lock = some { token := token, expiresAt := t + lockTtlMs } := by
    intro r token t hin hno
    have hlive : s.redis.now < t + lockTtlMs := by
      rcases htime r token t hin with ⟨t', hun, -⟩ | hlive
      · exact absurd hun (hno t')
      · exact hlive
    rcases hi.held r token t hin hno with hl | hle
    · exact hl
    · omega
  have hsame := (holds r token t hin hno).symm.trans (holds r' token' t' hin' hno')
  rw [Option.some.injEq, Lock.mk.injEq] at hsame
  rw [← hi.owner r token t hin, ← hi.owner r' token' t' hin', hsame.1]

/-- A holder's lock expires before its release; another request acquires it, and the late release
leaves it alone. -/
def lateRelease : List Action :=
  [.useItem "a", .resume 0, .useItem "b"] ++ List.replicate 300 .tick ++
    [.resume 1, .resume 0, .resume 0]

set_option maxRecDepth 8000 in
theorem lock_safe_lateRelease : ∃ s h,
    product.run (State.start { inventory := none, lock := none, now := 0 }) lateRelease
        = some (s, h) ∧
      s.redis.lock = some { token := { request := 1, attempt := 1 }, expiresAt := 600 } ∧
      LockSafe h s := by
  have hrun := (rfl : product.run (State.start { inventory := none, lock := none, now := 0 })
    lateRelease = some (_, _))
  exact ⟨_, _, hrun, rfl, lock_safe (Machine.reaches_of_run hrun)⟩

end RedisApi.Product
