import RedisApi.RateLimiter.Capacity

/-!
# The expiry of the bucket's key

The script gives the key the time that a full bucket needs to drain, rounded up to seconds, and one
second more; every call renews it, also one that is refused.  A key that has expired therefore held
a bucket that had drained, and an absent bucket answers as a drained one does.

* `drained_of_expired` — what a key that has expired held.
* `expiry_unobservable` — with and without expiry all calls get the same replies.
-/

namespace RedisApi.RateLimiter

/-! ## One call -/

/-- What the call finds is all that its key and its reply depend on. -/
lemma Served.eq_of_level {s t : Served} (hcall : s.call = t.call) (hlevel : s.level = t.level) :
    s.key = t.key ∧ s.reply = t.reply := by
  have hresult : s.result = t.result := by
    rw [Served.level, Served.level, hcall] at hlevel
    rw [Served.result, Served.result, leakyBucketScript, leakyBucketScript, hcall, hlevel]
  rw [Served.key, Served.key, Served.reply, Served.reply, hresult, hcall]
  exact ⟨rfl, rfl⟩

/-- A key as the calls of an identifier leave it, and in time for the calls that follow. -/
structure Tracked (C r : ℚ) (calls : List Call) (k : Key) : Prop where
  within : Within C k.bucket
  expires : k.expiresAt = k.bucket.lastTime + 1000 * ((⌈C / r⌉ + 1 : ℤ) : ℚ)
  ordered : ∀ c ∈ calls, k.bucket.lastTime ≤ c.now

/-- **A key that has expired held a bucket that had drained**, the instant of the expiry
included. -/
lemma drained_of_expired {C r now : ℚ} (hr : 0 < r) {calls : List Call} {k : Key}
    (hk : Tracked C r calls k) (hgone : k.expiresAt ≤ now) :
    drained (some k.bucket) r now = 0 := by
  have hceil : C / r ≤ ((⌈C / r⌉ : ℤ) : ℚ) := Int.le_ceil _
  have htime : C / r ≤ (now - k.bucket.lastTime) / 1000 := by
    have hexpires := hk.expires
    push_cast at hexpires
    linarith
  have hdrain : C ≤ (now - k.bucket.lastTime) / 1000 * r := (div_le_iff₀ hr).mp htime
  rw [drained_some]
  exact max_eq_left (by linarith [hk.within.2])

/-- What a call finds, whether the key expires or not. -/
lemma drained_alive {C r now : ℚ} (hr : 0 < r) {calls : List Call} {key : Option Key}
    (hkey : ∀ k, key = some k → Tracked C r calls k) :
    drained ((key.filter (Expiry.sharedClock.alive now)).map Key.bucket) r now =
      drained (key.map Key.bucket) r now := by
  cases key with
  | none => rfl
  | some k =>
      rw [Option.filter_some]
      by_cases hlive : now < k.expiresAt
      · rw [if_pos (by simp [Expiry.alive, hlive])]
      · have hgone := drained_of_expired hr (hkey k rfl) (not_lt.mp hlive)
        rw [if_neg (by simp [Expiry.alive, hlive]), Option.map_some, Option.map_none, drained_none,
          hgone]

/-! ## All calls of an identifier -/

/-- A call keeps its key tracked, provided it is in time itself. -/
lemma Served.key_tracked {C r : ℚ} (hC : 1 ≤ C) (hr : 0 < r) {s : Served} {calls : List Call}
    (hcapacity : s.call.capacity = C) (hrate : s.call.leakRate = r)
    (hstored : ∀ b, s.stored = some b → Within C b ∧ b.lastTime ≤ s.call.now)
    (hordered : ∀ c ∈ calls, s.call.now ≤ c.now) : Tracked C r calls s.key := by
  have hin := s.inOrder hC hr hcapacity hrate (fun b hb => (hstored b hb).1)
    fun b hb => Or.inl (hstored b hb).2
  refine ⟨⟨hin.nonneg, hin.le_capacity⟩, ?_, ?_⟩
  · rw [s.expiresAt_eq, hcapacity, hrate, s.bucket_lastTime]
  · rw [s.bucket_lastTime]
    exact hordered

/-- One key: the calls get the same replies with and without expiry. -/
lemma reply_answers {C r : ℚ} (hC : 1 ≤ C) (hr : 0 < r) {calls : List Call}
    (hconfigured : Configured C r calls) (hordered : (calls.map Call.now).Pairwise (· ≤ ·))
    {key : Option Key} (hkey : ∀ k, key = some k → Tracked C r calls k) :
    (answers .sharedClock key calls).map Served.reply =
      (answers .never key calls).map Served.reply := by
  induction calls generalizing key with
  | nil => rfl
  | cons call calls ih =>
      obtain ⟨hcapacity, hrate⟩ := hconfigured call List.mem_cons_self
      rw [List.map_cons, List.pairwise_cons] at hordered
      have hnever : key.filter (Expiry.never.alive call.now) = key := by cases key <;> rfl
      have hsame := Served.eq_of_level
        (s := ⟨call, (key.filter (Expiry.sharedClock.alive call.now)).map Key.bucket⟩)
        (t := ⟨call, key.map Key.bucket⟩) rfl
        (by rw [Served.level, Served.level, hrate]; exact drained_alive hr hkey)
      have htracked : Tracked C r calls (Served.key ⟨call, key.map Key.bucket⟩) := by
        refine Served.key_tracked hC hr hcapacity hrate (fun b hb => ?_) fun c hc => ?_
        · obtain ⟨k, hk, rfl⟩ := Option.map_eq_some_iff.mp hb
          exact ⟨(hkey k hk).within, (hkey k hk).ordered call List.mem_cons_self⟩
        · exact hordered.1 _ (List.mem_map_of_mem hc)
      rw [answers, answers, List.map_cons, List.map_cons, hnever, hsame.1, hsame.2]
      refine congrArg _ (ih hconfigured.tail hordered.2 fun k hk => ?_)
      exact Option.some.inj hk ▸ htracked

/-- **Expiry is unobservable.**  With stamps in order, on the clock that keys expire on: an
identifier that starts without a bucket gets the same replies whether its key expires or not. -/
theorem expiry_unobservable {C r : ℚ} (hC : 1 ≤ C) (hr : 0 < r) {keys : Keys} {calls : List Call}
    {x : String} (hconfigured : Configured C r (callsOf x calls))
    (hordered : ((callsOf x calls).map Call.now).Pairwise (· ≤ ·))
    (hfresh : keys (bucketKey x) = none) :
    (own x (serve .sharedClock keys calls)).map Served.reply =
      (own x (serve .never keys calls)).map Served.reply := by
  rw [own_serve, own_serve, hfresh]
  exact reply_answers hC hr hconfigured hordered (by simp)

/-- The third call comes at the instant at which the key expires, which the second has renewed. -/
theorem expiry_unobservable_boundary :
    (own "a" (serve .sharedClock noKeys [callAt 0, callAt 500, callAt 2500])).map Served.stored =
        [none, some ⟨1, 0⟩, none] ∧
      (own "a" (serve .sharedClock noKeys [callAt 0, callAt 500, callAt 2500])).map Served.reply =
        (own "a" (serve .never noKeys [callAt 0, callAt 500, callAt 2500])).map Served.reply := by
  have hconfigured : Configured 1 1 (callsOf "a" [callAt 0, callAt 500, callAt 2500]) := by
    simp [Configured, callsOf, callAt]
  refine ⟨by decide +kernel, ?_⟩
  exact expiry_unobservable (by decide) (by decide) hconfigured (by decide +kernel) rfl

end RedisApi.RateLimiter
