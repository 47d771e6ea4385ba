import RedisApi.RateLimiter.LeakyBucket

/-!
# The level and the capacity

An admitted request fits by the script's own test.  A refused one stores the level it found, and
that is no more than what was stored before, provided time has not run backwards: a stamp earlier
than the stored one makes the drain negative, and the script clamps the level from below only.

* `InOrder` — what a call should leave behind.
* `Tolerates` — time has not run backwards since the last call, or there is room all the same.
* `inOrder_iff` — the bucket stays in order exactly as long as the calls are tolerated.
* `raised_past_capacity` — two calls, the second with an earlier stamp.
-/

namespace RedisApi.RateLimiter

/-! ## One call -/

/-- The level is within the capacity, and refusing has not raised it. -/
structure InOrder (C : ℚ) (s : Served) : Prop where
  nonneg : 0 ≤ s.key.bucket.level
  le_capacity : s.key.bucket.level ≤ C
  refused : s.allowed = false → ∀ b, s.stored = some b → s.key.bucket.level ≤ b.level

/-- The call is stamped no earlier than the bucket it finds, or the level that the backward jump
makes leaves room for one more. -/
def Tolerates (C r : ℚ) (s : Served) : Prop :=
  ∀ b, s.stored = some b → b.lastTime ≤ s.call.now ∨
    b.level + r * (b.lastTime - s.call.now) / 1000 + 1 ≤ C

/-- The calls of an identifier come with one capacity and one rate. -/
def Configured (C r : ℚ) (calls : List Call) : Prop :=
  ∀ c ∈ calls, c.capacity = C ∧ c.leakRate = r

lemma Configured.tail {C r : ℚ} {call : Call} {calls : List Call}
    (hc : Configured C r (call :: calls)) : Configured C r calls :=
  fun c hmem => hc c (List.mem_cons_of_mem _ hmem)

/-- The bucket as it is stored is within the capacity. -/
def Within (C : ℚ) (b : Bucket) : Prop := 0 ≤ b.level ∧ b.level ≤ C

section served

variable {C r : ℚ} {s : Served}

lemma Served.key_within (hcapacity : s.call.capacity = C) (hlevel : s.level ≤ C) :
    Within C s.key.bucket := by
  have hnonneg := s.level_nonneg
  rw [Within, s.bucket_level]
  by_cases hs : s.allowed = true
  · have hfits := s.allowed_iff.mp hs
    rw [hcapacity] at hfits
    rw [if_pos hs]
    exact ⟨by linarith, hfits⟩
  · rw [if_neg hs, add_zero]
    exact ⟨hnonneg, hlevel⟩

lemma Served.level_of_none (hstored : s.stored = none) : s.level = 0 := by
  rw [level, hstored, drained_none]

lemma Served.level_of_some (hrate : s.call.leakRate = r) {b : Bucket}
    (hstored : s.stored = some b) :
    s.level = max 0 (b.level + r * (b.lastTime - s.call.now) / 1000) := by
  rw [level, hstored, drained_some, hrate]
  congr 1
  ring

/-- While time goes forward the level does not rise by itself. -/
lemma Served.level_le (hr : 0 < r) (hrate : s.call.leakRate = r) {b : Bucket}
    (hstored : s.stored = some b) (hb : 0 ≤ b.level) (htime : b.lastTime ≤ s.call.now) :
    s.level ≤ b.level := by
  rw [level_of_some hrate hstored]
  have hdrain : r * (b.lastTime - s.call.now) ≤ 0 :=
    mul_nonpos_of_nonneg_of_nonpos hr.le (sub_nonpos.mpr htime)
  exact max_le hb (by linarith)

/-- **A tolerated call leaves the bucket in order.** -/
lemma Served.inOrder (hC : 1 ≤ C) (hr : 0 < r) (hcapacity : s.call.capacity = C)
    (hrate : s.call.leakRate = r) (hwithin : ∀ b, s.stored = some b → Within C b)
    (htolerates : Tolerates C r s) : InOrder C s := by
  have hallowed := s.allowed_iff
  rw [hcapacity] at hallowed
  cases hstored : s.stored with
  | none =>
      have hlevel := level_of_none hstored
      have hkey := key_within hcapacity (by rw [hlevel]; linarith)
      exact ⟨hkey.1, hkey.2, fun _ b hb => absurd (hstored.symm.trans hb) (by simp)⟩
  | some b =>
      obtain ⟨hb, hbC⟩ := hwithin b hstored
      rcases htolerates b hstored with htime | hroom
      · have hle := level_le hr hrate hstored hb htime
        have hkey := key_within hcapacity (hle.trans hbC)
        refine ⟨hkey.1, hkey.2, fun hs b' hb' => ?_⟩
        rw [← Option.some.inj (hstored.symm.trans hb'), s.bucket_level, hs]
        simpa using hle
      · have hfits : s.level + 1 ≤ C := by
          rw [level_of_some hrate hstored, ← le_sub_iff_add_le]
          exact max_le (by linarith) (by linarith)
        have hkey := key_within hcapacity (by linarith : s.level ≤ C)
        refine ⟨hkey.1, hkey.2, fun hs => ?_⟩
        rw [hallowed.mpr hfits] at hs
        exact absurd hs (by simp)

/-- **A call that is not tolerated is refused and raises the level.** -/
lemma Served.tolerates (hr : 0 < r) (hcapacity : s.call.capacity = C)
    (hrate : s.call.leakRate = r) (hs : InOrder C s) : Tolerates C r s := by
  intro b hstored
  by_contra hc
  rw [not_or, not_le, not_le] at hc
  obtain ⟨hback, hfull⟩ := hc
  have hraise : 0 < r * (b.lastTime - s.call.now) := mul_pos hr (sub_pos.mpr hback)
  have hlevel : b.level + r * (b.lastTime - s.call.now) / 1000 ≤ s.level := by
    rw [level_of_some hrate hstored]
    exact le_max_right _ _
  have hrefused : s.allowed = false := by
    rw [← Bool.not_eq_true, s.allowed_iff, hcapacity]
    linarith
  have hle := hs.refused hrefused b hstored
  rw [s.bucket_level, hrefused, if_neg (by simp)] at hle
  linarith

end served

/-! ## All calls of an identifier -/

/-- One key: as long as the calls are tolerated, the bucket stays in order. -/
lemma inOrder_answers {C r : ℚ} (hC : 1 ≤ C) (hr : 0 < r) {expiry : Expiry} {calls : List Call}
    (hconfigured : Configured C r calls) {key : Option Key}
    (hkey : ∀ k, key = some k → Within C k.bucket)
    (htolerates : ∀ s ∈ answers expiry key calls, Tolerates C r s) :
    ∀ s ∈ answers expiry key calls, InOrder C s := by
  induction calls generalizing key with
  | nil => simp [answers]
  | cons call calls ih =>
      intro s hs
      obtain ⟨hcapacity, hrate⟩ := hconfigured call List.mem_cons_self
      rw [answers, List.forall_mem_cons] at htolerates
      have hfirst := Served.inOrder hC hr hcapacity hrate (fun b hb => by
        obtain ⟨k, hk, rfl⟩ := Option.map_eq_some_iff.mp hb
        exact hkey k (Option.filter_eq_some_iff.mp hk).1) htolerates.1
      rw [answers, List.mem_cons] at hs
      rcases hs with rfl | hs
      · exact hfirst
      · refine ih hconfigured.tail (fun k hk => ?_) htolerates.2 s hs
        exact Option.some.inj hk ▸ ⟨hfirst.nonneg, hfirst.le_capacity⟩

/-- An identifier's calls, as they are served, come with its capacity and rate. -/
lemma Configured.of_mem_own {C r : ℚ} {expiry : Expiry} {keys : Keys} {calls : List Call}
    {x : String} (hc : Configured C r (callsOf x calls)) {s : Served}
    (hs : s ∈ own x (serve expiry keys calls)) : s.call.capacity = C ∧ s.call.leakRate = r := by
  have hmem := List.mem_map_of_mem (f := Served.call) hs
  rw [own_serve, map_call_answers] at hmem
  exact hc _ hmem

/-- **When the bucket stays in order.**  For every sequence of calls with any timestamps, the calls
of others in between: the calls of an identifier that starts without a bucket all keep the level
within the capacity, and no refusal raises it, if and only if each of them is tolerated. -/
theorem inOrder_iff {C r : ℚ} (hC : 1 ≤ C) (hr : 0 < r) {expiry : Expiry} {keys : Keys}
    {calls : List Call} {x : String} (hconfigured : Configured C r (callsOf x calls))
    (hfresh : keys (bucketKey x) = none) :
    (∀ s ∈ own x (serve expiry keys calls), InOrder C s) ↔
      ∀ s ∈ own x (serve expiry keys calls), Tolerates C r s := by
  constructor
  · intro hin s hs
    obtain ⟨hcapacity, hrate⟩ := hconfigured.of_mem_own hs
    exact Served.tolerates hr hcapacity hrate (hin s hs)
  · intro htolerates
    rw [own_serve, hfresh] at htolerates ⊢
    exact inOrder_answers hC hr hconfigured (by simp) htolerates

/-- Redis before the first call. -/
def noKeys : Keys := fun _ => none

/-- Calls on one identifier, with room for one request that leaks in a second. -/
def callAt (now : ℚ) : Call where
  identifier := "a"
  capacity := 1
  leakRate := 1
  now := now

theorem inOrder_iff_forward : (∀ s ∈ own "a" (serve .never noKeys [callAt 0, callAt 500]),
      InOrder 1 s) ↔
    ∀ s ∈ own "a" (serve .never noKeys [callAt 0, callAt 500]), Tolerates 1 1 s :=
  inOrder_iff (by decide) (by decide) (by simp [Configured, callsOf, callAt]) rfl

/-- **A refusal that raises the level**: the second call is stamped a second earlier; it is refused,
and leaves a level of two where one is the capacity. -/
theorem raised_past_capacity : ∃ s ∈ own "a" (serve .never noKeys [callAt 1000, callAt 0]),
    s.stored = some { level := 1, lastTime := 1000 } ∧ s.allowed = false ∧
      s.key.bucket = { level := 2, lastTime := 0 } ∧ ¬ InOrder 1 s := by
  refine ⟨⟨callAt 0, some ⟨1, 1000⟩⟩, by decide +kernel, rfl, by decide +kernel,
    by decide +kernel, fun hc => ?_⟩
  have hle := hc.le_capacity
  revert hle
  decide +kernel

end RedisApi.RateLimiter
