import RedisApi.Core.Meter
import Mathlib.Algebra.Order.Field.Rat
import Mathlib.Data.Rat.Floor
import Mathlib.Logic.Function.Basic
import Mathlib.Tactic.Linarith
import Mathlib.Tactic.Ring

/-!
# The leaky bucket

The rate limiter (`rate-limiter.middleware.ts`) and the script it runs in Redis
(`redis.service.ts`).  Redis runs one script at a time, so the calls of all replicas come in one
order; their timestamps are each replica's own and need not follow it.  Numbers are exact.

* `leakyBucketScript` — `LEAKY_BUCKET_SCRIPT` on what the key of an identifier holds.
* `serve` — the calls, one after another.  A key that has expired is gone (`Expiry`).
* `answers` — the calls that meet in one key; `own_serve`: identifiers do not interfere.
* `drained_eq_reading` — the bucket is a meter.
* `use` — the middleware.
-/

namespace RedisApi.RateLimiter

open Core

/-! ## The script -/

/-- The hash stored for an identifier: what `level` was at `last_time`. -/
structure Bucket where
  level : ℚ
  lastTime : ℚ
  deriving DecidableEq, Repr

/-- The level after `math.max(0, level - (elapsed_ms / 1000) * leak_rate)`; a missing hash is an
empty bucket that has just been looked at. -/
def drained (stored : Option Bucket) (leakRate now : ℚ) : ℚ :=
  let level := (stored.map Bucket.level).getD 0
  let lastTime := (stored.map Bucket.lastTime).getD now
  let elapsedMs := now - lastTime
  max 0 (level - elapsedMs / 1000 * leakRate)

/-- What the script stores (`HSET`, `EXPIRE`) and what it returns. -/
structure ScriptResult where
  bucket : Bucket
  ttl : ℤ
  allowed : ℕ
  level : ℤ
  deriving DecidableEq, Repr

/-- `LEAKY_BUCKET_SCRIPT` -/
def leakyBucketScript (stored : Option Bucket) (capacity leakRate now : ℚ) : ScriptResult :=
  let drainedLevel := drained stored leakRate now
  let (level, allowed) :=
    if drainedLevel + 1 ≤ capacity then (drainedLevel + 1, 1) else (drainedLevel, 0)
  { bucket := { level := level, lastTime := now }
    ttl := ⌈capacity / leakRate⌉ + 1
    allowed := allowed
    level := ⌊level * 1000⌋ }

/-! ## Calls -/

/-- A call of `leakyBucket`; `now` is the `Date.now()` of the replica that makes it. -/
structure Call where
  identifier : String
  capacity : ℚ
  leakRate : ℚ
  now : ℚ
  deriving DecidableEq, Repr

/-- What `leakyBucket` resolves to. -/
structure Reply where
  allowed : Bool
  level : ℚ
  deriving DecidableEq, Repr

/-- A call with the bucket that it found. -/
structure Served where
  call : Call
  stored : Option Bucket
  deriving DecidableEq, Repr

/-- A hash with the time from which on it is gone. -/
structure Key where
  bucket : Bucket
  expiresAt : ℚ
  deriving DecidableEq, Repr

namespace Served

def result (s : Served) : ScriptResult :=
  leakyBucketScript s.stored s.call.capacity s.call.leakRate s.call.now

/-- What the call leaves in Redis. -/
def key (s : Served) : Key where
  bucket := s.result.bucket
  expiresAt := s.call.now + 1000 * s.result.ttl

def reply (s : Served) : Reply where
  allowed := s.result.allowed = 1
  level := s.result.level / 1000

def allowed (s : Served) : Bool := s.reply.allowed

end Served

/-- When keys expire: not during the run, or on the clock that the calls are stamped with. -/
inductive Expiry
  | never
  | sharedClock
  deriving DecidableEq, Repr

def Expiry.alive : Expiry → ℚ → Key → Bool
  | .never, _, _ => true
  | .sharedClock, now, key => now < key.expiresAt

/-- The keys of Redis, by name. -/
abbrev Keys := String → Option Key

/-- The name of an identifier's key. -/
def bucketKey (identifier : String) : String := "leaky_bucket:" ++ identifier

lemma bucketKey_inj {x y : String} : bucketKey x = bucketKey y ↔ x = y :=
  String.append_right_inj _

/-- `RedisService.leakyBucket` -/
def leakyBucket (expiry : Expiry) (keys : Keys) (call : Call) : Keys × Served :=
  let name := bucketKey call.identifier
  let served : Served :=
    { call := call, stored := ((keys name).filter (expiry.alive call.now)).map Key.bucket }
  (Function.update keys name (some served.key), served)

/-- The calls in the order in which Redis runs their scripts. -/
def serve (expiry : Expiry) (keys : Keys) : List Call → List Served
  | [] => []
  | call :: calls =>
      let (keys', served) := leakyBucket expiry keys call
      served :: serve expiry keys' calls

/-! ## The calls of one identifier -/

/-- The calls that meet in one key. -/
def answers (expiry : Expiry) (key : Option Key) : List Call → List Served
  | [] => []
  | call :: calls =>
      let served : Served :=
        { call := call, stored := (key.filter (expiry.alive call.now)).map Key.bucket }
      served :: answers expiry (some served.key) calls

/-- What has been answered to one identifier. -/
def own (identifier : String) (log : List Served) : List Served :=
  log.filter fun s => s.call.identifier = identifier

/-- The calls of one identifier. -/
def callsOf (identifier : String) (calls : List Call) : List Call :=
  calls.filter fun c => c.identifier = identifier

/-- **Identifiers do not interfere.** -/
theorem own_serve {expiry : Expiry} {x : String} {calls : List Call} {keys : Keys} :
    own x (serve expiry keys calls) = answers expiry (keys (bucketKey x)) (callsOf x calls) := by
  induction calls generalizing keys with
  | nil => rfl
  | cons call calls ih =>
      by_cases hx : call.identifier = x
      · subst hx
        simp only [own, serve, leakyBucket, callsOf, List.filter_cons, decide_true, if_true,
          answers] at ih ⊢
        rw [ih, Function.update_self]
      · have hname : bucketKey x ≠ bucketKey call.identifier := by
          intro hc
          exact hx (bucketKey_inj.mp hc).symm
        simp only [own, serve, leakyBucket, callsOf, List.filter_cons, hx, decide_false,
          Bool.false_eq_true, if_false] at ih ⊢
        rw [ih, Function.update_of_ne hname]

@[simp] lemma map_call_answers {expiry : Expiry} {calls : List Call} {key : Option Key} :
    (answers expiry key calls).map Served.call = calls := by
  induction calls generalizing key with
  | nil => rfl
  | cons call calls ih => rw [answers, List.map_cons, ih]

/-! ## One call -/

section served

variable (s : Served)

/-- The level the call finds. -/
def Served.level : ℚ := drained s.stored s.call.leakRate s.call.now

lemma drained_nonneg (stored : Option Bucket) (leakRate now : ℚ) :
    0 ≤ drained stored leakRate now := le_max_left 0 _

@[simp] lemma drained_none (leakRate now : ℚ) : drained none leakRate now = 0 := by
  simp [drained]

lemma drained_some (b : Bucket) (leakRate now : ℚ) : drained (some b) leakRate now =
    max 0 (b.level - (now - b.lastTime) / 1000 * leakRate) := rfl

lemma Served.level_nonneg : 0 ≤ s.level := drained_nonneg _ _ _

lemma Served.allowed_iff : s.allowed = true ↔ s.level + 1 ≤ s.call.capacity := by
  rw [allowed, reply, result, leakyBucketScript, level]
  split_ifs with h <;> simp [h]

/-- **What a call leaves behind**: the level it found, and one more if it is admitted. -/
lemma Served.bucket_eq : s.key.bucket =
    { level := s.level + (if s.allowed then 1 else 0), lastTime := s.call.now } := by
  have hallowed := s.allowed_iff
  rw [key, result, leakyBucketScript]
  by_cases h : s.level + 1 ≤ s.call.capacity
  · rw [if_pos (hallowed.mpr h)]
    rw [level] at h
    simp only [h, if_true]
    rfl
  · rw [if_neg (mt hallowed.mp h)]
    rw [level] at h
    simp only [h, if_false, add_zero]
    rfl

lemma Served.bucket_level : s.key.bucket.level = s.level + (if s.allowed then 1 else 0) := by
  rw [bucket_eq]

lemma Served.bucket_lastTime : s.key.bucket.lastTime = s.call.now := by
  rw [bucket_eq]

lemma Served.expiresAt_eq :
    s.key.expiresAt = s.call.now + 1000 * ((⌈s.call.capacity / s.call.leakRate⌉ + 1 : ℤ) : ℚ) := rfl

end served

/-! ## The bucket as a meter -/

/-- A bucket, with its time counted in requests that leak. -/
def Bucket.gauge (leakRate : ℚ) (b : Bucket) : Gauge ℚ where
  level := b.level
  stamp := b.lastTime / 1000 * leakRate

/-- A call that is admitted pours one request. -/
def Served.pour (s : Served) : Pour ℚ where
  stamp := s.call.now / 1000 * s.call.leakRate
  weight := if s.allowed then 1 else 0

lemma drained_eq_reading (stored : Option Bucket) (leakRate now : ℚ) :
    drained stored leakRate now =
      reading (stored.map (Bucket.gauge leakRate)) (now / 1000 * leakRate) := by
  cases stored with
  | none => simp [reading]
  | some b =>
      have hdrained : b.level - (now - b.lastTime) / 1000 * leakRate =
          b.level - (now / 1000 * leakRate - b.lastTime / 1000 * leakRate) := by ring
      rw [drained_some, hdrained]
      rfl

/-- What a call leaves behind is what it found with its own request poured in. -/
lemma Served.gauge_key (s : Served) : s.key.bucket.gauge s.call.leakRate =
    Core.pour (s.stored.map (Bucket.gauge s.call.leakRate)) s.pour := by
  rw [bucket_eq, level, drained_eq_reading]
  rfl

/-- Without expiry, what a call finds is the meter after the calls before it. -/
lemma gauge_stored {r : ℚ} {calls : List Call} (hrate : ∀ c ∈ calls, c.leakRate = r)
    {key : Option Key} {log : List (Pour ℚ)}
    (hkey : key.map (fun k => k.bucket.gauge r) = fill log) {earlier later : List Served}
    {s : Served} (heq : answers .never key calls = earlier ++ s :: later) :
    s.stored.map (Bucket.gauge r) = fill (log ++ earlier.map Served.pour) := by
  induction calls generalizing key log earlier with
  | nil => exact absurd heq (by simp [answers])
  | cons call calls ih =>
      have hstored : ((key.filter (Expiry.never.alive call.now)).map Key.bucket).map
          (Bucket.gauge r) = fill log := by
        rw [← hkey]
        cases key <;> rfl
      have hcall : call.leakRate = r := hrate call List.mem_cons_self
      rw [answers] at heq
      cases earlier with
      | nil =>
          obtain ⟨rfl, -⟩ := List.cons.inj heq
          rwa [List.map_nil, List.append_nil]
      | cons first earlier =>
          obtain ⟨rfl, hrest⟩ := List.cons.inj heq
          have hnext := Served.gauge_key
            { call := call, stored := (key.filter (Expiry.never.alive call.now)).map Key.bucket }
          rw [List.map_cons, List.append_cons]
          refine ih (fun c hc => hrate c (List.mem_cons_of_mem _ hc)) ?_ hrest
          rw [fill_concat, Option.map_some, ← hstored, ← hcall, hnext]

/-- The level a call finds, from what was admitted before. -/
lemma level_eq_reading {r : ℚ} {calls : List Call} (hrate : ∀ c ∈ calls, c.leakRate = r)
    {earlier later : List Served} {s : Served}
    (heq : answers .never none calls = earlier ++ s :: later) :
    s.level = reading (fill (earlier.map Served.pour)) (s.call.now / 1000 * r) := by
  have hmem : s.call ∈ calls := by
    have hcalls : (answers .never none calls).map Served.call = calls := map_call_answers
    rw [← hcalls, heq]
    simp
  have hgauge : s.stored.map (Bucket.gauge r) = fill ([] ++ earlier.map Served.pour) :=
    gauge_stored hrate rfl heq
  rw [List.nil_append] at hgauge
  rw [Served.level, drained_eq_reading, hrate _ hmem, hgauge]

/-! ## The middleware -/

def capacity : ℚ := 100
def leakRate : ℚ := 50

/-- The middleware passes the request on, or answers it. -/
inductive Handling
  | next
  | json (statusCode : ℕ) (message : String) (level : ℚ)
  deriving DecidableEq, Repr

/-- `RateLimiterMiddleware.use`, for a request with this `req.ip` at this `Date.now()`. -/
def use (expiry : Expiry) (keys : Keys) (ip : Option String) (now : ℚ) : Keys × Handling :=
  let identifier := ip.getD "unknown"
  let (keys', served) := leakyBucket expiry keys
    { identifier := identifier, capacity := capacity, leakRate := leakRate, now := now }
  let reply := served.reply
  (keys', if !reply.allowed then .json 429 "Too Many Requests" reply.level else .next)

end RedisApi.RateLimiter
