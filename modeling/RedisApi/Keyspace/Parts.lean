import RedisApi.Auth.Positions
import RedisApi.Keyspace.RedisService
import Mathlib.Tactic.Linarith

/-!
# Separate stores on one server

The inventory, the lock, the usernames and the buckets of all addresses are keys of one server.  The
rest of this development keeps them in separate stores, with numbers for counters and sets of bits
for strings.

* `Op` — what the two controllers, the filter and the limiter ask of Redis: on the server
  (`onServer`), and on the separate stores (`onParts`), with the functions that the other modules
  take their steps with.
* `Op.regular` — where the two can be told apart neither by rounding nor by what becomes of a key in
  the very millisecond in which its time is up.
* `Represents` — the key space of the server holds what the stores do.
* `Represents.inventory_written`, `lock_written`, `bits_written`, `bucket_written` — no key serves
  two stores, so writing one leaves the others alone; `Represents.tick` — what expires does so on
  both sides.
-/

namespace RedisApi.Keyspace

open Core EcmaScript RedisServer RateLimiter

/-! ## Separate stores -/

/-- The inventory with its lock, the stores of registration with the bits of the filter, and the
buckets. -/
structure Parts where
  product : Product.Redis
  stores : Auth.Stores
  keys : Keys

/-- What is asked of Redis.  The filter asks for the positions of usernames; the limiter brings
along its `Date.now()`. -/
inductive Op
  | acquireLock (token : Product.Token)
  | releaseLock (token : Product.Token)
  | checkAndDecrement
  | increment
  | getInventory
  | resetInventory
  | setbit (offset : ℤ)
  | getbit (offset : ℤ)
  | leakyBucket (identifier : String) (now : ℕ)
  | tick
  deriving DecidableEq, Repr

/-- The answer; that of `getInventory` is `none` for `NaN`. -/
inductive Reply
  | done
  | token (token : Option Bytes)
  | number (n : ℤ)
  | stock (n : Option ℚ)
  | bit (bit : Bool)
  | bucket (reply : RateLimiter.Reply)
  deriving DecidableEq, Repr

/-- The call that the limiter makes. -/
def bucketCall (identifier : String) (now : ℕ) : Call where
  identifier := identifier
  capacity := capacity
  leakRate := leakRate
  now := now

/-- The call with the bucket that it finds. -/
def Parts.served (p : Parts) (identifier : String) (now : ℕ) : Served where
  call := bucketCall identifier now
  stored :=
    ((p.keys (bucketKey identifier)).filter (Expiry.sharedClock.alive now)).map Key.bucket

/-- The numbers that the script computes for a call, and those that its caller does. -/
def numbers (stored : Option Bucket) (capacity leakRate now : ℚ) : List ℚ :=
  let level := (stored.map Bucket.level).getD 0
  let elapsedMs := now - (stored.map Bucket.lastTime).getD now
  let result := RateLimiter.leakyBucketScript stored capacity leakRate now
  [elapsedMs, elapsedMs / 1000, elapsedMs / 1000 * leakRate, level - elapsedMs / 1000 * leakRate,
    drained stored leakRate now + 1, capacity / leakRate, result.bucket.level * 1000,
    result.level / 1000]

namespace Op

/-- On the server. -/
def onServer {σ : Type} (S : Server σ) (d : Doubles) (uuid : Product.Token → Bytes) :
    Op → Command σ Reply
  | .acquireLock token =>
      RedisService.acquireLock S lockKey Product.lockTtlMs (uuid token) >>= fun r => pure (.token r)
  | .releaseLock token => RedisService.releaseLock S lockKey (uuid token) >>= fun _ => pure .done
  | .checkAndDecrement =>
      RedisService.checkAndDecrement S d inventoryKey Product.initialStock >>=
        fun n => pure (.number n)
  | .increment => RedisService.increment S inventoryKey >>= fun _ => pure .done
  | .getInventory => Keyspace.getInventory S d >>= fun n => pure (.stock n)
  | .resetInventory => Keyspace.resetInventory S d >>= fun _ => pure .done
  | .setbit offset => RedisService.setbit S bloomKey offset true >>= fun bit => pure (.bit bit)
  | .getbit offset => RedisService.getbit S bloomKey offset >>= fun bit => pure (.bit bit)
  | .leakyBucket identifier now =>
      RedisService.leakyBucket S d identifier capacity leakRate now >>= fun r => pure (.bucket r)
  | .tick => fun s => (.ok .done, S.tick s)

/-- On the separate stores. -/
def onParts (uuid : Product.Token → Bytes) (p : Parts) : Op → Reply × Parts
  | .acquireLock token =>
      let (redis, r) := p.product.acquireLock token Product.lockTtlMs
      (.token (r.map uuid), { p with product := redis })
  | .releaseLock token => (.done, { p with product := p.product.releaseLock token })
  | .checkAndDecrement =>
      let (redis, n) := p.product.checkAndDecrement Product.initialStock
      (.number n, { p with product := redis })
  | .increment => (.done, { p with product := p.product.increment })
  | .getInventory => (.stock (some p.product.stock), p)
  | .resetInventory => (.done, { p with product := p.product.set Product.initialStock })
  | .setbit offset =>
      (.bit (p.stores.bits offset),
        { p with stores := p.stores.execute { write := true, offset := offset, status := .sent } })
  | .getbit offset =>
      (.bit (p.stores.bits offset),
        { p with
          stores := p.stores.execute { write := false, offset := offset, status := .sent } })
  | .leakyBucket identifier now =>
      let (keys, served) := RateLimiter.leakyBucket .sharedClock p.keys (bucketCall identifier now)
      (.bucket served.reply, { p with keys := keys })
  | .tick => (.done, { p with product := p.product.tick })

/-- The filter asks for positions of usernames only. -/
def Asked : Op → Prop
  | .setbit offset | .getbit offset => ∃ username, offset ∈ Auth.positions username
  | _ => True

/-- The command does not come in the very millisecond in which the time of its key is up; the
counter and the clock are integers that doubles hold; the clock of the limiter is that of the
server, and the limiter computes nothing that is rounded. -/
def regular {σ : Type} (S : Server σ) (d : Doubles) (s : σ) (p : Parts) : Op → Bool
  | .acquireLock _ | .releaseLock _ => S.settled s lockKey && S.now s < 2 ^ 53
  | .checkAndDecrement | .increment | .getInventory => |p.product.stock| < 2 ^ 53
  | .leakyBucket identifier now =>
      S.settled s (bucketKey identifier) && S.now s < 2 ^ 53 && now = S.now s &&
        d.exact (numbers (p.served identifier now).stored capacity leakRate now)
  | .resetInventory | .setbit _ | .getbit _ | .tick => true

end Op

/-! ## What represents what -/

/-- The string that holds the bits; where there is none, no bit is set. -/
def BitsOf (e : Option Entry) (bits : ℤ → Bool) : Prop :=
  ∃ bytes, (e = some (.lasting bytes) ∨ e = none ∧ bytes = []) ∧
    ∀ p : ℤ, bits p = (decide (0 ≤ p) && getBit bytes p.toNat)

/-- The hash that holds a bucket. -/
def BucketOf (d : Doubles) (e : Entry) (key : Key) : Prop :=
  ∃ fields t, e = { value := .hash fields, expiresAt := some t } ∧
    (fields "level").bind d.tonumber = some key.bucket.level ∧
    (fields "last_time").bind d.tonumber = some key.bucket.lastTime ∧ (t : ℚ) = key.expiresAt

/-- The lock of a holder. -/
def lockEntry (uuid : Product.Token → Bytes) (lock : Product.Lock) : Entry where
  value := .string (uuid lock.token)
  expiresAt := some lock.expiresAt

/-- A counter, which does not expire. -/
def counter (n : ℤ) : Entry := .lasting (decimal n)

/-- **The server holds what the separate stores do**, each in keys of its own. -/
structure Represents {σ : Type} (S : Server σ) (d : Doubles) (uuid : Product.Token → Bytes) (s : σ)
    (p : Parts) : Prop where
  now : S.now s = p.product.now
  inventory : S.entry s inventoryKey = p.product.inventory.map counter
  lock : S.lookup s lockKey = p.product.lock.map (lockEntry uuid)
  bits : BitsOf (S.entry s bloomKey) p.stores.bits
  buckets : ∀ x, Option.Rel (BucketOf d) (S.lookup s (bucketKey x))
    ((p.keys (bucketKey x)).filter (Expiry.sharedClock.alive (S.now s)))

/-- The names of buckets begin as no other name does. -/
lemma bucketKey_ne (x : String) :
    bucketKey x ≠ inventoryKey ∧ bucketKey x ≠ lockKey ∧ bucketKey x ≠ bloomKey := by
  have hfirst : (bucketKey x).toList.take 2 = ['l', 'e'] := by
    simp [bucketKey]
  refine ⟨?_, ?_, ?_⟩ <;>
    · intro heq
      rw [heq] at hfirst
      exact absurd hfirst (by decide)

/-! ## Writing one key -/

section frame

variable {σ : Type} {S : Server σ} {d : Doubles} {uuid : Product.Token → Bytes} {s s' : σ}
  {p : Parts}

/-- A command that leaves its key as it was. -/
lemma Represents.unchanged (h : Represents S d uuid s p) {key : String} {e : Option Entry}
    (hkey : S.entry s key = e) (hwrites : S.Writes s key e s') : Represents S d uuid s' p := by
  have hentry : ∀ key', S.entry s' key' = S.entry s key' := by
    intro key'
    by_cases hne : key' = key
    · rw [hne, hwrites.self, hkey]
    · exact hwrites.others key' hne
  have hlookup : ∀ key', S.lookup s' key' = S.lookup s key' := by
    intro key'
    rw [Server.lookup, Server.lookup, hentry, hwrites.now]
  refine ⟨hwrites.now.trans h.now, ?_, ?_, ?_, ?_⟩
  · rw [hentry]
    exact h.inventory
  · rw [hlookup]
    exact h.lock
  · rw [hentry]
    exact h.bits
  · intro x
    rw [hlookup, hwrites.now]
    exact h.buckets x

lemma Represents.inventory_written (h : Represents S d uuid s p) {n : ℤ}
    (hwrites : S.Writes s inventoryKey (some (counter n)) s') :
    Represents S d uuid s' { p with product := { p.product with inventory := some n } } := by
  refine ⟨hwrites.now.trans h.now, hwrites.self, ?_, ?_, ?_⟩
  · rw [hwrites.lookup_of_ne (by decide)]
    exact h.lock
  · rw [hwrites.others _ (by decide)]
    exact h.bits
  · intro x
    rw [hwrites.lookup_of_ne (bucketKey_ne x).1, hwrites.now]
    exact h.buckets x

lemma Represents.lock_written (h : Represents S d uuid s p) (lock : Option Product.Lock)
    (hlive : ∀ l, lock = some l → S.now s < l.expiresAt)
    (hwrites : S.Writes s lockKey (lock.map (lockEntry uuid)) s') :
    Represents S d uuid s' { p with product := { p.product with lock := lock } } := by
  refine ⟨hwrites.now.trans h.now, ?_, ?_, ?_, ?_⟩
  · rw [hwrites.others _ (by decide)]
    exact h.inventory
  · rw [hwrites.lookup_self]
    cases lock with
    | none => rfl
    | some l => exact Option.filter_some_pos (decide_eq_true (hlive l rfl))
  · rw [hwrites.others _ (by decide)]
    exact h.bits
  · intro x
    rw [hwrites.lookup_of_ne (bucketKey_ne x).2.1, hwrites.now]
    exact h.buckets x

lemma Represents.bits_written (h : Represents S d uuid s p) {e : Option Entry}
    {stores : Auth.Stores} (hbits : BitsOf e stores.bits) (hwrites : S.Writes s bloomKey e s') :
    Represents S d uuid s' { p with stores := stores } := by
  refine ⟨hwrites.now.trans h.now, ?_, ?_, ?_, ?_⟩
  · rw [hwrites.others _ (by decide)]
    exact h.inventory
  · rw [hwrites.lookup_of_ne (by decide)]
    exact h.lock
  · rw [hwrites.self]
    exact hbits
  · intro x
    rw [hwrites.lookup_of_ne (bucketKey_ne x).2.2, hwrites.now]
    exact h.buckets x

/-- A bucket and the hash that holds it expire together. -/
lemma BucketOf.alive_iff {e : Entry} {key : Key} (h : BucketOf d e key) (now : ℕ) :
    e.alive now = true ↔ Expiry.sharedClock.alive now key = true := by
  rcases h with ⟨fields, t, rfl, -, -, ht⟩
  rw [Entry.alive, Expiry.alive, ← ht]
  simp

lemma Represents.bucket_written (h : Represents S d uuid s p) {x : String} {e : Entry} {key : Key}
    (hbucket : BucketOf d e key) (halive : e.alive (S.now s) = true)
    (hwrites : S.Writes s (bucketKey x) (some e) s') :
    Represents S d uuid s' { p with keys := Function.update p.keys (bucketKey x) (some key) } := by
  refine ⟨hwrites.now.trans h.now, ?_, ?_, ?_, ?_⟩
  · rw [hwrites.others _ (bucketKey_ne x).1.symm]
    exact h.inventory
  · rw [hwrites.lookup_of_ne (bucketKey_ne x).2.1.symm]
    exact h.lock
  · rw [hwrites.others _ (bucketKey_ne x).2.2.symm]
    exact h.bits
  · intro y
    rw [hwrites.now]
    by_cases hy : bucketKey y = bucketKey x
    · dsimp only
      rw [hy, hwrites.lookup_self, Function.update_self, Option.filter_some_pos halive,
        Option.filter_some_pos ((hbucket.alive_iff _).mp halive)]
      exact .some hbucket
    · dsimp only
      rw [hwrites.lookup_of_ne hy, Function.update_of_ne hy]
      exact h.buckets y

/-- What is related stays so when both sides are filtered alike. -/
lemma rel_filter {α β : Type*} {R : α → β → Prop} {a : Option α} {b : Option β} {f : α → Bool}
    {g : β → Bool} (h : Option.Rel R a b) (hfg : ∀ x y, R x y → (f x = true ↔ g y = true)) :
    Option.Rel R (a.filter f) (b.filter g) := by
  cases h with
  | none => exact .none
  | @some x y hxy =>
      by_cases hx : f x = true
      · rw [Option.filter_some_pos hx, Option.filter_some_pos ((hfg x y hxy).mp hx)]
        exact .some hxy
      · have hy : ¬ g y = true := fun hc => hx ((hfg x y hxy).mpr hc)
        rw [Option.filter_some_neg (Bool.eq_false_iff.mpr hx),
          Option.filter_some_neg (Bool.eq_false_iff.mpr hy)]
        exact .none

lemma Represents.tick (hS : S.Lawful) (h : Represents S d uuid s p) :
    Represents S d uuid (S.tick s) { p with product := p.product.tick } := by
  refine ⟨(hS.tick_now s).trans (congrArg (· + 1) h.now), ?_, ?_, ?_, ?_⟩
  · rw [hS.entry_tick, h.inventory]
    · rfl
    · intro e he
      rw [h.inventory] at he
      rcases Option.map_eq_some_iff.mp he with ⟨n, -, rfl⟩
      rfl
  · rw [hS.lookup_tick, h.lock, h.now]
    exact Option.filter_map
  · rw [hS.entry_tick]
    · exact h.bits
    · intro e he
      rcases h.bits with ⟨bytes, hbytes | ⟨hnone, -⟩, -⟩
      · rw [hbytes] at he
        rw [← Option.some.inj he]
        rfl
      · rw [hnone] at he
        exact absurd he (by simp)
  · intro x
    rw [hS.lookup_tick, hS.tick_now]
    have hlater := @rel_filter _ _ _ _ _ _ _ (h.buckets x)
      fun e key hbucket => hbucket.alive_iff (S.now s + 1)
    rw [Option.filter_filter] at hlater
    convert hlater using 2
    funext key
    rw [Bool.eq_iff_iff, Bool.and_eq_true]
    refine ⟨fun halive => ⟨?_, halive⟩, fun halive => halive.2⟩
    have hnext : ((S.now s + 1 : ℕ) : ℚ) < key.expiresAt := of_decide_eq_true halive
    push_cast at hnext
    exact decide_eq_true (by linarith)

end frame

end RedisApi.Keyspace
