import RedisApi.Core.RedisServer
import RedisApi.Product.UseItem
import RedisApi.RateLimiter.LeakyBucket
import Mathlib.Data.List.TakeWhile

/-!
# The commands behind `RedisService`

`redis.service.ts` down to the commands that reach the server: which command on which key, with
which options, and the three scripts line by line.  The server is a parameter, and so are the
numbers that Lua and JavaScript compute in (`Doubles`) and what `randomUUID()` returns.

* `releaseLockScript`, `checkAndDecrementScript`, `leakyBucketScript` — the scripts.
* `RedisService` — the functions that the controllers and services call.
-/

namespace RedisApi.Keyspace

open Core RedisServer

/-! ## Numbers and strings -/

/-- Double-precision numbers: what becomes of the exact result of an operation (`round`), and how
Lua and JavaScript read and write them.  Integers up to 2 ^ 53 are exact, and Redis writes the
numbers of a script such that Lua reads them back. -/
structure Doubles where
  round : ℚ → ℚ
  tonumber : Bytes → Option ℚ
  /-- What a script hands on to a command for a number. -/
  argument : ℚ → Bytes
  /-- `String(n)`, which `ioredis` sends for a number as well. -/
  string : ℚ → Bytes
  round_int : ∀ n : ℤ, |n| ≤ 2 ^ 53 → round n = n
  tonumber_argument : ∀ q, round q = q → tonumber (argument q) = some q
  tonumber_decimal : ∀ n : ℤ, |n| ≤ 2 ^ 53 → tonumber (decimal n) = some (n : ℚ)
  string_int : ∀ n : ℤ, |n| ≤ 2 ^ 53 → string n = decimal n

namespace Doubles

variable (d : Doubles)

/-- Numbers that are not rounded. -/
def exact (qs : List ℚ) : Bool := qs.all fun q => d.round q = q

/-- An integer that a script has got from a command and returns. -/
def integer (n : ℤ) : ℤ := ⌊d.round n⌋

/-- An operand of a script, which does not get beyond `nil`. -/
def operand {σ : Type} (bytes : Bytes) : Command σ ℚ :=
  match d.tonumber bytes with
  | none => Command.fail "ERR Error running script"
  | some q => pure q

/-- `parseInt(value, 10)` of a string without leading blanks; `none` is `NaN`. -/
def parseInt (value : Bytes) : Option ℚ :=
  let minus := value.head? = some 0x2D
  let rest := if minus ∨ value.head? = some 0x2B then value.tail else value
  match (rest.takeWhile fun b => (digitOf b).isSome).mapM digitOf with
  | none | some [] => none
  | some digits =>
      let n : ℕ := Nat.ofDigits 10 digits.reverse
      some (d.round (if minus then -n else n))

end Doubles

/-! ## Scripts -/

section scripts

variable {σ : Type} (S : Server σ) (d : Doubles)

/-- `RELEASE_LOCK_SCRIPT` -/
def releaseLockScript (key : String) (token : Bytes) : Command σ ℕ := do
  let held ← S.get key
  if held = some token then S.del key else return 0

/-- `CHECK_AND_DECREMENT_SCRIPT` -/
def checkAndDecrementScript (key : String) (initialValue : Bytes) : Command σ ℤ := do
  let stored ← S.get key
  let val ← match stored with
    | none => S.set key initialValue >>= fun _ => pure initialValue
    | some val => pure val
  let n ← d.operand val
  if n ≤ 0 then return -1 else do
    let remaining ← S.incrBy key (-1)
    return d.integer remaining

/-- `LEAKY_BUCKET_SCRIPT` -/
def leakyBucketScript (key : String) (capacity leakRate now : Bytes) : Command σ (ℕ × ℤ) := do
  let vals ← S.hmget key ["level", "last_time"]
  let capacity ← d.operand capacity
  let leakRate ← d.operand leakRate
  let now ← d.operand now
  let level := ((vals.getD 0 none).bind d.tonumber).getD 0
  let lastTime := ((vals.getD 1 none).bind d.tonumber).getD now
  let elapsedMs := d.round (now - lastTime)
  let level := max 0 (d.round (level - d.round (d.round (elapsedMs / 1000) * leakRate)))
  let next := d.round (level + 1)
  let (level, allowed) := if next ≤ capacity then (next, 1) else (level, 0)
  let ttl := ⌈d.round (capacity / leakRate)⌉ + 1
  let _ ← S.hset key [("level", d.argument level), ("last_time", d.argument now)]
  let _ ← S.expire key ttl
  return (allowed, ⌊d.round (level * 1000)⌋)

end scripts

/-! ## The service -/

namespace RedisService

variable {σ : Type} (S : Server σ) (d : Doubles)

/-- The token, if the key was absent. -/
def acquireLock (resource : String) (ttlMs : ℕ) (token : Bytes) : Command σ (Option Bytes) := do
  let acquired ← S.setPxNx resource token ttlMs
  return if acquired then some token else none

def releaseLock (resource : String) (token : Bytes) : Command σ Unit := do
  let _ ← releaseLockScript S resource token
  return ()

def increment (key : String) : Command σ Unit := do
  let _ ← S.incrBy key 1
  return ()

def checkAndDecrement (key : String) (initialValue : ℤ) : Command σ ℤ :=
  checkAndDecrementScript S d key (d.string initialValue)

/-- Without the optional `ttl`, which no caller passes. -/
def set (key : String) (value : Bytes) : Command σ Unit := S.set key value

def get (key : String) : Command σ (Option Bytes) := S.get key

def setbit (key : String) (offset : ℤ) (value : Bool) : Command σ Bool := S.setbit key offset value

def getbit (key : String) (offset : ℤ) : Command σ Bool := S.getbit key offset

/-- `{ allowed: result[0] === 1, level: result[1] / 1000 }`; `now` is what `Date.now()` returns. -/
def leakyBucket (identifier : String) (capacity leakRate now : ℚ) :
    Command σ RateLimiter.Reply := do
  let result ← leakyBucketScript S d (RateLimiter.bucketKey identifier) (d.string capacity)
    (d.string leakRate) (d.string now)
  return { allowed := result.1 = 1, level := d.round (result.2 / 1000) }

end RedisService

/-! ## Its callers -/

/-- `INVENTORY_KEY` -/
def inventoryKey : String := "inventory"

/-- `LOCK_KEY` -/
def lockKey : String := "lock:inventory"

/-- `BLOOM_KEY` -/
def bloomKey : String := "bloom:usernames"

section callers

variable {σ : Type} (S : Server σ) (d : Doubles)

/-- `getInventory`, up to its answer. -/
def getInventory : Command σ (Option ℚ) := do
  let value ← RedisService.get S inventoryKey
  return match value with
    | some value => d.parseInt value
    | none => some Product.initialStock

/-- `resetInventory`, up to its answer. -/
def resetInventory : Command σ Unit :=
  RedisService.set S inventoryKey (d.string Product.initialStock)

end callers

/-! ## What they find -/

lemma takeWhile_digits {ds : List ℕ} (hds : ∀ d ∈ ds, d < 10) :
    (ds.map digit).takeWhile (fun b => (digitOf b).isSome) = ds.map digit := by
  refine List.takeWhile_eq_self_iff.mpr ?_
  intro b hb
  rcases List.mem_map.mp hb with ⟨d, hd, rfl⟩
  rw [digitOf_digit (hds d hd)]
  rfl

/-- The digits of a numeral, read from where they begin. -/
lemma mapM_takeWhile_numeral (n : ℕ) :
    ((((numeral n).map digit).takeWhile fun b => (digitOf b).isSome).mapM digitOf) =
      some (numeral n) := by
  rw [takeWhile_digits fun d => numeral_lt, mapM_digitOf fun d => numeral_lt]

/-- `parseInt` reads a decimal as the server does, and rounds. -/
lemma Doubles.parseInt_decimal (d : Doubles) (n : ℤ) :
    d.parseInt (decimal n) = some (d.round n) := by
  have hread : ∀ m, ∃ c ds, numeral m = c :: ds ∧ c < 10 ∧
      (((c :: ds).map digit).takeWhile fun b => (digitOf b).isSome).mapM digitOf =
        some (c :: ds) ∧ Nat.ofDigits 10 (c :: ds).reverse = m := by
    intro m
    rcases numeral_eq m with ⟨c, ds, hds, hvalue⟩
    exact ⟨c, ds, hds, numeral_lt (hds ▸ List.mem_cons_self), hds ▸ mapM_takeWhile_numeral m,
      hvalue⟩
  cases n with
  | ofNat n =>
      rcases hread n with ⟨c, ds, hds, hc, hdigits, hvalue⟩
      have hsign : ∀ b : UInt8, b.toNat < 0x30 → ((c :: ds).map digit).head? ≠ some b :=
        fun b hb hhead => digit_ne hc hb (Option.some.inj hhead)
      rw [decimal, hds, Doubles.parseInt]
      dsimp only
      rw [if_neg (not_or.mpr ⟨hsign _ (by decide), hsign _ (by decide)⟩), hdigits]
      dsimp only
      rw [if_neg (hsign _ (by decide)), hvalue]
      rfl
  | negSucc n =>
      rcases hread (n + 1) with ⟨c, ds, hds, -, hdigits, hvalue⟩
      have hminus : (0x2D :: (c :: ds).map digit).head? = some (0x2D : UInt8) := rfl
      rw [decimal, hds, Doubles.parseInt]
      dsimp only
      rw [if_pos (Or.inl hminus), List.tail_cons, hdigits]
      dsimp only
      rw [if_pos hminus, hvalue, Int.cast_negSucc]

lemma Doubles.integer_eq (d : Doubles) {n : ℤ} (hn : |n| ≤ 2 ^ 53) : d.integer n = n := by
  rw [Doubles.integer, d.round_int n hn, Int.floor_intCast]

lemma Doubles.round_of_exact (d : Doubles) {qs : List ℚ} (h : d.exact qs = true) {q : ℚ}
    (hq : q ∈ qs) : d.round q = q := of_decide_eq_true (List.all_eq_true.mp h q hq)

/-- An operand that the caller has written. -/
lemma Doubles.operand_string {σ : Type} (d : Doubles) {n : ℤ} (hn : |n| ≤ 2 ^ 53) :
    (d.operand (d.string n) : Command σ ℚ) = pure (n : ℚ) := by
  rw [Doubles.operand, d.string_int n hn, d.tonumber_decimal n hn]

end RedisApi.Keyspace
