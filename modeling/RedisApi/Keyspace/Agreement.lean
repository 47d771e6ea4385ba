import RedisApi.Keyspace.Parts

/-!
# One command on the server

A server that is lawful answers a command as the separate stores do.  Each command is on one key:
what it finds there is what represents a store, and what it leaves there represents what the store
has become.

* `Agrees` — the server answers as the stores do, and goes on representing them.
* `does_leakyBucketScript` — the script of the limiter, which is the longest of them.
* `Represents.op` — all commands, where they are regular.
-/

namespace RedisApi.Keyspace

open Core EcmaScript RedisServer RateLimiter

section commands

variable {σ : Type} {S : Server σ} {d : Doubles} {uuid : Product.Token → Bytes} {s : σ} {p : Parts}

/-- The server answers as the separate stores do, and goes on representing them. -/
def Agrees (S : Server σ) (d : Doubles) (uuid : Product.Token → Bytes) (s : σ) (p : Parts)
    (op : Op) : Prop :=
  ∃ s', op.onServer S d uuid s = (.ok (op.onParts uuid p).1, s') ∧
    Represents S d uuid s' (op.onParts uuid p).2

/-- A script on one key that answers as the stores do, and writes what they store. -/
lemma agrees_of {α : Type} {op : Op} {m : Command σ α} {f : α → Reply} {key : String} {a : α}
    {e : Option Entry} {p' : Parts}
    (hserver : op.onServer S d uuid = m >>= fun a => pure (f a)) (hm : S.Does m s key a e)
    (hparts : op.onParts uuid p = (f a, p'))
    (hrep : ∀ s', S.Writes s key e s' → Represents S d uuid s' p') : Agrees S d uuid s p op := by
  rcases hm.map f with ⟨s', hrun, hwrites⟩
  refine ⟨s', ?_, ?_⟩
  · rw [hserver, hrun, hparts]
  · rw [hparts]
    exact hrep s' hwrites

/-! ## The lock -/

/-- What a command finds under the key of the lock. -/
lemma Represents.lock_entry (hS : S.Lawful) (h : Represents S d uuid s p)
    (hsettled : S.settled s lockKey = true) :
    S.entry s lockKey = p.product.lock.map (lockEntry uuid) :=
  (hS.entry_eq_lookup hsettled).trans h.lock

lemma Represents.acquireLock (hS : S.Lawful) (h : Represents S d uuid s p)
    {token : Product.Token} (hregular : Op.regular S d s p (.acquireLock token) = true) :
    Agrees S d uuid s p (.acquireLock token) := by
  rcases Bool.and_eq_true_iff.mp hregular with ⟨hsettled, hnow⟩
  have hnow : S.now s + Product.lockTtlMs < 2 ^ 63 := by
    have hlt : S.now s < 2 ^ 53 := of_decide_eq_true hnow
    rw [Product.lockTtlMs]
    omega
  have hentry := h.lock_entry hS hsettled
  cases hlock : p.product.lock with
  | none =>
      rw [hlock] at hentry
      have hset := hS.setPxNx_none (uuid token) hentry (by decide) hnow
      rw [h.now] at hset
      refine agrees_of rfl (hset.map _) ?_ fun s' => h.lock_written
        (some { token := token, expiresAt := p.product.now + Product.lockTtlMs }) ?_
      · rw [Op.onParts, Product.Redis.acquireLock, hlock]
        rfl
      · intro l hl
        rw [← Option.some.inj hl, h.now]
        exact Nat.lt_add_of_pos_right (by decide)
  | some l =>
      rw [hlock] at hentry
      have hset := hS.setPxNx_some (uuid token) hentry (by decide) hnow
      refine agrees_of rfl (hset.map _) ?_ fun s' => h.unchanged hentry
      rw [Op.onParts, Product.Redis.acquireLock, hlock]
      rfl

lemma Represents.releaseLock (hS : S.Lawful) (huuid : Function.Injective uuid)
    (h : Represents S d uuid s p) {token : Product.Token}
    (hregular : Op.regular S d s p (.releaseLock token) = true) :
    Agrees S d uuid s p (.releaseLock token) := by
  rcases Bool.and_eq_true_iff.mp hregular with ⟨hsettled, -⟩
  have hentry := h.lock_entry hS hsettled
  cases hlock : p.product.lock with
  | none =>
      rw [hlock] at hentry
      have hscript : S.Does (releaseLockScript S lockKey (uuid token)) s lockKey 0 none := by
        refine (hS.get_none hentry).bind fun s' hwrites => ?_
        rw [if_neg (by simp)]
        exact Server.does_pure hwrites.self
      refine agrees_of rfl (hscript.map _) ?_ fun s' => h.unchanged hentry
      rw [Op.onParts, Product.Redis.releaseLock, hlock]
  | some l =>
      rw [hlock] at hentry
      by_cases htoken : l.token = token
      · have hscript : S.Does (releaseLockScript S lockKey (uuid token)) s lockKey 1 none := by
          refine (hS.get_string hentry).bind fun s' hwrites => ?_
          rw [if_pos (by rw [htoken])]
          exact hS.del_some hwrites.self
        refine agrees_of rfl (hscript.map _) ?_ fun s' => h.lock_written none (by simp)
        rw [Op.onParts, Product.Redis.releaseLock, hlock]
        dsimp only
        rw [if_pos htoken]
      · have hscript : S.Does (releaseLockScript S lockKey (uuid token)) s lockKey 0
            (some (lockEntry uuid l)) := by
          refine (hS.get_string hentry).bind fun s' hwrites => ?_
          rw [if_neg fun hc => htoken (huuid (Option.some.inj hc))]
          exact Server.does_pure hwrites.self
        refine agrees_of rfl (hscript.map _) ?_ fun s' => h.unchanged hentry
        rw [Op.onParts, Product.Redis.releaseLock, hlock]
        dsimp only
        rw [if_neg htoken]

/-! ## The inventory -/

/-- A counter that doubles hold is one that the server does. -/
lemma inRange_of_small {n : ℤ} (hn : |n| ≤ 2 ^ 53) : Server.InRange n := by
  rw [abs_le] at hn
  rw [Server.InRange]
  omega

lemma abs_le_of_lt {n : ℤ} (hn : |n| < 2 ^ 53) {m : ℤ} (hlow : n - 1 ≤ m) (hhigh : m ≤ n + 1) :
    |m| ≤ 2 ^ 53 := by
  rw [abs_lt] at hn
  rw [abs_le]
  omega

lemma Represents.increment (hS : S.Lawful) (h : Represents S d uuid s p)
    (hregular : Op.regular S d s p .increment = true) : Agrees S d uuid s p .increment := by
  have hentry := h.inventory
  have hsmall : |p.product.stock| < 2 ^ 53 := of_decide_eq_true hregular
  cases hn : p.product.inventory with
  | none =>
      rw [hn] at hentry
      have hincr := hS.incrBy_none hentry (inRange_of_small (show |(1 : ℤ)| ≤ 2 ^ 53 by decide))
      refine agrees_of rfl (hincr.map _) ?_ fun s' => h.inventory_written
      rw [Op.onParts, Product.Redis.increment, hn]
      rfl
  | some n =>
      rw [hn] at hentry
      rw [Product.Redis.stock, hn, Option.getD_some] at hsmall
      have hincr := hS.incrBy_decimal hentry (inRange_of_small hsmall.le)
        (inRange_of_small (abs_le_of_lt hsmall (by omega) le_rfl))
      refine agrees_of rfl (hincr.map _) ?_ fun s' => h.inventory_written
      rw [Op.onParts, Product.Redis.increment, hn]
      rfl

lemma Represents.resetInventory (hS : S.Lawful) (h : Represents S d uuid s p) :
    Agrees S d uuid s p .resetInventory := by
  have htext : d.string Product.initialStock = decimal Product.initialStock :=
    d.string_int Product.initialStock (by decide)
  have hset := hS.set s inventoryKey (d.string Product.initialStock)
  rw [htext] at hset
  refine agrees_of (f := fun _ => Reply.done) ?_ hset rfl fun s' => h.inventory_written
  rw [← htext]
  rfl

lemma Represents.getInventory (hS : S.Lawful) (h : Represents S d uuid s p)
    (hregular : Op.regular S d s p .getInventory = true) :
    Agrees S d uuid s p .getInventory := by
  have hentry := h.inventory
  have hsmall : |p.product.stock| < 2 ^ 53 := of_decide_eq_true hregular
  cases hn : p.product.inventory with
  | none =>
      rw [hn] at hentry
      refine agrees_of rfl ((hS.get_none hentry).map _) ?_ fun s' => h.unchanged hentry
      rw [Op.onParts, Product.Redis.stock, hn]
      rfl
  | some n =>
      rw [hn] at hentry
      rw [Product.Redis.stock, hn, Option.getD_some] at hsmall
      refine agrees_of rfl ((hS.get_string hentry).map _) ?_ fun s' => h.unchanged hentry
      rw [Op.onParts, Product.Redis.stock, hn]
      show _ = (Reply.stock (d.parseInt (decimal n)), p)
      rw [d.parseInt_decimal, d.round_int n hsmall.le]
      rfl

/-- The script from where it has a value. -/
lemma does_decrement (hS : S.Lawful) {n : ℤ} (hsmall : |n| < 2 ^ 53)
    (hentry : S.entry s inventoryKey = some (counter n)) :
    S.Does (do
        let n ← d.operand (decimal n)
        if n ≤ 0 then return (-1 : ℤ) else do
          let remaining ← S.incrBy inventoryKey (-1)
          return d.integer remaining)
      s inventoryKey (if n ≤ 0 then -1 else n - 1)
      (some (counter (if n ≤ 0 then n else n - 1))) := by
  have hoperand : (d.operand (decimal n) : Command σ ℚ) = pure (n : ℚ) := by
    rw [Doubles.operand, d.tonumber_decimal n hsmall.le]
  rw [hoperand, pure_bind]
  by_cases hpos : n ≤ 0
  · rw [if_pos hpos, if_pos hpos, if_pos (by exact_mod_cast hpos)]
    exact Server.does_pure hentry
  · rw [if_neg hpos, if_neg hpos, if_neg (by exact_mod_cast hpos)]
    have hfits : |n + -1| ≤ 2 ^ 53 := abs_le_of_lt hsmall (by omega) (by omega)
    have hdecr := hS.incrBy_decimal hentry (inRange_of_small hsmall.le) (inRange_of_small hfits)
    have hremaining := hdecr.map d.integer
    rw [d.integer_eq hfits] at hremaining
    exact hremaining

lemma Represents.checkAndDecrement (hS : S.Lawful) (h : Represents S d uuid s p)
    (hregular : Op.regular S d s p .checkAndDecrement = true) :
    Agrees S d uuid s p .checkAndDecrement := by
  have hentry := h.inventory
  have hsmall : |p.product.stock| < 2 ^ 53 := of_decide_eq_true hregular
  have htext : d.string Product.initialStock = decimal Product.initialStock :=
    d.string_int Product.initialStock (by decide)
  -- where the counter is missing, the script sets it, and goes on as if it had been there
  have hscript : S.Does (RedisService.checkAndDecrement S d inventoryKey Product.initialStock) s
      inventoryKey (if p.product.stock ≤ 0 then -1 else p.product.stock - 1)
      (some (counter (if p.product.stock ≤ 0 then p.product.stock else p.product.stock - 1))) := by
    rw [RedisService.checkAndDecrement, htext, checkAndDecrementScript]
    cases hn : p.product.inventory with
    | none =>
        rw [hn] at hentry
        have hstock : p.product.stock = Product.initialStock := by
          rw [Product.Redis.stock, hn, Option.getD_none]
        rw [hstock] at hsmall ⊢
        refine (hS.get_none hentry).bind fun s' _ => ?_
        refine ((hS.set s' inventoryKey _).map fun _ => decimal Product.initialStock).bind ?_
        exact fun s'' hwrites => does_decrement hS hsmall hwrites.self
    | some n =>
        rw [hn] at hentry
        have hstock : p.product.stock = n := by
          rw [Product.Redis.stock, hn, Option.getD_some]
        rw [hstock] at hsmall ⊢
        refine (hS.get_string hentry).bind fun s' hwrites => ?_
        exact does_decrement hS hsmall hwrites.self
  refine agrees_of rfl hscript ?_ fun s' => h.inventory_written
  have hparts : p.product.checkAndDecrement Product.initialStock =
      if p.product.stock ≤ 0 then ({ p.product with inventory := some p.product.stock }, -1)
      else ({ p.product with inventory := some (p.product.stock - 1) }, p.product.stock - 1) := rfl
  rw [Op.onParts, hparts]
  split_ifs
  · rfl
  · rfl

/-! ## The filter -/

/-- The positions of a username are offsets of the server. -/
lemma offset_of_asked {offset : ℤ} (h : ∃ username, offset ∈ Auth.positions username) :
    Server.BitOffset offset := by
  rcases h with ⟨username, hmem⟩
  rcases Auth.positions_bounds username offset hmem with ⟨hnonneg, hlt⟩
  exact ⟨hnonneg, hlt.trans (by decide)⟩

lemma Represents.getbit (hS : S.Lawful) (h : Represents S d uuid s p) {offset : ℤ}
    (hasked : Op.Asked (.getbit offset)) : Agrees S d uuid s p (.getbit offset) := by
  have hoffset := offset_of_asked hasked
  rcases h.bits with ⟨bytes, hbytes, hbits⟩
  have hbit : p.stores.bits offset = getBit bytes offset.toNat := by
    rw [hbits, decide_eq_true hoffset.1, Bool.true_and]
  rcases hbytes with hentry | ⟨hentry, rfl⟩
  · have hget := hS.getbit_string hentry hoffset
    rw [← hbit] at hget
    exact agrees_of rfl hget rfl fun s' => h.unchanged hentry
  · have hget := hS.getbit_none hentry hoffset
    rw [← getBit_nil offset.toNat, ← hbit] at hget
    exact agrees_of rfl hget rfl fun s' => h.unchanged hentry

/-- One more bit of the string. -/
lemma bitsOf_bitSet {bits : ℤ → Bool} {bytes bytes' : Bytes}
    (hbits : ∀ p : ℤ, bits p = (decide (0 ≤ p) && getBit bytes p.toNat)) {offset : ℤ}
    (hoffset : 0 ≤ offset) (hset : Server.BitSet bytes offset.toNat true bytes') :
    BitsOf (some (.lasting bytes')) (Function.update bits offset true) := by
  refine ⟨bytes', Or.inl rfl, ?_⟩
  intro p
  rw [hset p.toNat]
  by_cases hp : p = offset
  · rw [hp, Function.update_self, if_pos rfl, decide_eq_true hoffset]
    rfl
  · rw [Function.update_of_ne hp, hbits p]
    by_cases hnonneg : 0 ≤ p
    · rw [if_neg (by omega)]
    · rw [decide_eq_false hnonneg]
      rfl

lemma Represents.setbit (hS : S.Lawful) (h : Represents S d uuid s p) {offset : ℤ}
    (hasked : Op.Asked (.setbit offset)) : Agrees S d uuid s p (.setbit offset) := by
  have hoffset := offset_of_asked hasked
  rcases h.bits with ⟨bytes, hbytes, hbits⟩
  have hbit : p.stores.bits offset = getBit bytes offset.toNat := by
    rw [hbits, decide_eq_true hoffset.1, Bool.true_and]
  have hset : ∃ bytes', Server.BitSet bytes offset.toNat true bytes' ∧
      S.Does (S.setbit bloomKey offset true) s bloomKey (p.stores.bits offset)
        (some (.lasting bytes')) := by
    rw [hbit]
    rcases hbytes with hentry | ⟨hentry, rfl⟩
    · exact hS.setbit_string true hentry hoffset
    · rw [getBit_nil]
      exact hS.setbit_none true hentry hoffset
  rcases hset with ⟨bytes', hbitSet, hdoes⟩
  exact agrees_of rfl hdoes rfl fun s' =>
    h.bits_written (bitsOf_bitSet hbits hoffset.1 hbitSet)

/-! ## The limiter -/

/-- What the script finds of a bucket. -/
lemma does_hmget (hS : S.Lawful) {key : String} {stored : Option Key}
    (h : Option.Rel (BucketOf d) (S.entry s key) stored) :
    ∃ vals, S.Does (S.hmget key ["level", "last_time"]) s key vals (S.entry s key) ∧
      (vals.getD 0 none).bind d.tonumber = stored.map (fun k => k.bucket.level) ∧
      (vals.getD 1 none).bind d.tonumber = stored.map fun k => k.bucket.lastTime := by
  generalize hentry : S.entry s key = e at h
  cases h with
  | none => exact ⟨_, hS.hmget_none (by simp) hentry, rfl, rfl⟩
  | some hbucket =>
      rcases hbucket with ⟨fields, t, rfl, hlevel, hlast, -⟩
      exact ⟨_, hS.hmget_hash (by simp) hentry, hlevel, hlast⟩

lemma round_max_zero {q : ℚ} (hq : d.round q = q) : d.round (max 0 q) = max 0 q := by
  rcases max_choice 0 q with hmax | hmax
  · rw [hmax]
    exact_mod_cast d.round_int 0 (by decide)
  · rw [hmax, hq]

/-- A bucket is kept in a hash. -/
lemma hash_of_rel {e : Option Entry} {stored : Option Key}
    (h : Option.Rel (BucketOf d) e stored) :
    ∀ x, e = some x → ∃ fields, x.value = .hash fields := by
  rintro x rfl
  cases h with
  | some hbucket =>
      rcases hbucket with ⟨fields, t, rfl, -⟩
      exact ⟨fields, rfl⟩

/-- The hash that the script leaves. -/
def bucketEntry (d : Doubles) (e : Option Entry) (b : Bucket) (expiresAt : ℕ) : Entry where
  value := .hash (Server.setFields (Server.storedFields e)
    [("level", d.argument b.level), ("last_time", d.argument b.lastTime)])
  expiresAt := some expiresAt

/-- It holds the bucket. -/
lemma bucketOf_bucketEntry (e : Option Entry) {b : Bucket} {t : ℕ} {key : Key}
    (hb : key.bucket = b) (hlevel : d.round b.level = b.level)
    (hlast : d.round b.lastTime = b.lastTime) (ht : (t : ℚ) = key.expiresAt) :
    BucketOf d (bucketEntry d e b t) key := by
  refine ⟨_, t, rfl, ?_, ?_, ht⟩
  · have hne : "level" ≠ "last_time" := by decide
    rw [Server.setFields, List.foldl_cons, List.foldl_cons, List.foldl_nil,
      Function.update_of_ne hne, Function.update_self, Option.bind_some,
      d.tonumber_argument _ hlevel, hb]
  · rw [Server.setFields, List.foldl_cons, List.foldl_cons, List.foldl_nil, Function.update_self,
      Option.bind_some, d.tonumber_argument _ hlast, hb]

/-- **The script on the server is the script on the bucket**, where nothing is rounded. -/
lemma does_leakyBucketScript (hS : S.Lawful) {key : String} {stored : Option Key}
    (h : Option.Rel (BucketOf d) (S.entry s key) stored) {capacity leakRate now : ℚ}
    (hcapacity : (d.operand (d.string capacity) : Command σ ℚ) = pure capacity)
    (hleakRate : (d.operand (d.string leakRate) : Command σ ℚ) = pure leakRate)
    (hnow : (d.operand (d.string now) : Command σ ℚ) = pure now)
    (hexact : d.exact (numbers (stored.map Key.bucket) capacity leakRate now) = true)
    (hpos : 0 < ⌈capacity / leakRate⌉ + 1)
    (hrange : S.now s + 1000 * (⌈capacity / leakRate⌉ + 1) < 2 ^ 63) :
    let result := RateLimiter.leakyBucketScript (stored.map Key.bucket) capacity leakRate now
    S.Does (leakyBucketScript S d key (d.string capacity) (d.string leakRate) (d.string now)) s key
      (result.allowed, result.level) (some (bucketEntry d (S.entry s key) result.bucket
        (S.now s + 1000 * result.ttl.toNat))) := by
  rcases does_hmget hS h with ⟨vals, hvals, hlevel, hlast⟩
  simp only [Doubles.exact, numbers, List.all_cons, List.all_nil, Bool.and_true,
    Bool.and_eq_true, decide_eq_true_eq, Option.map_map] at hexact
  rcases hexact with ⟨helapsed, hseconds, hleaked, hrest, hnext, hratio, hreply, -⟩
  have hdrained : max 0 ((stored.map fun k => k.bucket.level).getD 0 -
      (now - (stored.map fun k => k.bucket.lastTime).getD now) / 1000 * leakRate) =
      drained (stored.map Key.bucket) leakRate now := by
    rw [drained, Option.map_map, Option.map_map]
    rfl
  refine hvals.bind fun s' hwrites => ?_
  have hwrite := @Server.Lawful.hset_expire _ (ℕ × ℤ) S s' key hS (hwrites.self ▸ hash_of_rel h)
  rw [hwrites.self, hwrites.now] at hwrite
  rw [hcapacity, pure_bind, hleakRate, pure_bind, hnow, pure_bind]
  dsimp only
  simp only [Function.comp_def] at helapsed hseconds hleaked hrest
  rw [hlevel, hlast, helapsed, hseconds, hleaked, hrest, hdrained, hnext, hratio]
  by_cases hroom : drained (stored.map Key.bucket) leakRate now + 1 ≤ capacity
  · simp only [RateLimiter.leakyBucketScript, if_pos hroom] at hreply ⊢
    rw [hreply]
    exact hwrite (by simp) hpos hrange _
  · simp only [RateLimiter.leakyBucketScript, if_neg hroom] at hreply ⊢
    rw [hreply]
    exact hwrite (by simp) hpos hrange _

/-- The level that the script stores is not rounded either. -/
lemma round_level {stored : Option Bucket} {capacity leakRate now : ℚ}
    (hexact : d.exact (numbers stored capacity leakRate now) = true) :
    d.round (RateLimiter.leakyBucketScript stored capacity leakRate now).bucket.level =
      (RateLimiter.leakyBucketScript stored capacity leakRate now).bucket.level := by
  rw [RateLimiter.leakyBucketScript]
  by_cases hroom : drained stored leakRate now + 1 ≤ capacity
  · rw [if_pos hroom]
    exact d.round_of_exact hexact (by simp [numbers])
  · rw [if_neg hroom]
    exact round_max_zero (d.round_of_exact hexact (by simp [numbers]))

/-- Nor the one that its caller returns. -/
lemma round_reply {stored : Option Bucket} {capacity leakRate now : ℚ}
    (hexact : d.exact (numbers stored capacity leakRate now) = true) :
    d.round ((RateLimiter.leakyBucketScript stored capacity leakRate now).level / 1000) =
      (RateLimiter.leakyBucketScript stored capacity leakRate now).level / 1000 :=
  d.round_of_exact hexact (by simp [numbers])

lemma Represents.leakyBucket (hS : S.Lawful) (h : Represents S d uuid s p) {x : String} {now : ℕ}
    (hregular : Op.regular S d s p (.leakyBucket x now) = true) :
    Agrees S d uuid s p (.leakyBucket x now) := by
  simp only [Op.regular, Bool.and_eq_true, decide_eq_true_eq] at hregular
  rcases hregular with ⟨⟨⟨hsettled, hlt⟩, rfl⟩, hexact⟩
  have hceil : ⌈capacity / leakRate⌉ + 1 = 3 := by decide +kernel
  have hsmall : |((S.now s : ℕ) : ℤ)| ≤ 2 ^ 53 := by
    rw [abs_le]
    omega
  have hround : d.round (S.now s : ℚ) = S.now s := by exact_mod_cast d.round_int _ hsmall
  have hrel : Option.Rel (BucketOf d) (S.entry s (bucketKey x))
      ((p.keys (bucketKey x)).filter (Expiry.sharedClock.alive (S.now s))) := by
    rw [hS.entry_eq_lookup hsettled]
    exact h.buckets x
  have hscript := does_leakyBucketScript hS hrel
    (by exact_mod_cast @Doubles.operand_string σ d 100 (by decide))
    (by exact_mod_cast @Doubles.operand_string σ d 50 (by decide))
    (by exact_mod_cast @Doubles.operand_string σ d (S.now s) hsmall)
    hexact (by rw [hceil]; decide) (by rw [hceil]; omega)
  have hreply : RateLimiter.Reply.mk (decide ((p.served x (S.now s)).result.allowed = 1))
      (d.round ((p.served x (S.now s)).result.level / 1000)) = (p.served x (S.now s)).reply :=
    congrArg (RateLimiter.Reply.mk _) (round_reply hexact)
  have hdoes : S.Does (RedisService.leakyBucket S d x capacity leakRate (S.now s)) s (bucketKey x)
      (RateLimiter.Reply.mk (decide ((p.served x (S.now s)).result.allowed = 1))
        (d.round ((p.served x (S.now s)).result.level / 1000)))
      (some (bucketEntry d (S.entry s (bucketKey x)) (p.served x (S.now s)).result.bucket
        (S.now s + 1000 * (p.served x (S.now s)).result.ttl.toNat))) :=
    hscript.map fun result : ℕ × ℤ =>
      RateLimiter.Reply.mk (decide (result.1 = 1)) (d.round (result.2 / 1000))
  rw [hreply] at hdoes
  refine agrees_of rfl hdoes rfl fun s' => h.bucket_written (bucketOf_bucketEntry _ rfl
    (round_level hexact) hround ?_) ?_
  · show ((S.now s + 1000 * (⌈capacity / leakRate⌉ + 1).toNat : ℕ) : ℚ) =
      (S.now s : ℚ) + 1000 * ((⌈capacity / leakRate⌉ + 1 : ℤ) : ℚ)
    rw [hceil, show Int.toNat 3 = 3 from rfl]
    norm_num
  · show decide (S.now s < S.now s + 1000 * (⌈capacity / leakRate⌉ + 1).toNat) = true
    rw [hceil]
    exact decide_eq_true (by omega)

/-- **The server answers a command as the separate stores do**, and goes on representing them. -/
theorem Represents.op (hS : S.Lawful) (huuid : Function.Injective uuid)
    (h : Represents S d uuid s p) {op : Op} (hasked : op.Asked)
    (hregular : op.regular S d s p = true) : Agrees S d uuid s p op := by
  cases op with
  | acquireLock token => exact h.acquireLock hS hregular
  | releaseLock token => exact h.releaseLock hS huuid hregular
  | checkAndDecrement => exact h.checkAndDecrement hS hregular
  | increment => exact h.increment hS hregular
  | getInventory => exact h.getInventory hS hregular
  | resetInventory => exact h.resetInventory hS
  | setbit offset => exact h.setbit hS hasked
  | getbit offset => exact h.getbit hS hasked
  | leakyBucket x now => exact h.leakyBucket hS hregular
  | tick => exact ⟨_, rfl, h.tick hS⟩

end commands

end RedisApi.Keyspace
