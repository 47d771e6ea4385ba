import RedisApi.Core.Bytes
import Mathlib.Logic.Function.Basic

/-!
# A Redis server

A server is a parameter: its states, the commands that operate on strings, bits, counters and hashes
and that give keys a time to live, and what a command finds under a key.  What is assumed of it is
what its documentation says of these commands, where a caller can rely on it (`Lawful`).  It runs
one command or script at a time; what a script has written before it fails stays.

* `Command` — what a command or a script returns, and the server that it leaves.
* `Server`, `Lawful` — the commands, and what is known of them.  In the millisecond in which the
  time of a key is up, a command may find it or not.
* `Does` — a command returns a value and changes one key at most; `Does.bind`, for scripts.
* `lookup` — what a key holds whose time is not up; `lookup_tick`.
* `keySpace` — a server that is lawful.
-/

namespace Core.RedisServer

/-! ## The key space -/

/-- A hash is given by what its fields hold. -/
inductive Value
  | string (bytes : Bytes)
  | hash (fields : String → Option Bytes)

/-- A value with the time at which its time is up. -/
structure Entry where
  value : Value
  expiresAt : Option ℕ

/-- A string that does not expire. -/
def Entry.lasting (bytes : Bytes) : Entry where
  value := .string bytes
  expiresAt := none

/-- There is time left. -/
def Entry.alive (now : ℕ) (e : Entry) : Bool :=
  match e.expiresAt with
  | none => true
  | some t => now < t

/-- What there is time left for later there is time left for now. -/
lemma Entry.alive_mono {now later : ℕ} (hle : now ≤ later) {e : Entry}
    (halive : e.alive later = true) : e.alive now = true := by
  rcases e with ⟨value, expiresAt⟩
  cases expiresAt with
  | none => rfl
  | some t =>
      have ht : later < t := of_decide_eq_true halive
      exact decide_eq_true (by omega)

/-! ## Commands -/

/-- A command or a script: it fails with a message, or returns a value. -/
abbrev Command (σ : Type) : Type → Type := ExceptT String (StateM σ)

namespace Command

variable {σ α β : Type}

/-- The command fails. -/
def fail (message : String) : Command σ α := throw message

/-- A script goes on with what its first command has returned and left. -/
lemma bind_of_ok {m : Command σ α} {f : α → Command σ β} {s s' : σ} {a : α}
    (h : m s = (.ok a, s')) : (m >>= f) s = f a s' := by
  simp only [bind, ExceptT.bind, ExceptT.mk, StateT.bind, h]
  rfl

end Command

/-! ## Servers -/

structure Server (σ : Type) where
  now : σ → ℕ
  /-- What a command finds under a key. -/
  entry : σ → String → Option Entry
  /-- `GET` -/
  get : String → Command σ (Option Bytes)
  /-- `SET` -/
  set : String → Bytes → Command σ Unit
  /-- `SET … PX … NX`: whether the key was absent, and is set now. -/
  setPxNx : String → Bytes → ℕ → Command σ Bool
  /-- `DEL`: how many keys were there. -/
  del : String → Command σ ℕ
  /-- `INCR` and `DECR`: the counter afterwards. -/
  incrBy : String → ℤ → Command σ ℤ
  /-- `GETBIT` -/
  getbit : String → ℤ → Command σ Bool
  /-- `SETBIT`: the bit that was there before. -/
  setbit : String → ℤ → Bool → Command σ Bool
  /-- `HMGET` -/
  hmget : String → List String → Command σ (List (Option Bytes))
  /-- `HSET`: how many fields were added. -/
  hset : String → List (String × Bytes) → Command σ ℕ
  /-- `EXPIRE`: whether the key was there. -/
  expire : String → ℤ → Command σ Bool
  /-- A millisecond passes. -/
  tick : σ → σ

namespace Server

variable {σ α β : Type} (S : Server σ)

/-- What a key holds whose time is not up. -/
def lookup (s : σ) (key : String) : Option Entry :=
  (S.entry s key).filter (Entry.alive (S.now s))

/-- The time of the key is not up in this very millisecond. -/
def settled (s : σ) (key : String) : Bool :=
  (S.entry s key).bind Entry.expiresAt ≠ some (S.now s)

/-- The key has come to hold `e`, and nothing else has changed. -/
structure Writes (s : σ) (key : String) (e : Option Entry) (s' : σ) : Prop where
  now : S.now s' = S.now s
  self : S.entry s' key = e
  others : ∀ key', key' ≠ key → S.entry s' key' = S.entry s key'

/-- The command returns `a` and leaves `e` under the key, and all else as it was. -/
def Does (m : Command σ α) (s : σ) (key : String) (a : α) (e : Option Entry) : Prop :=
  ∃ s', m s = (.ok a, s') ∧ S.Writes s key e s'

/-- The integers that a counter can hold. -/
def InRange (n : ℤ) : Prop := -2 ^ 63 ≤ n ∧ n < 2 ^ 63

/-- The offsets that a string has bits at. -/
def BitOffset (offset : ℤ) : Prop := 0 ≤ offset ∧ offset < 2 ^ 32

/-- The string has this bit as given, and all others as the first string has them. -/
def BitSet (bytes : Bytes) (offset : ℕ) (bit : Bool) (bytes' : Bytes) : Prop :=
  ∀ p, getBit bytes' p = if p = offset then bit else getBit bytes p

/-- The fields with the new ones, one after another. -/
def setFields (fields : String → Option Bytes) (new : List (String × Bytes)) :
    String → Option Bytes :=
  new.foldl (fun fields field => Function.update fields field.1 (some field.2)) fields

/-- The fields of what is stored, where it is a hash. -/
def storedFields (e : Option Entry) : String → Option Bytes :=
  match e with
  | some { value := .hash fields, .. } => fields
  | _ => fun _ => none

/-- **What is documented of the commands.**  Of a key that holds a value of another type, of a
counter that is no decimal or leaves the range, and of arguments that are refused, nothing is
known. -/
structure Lawful : Prop where
  /-- No command finds a key whose time is over. -/
  entry_now : ∀ {s key e t}, S.entry s key = some e → e.expiresAt = some t → S.now s ≤ t
  get_none : ∀ {s key}, S.entry s key = none → S.Does (S.get key) s key none none
  get_string : ∀ {s key bytes t}, S.entry s key = some ⟨.string bytes, t⟩ →
    S.Does (S.get key) s key (some bytes) (some ⟨.string bytes, t⟩)
  /-- The key does not expire. -/
  set : ∀ s key bytes, S.Does (S.set key bytes) s key () (some (Entry.lasting bytes))
  setPxNx_none : ∀ {s key} bytes {ttlMs}, S.entry s key = none → 0 < ttlMs →
    S.now s + ttlMs < 2 ^ 63 → S.Does (S.setPxNx key bytes ttlMs) s key true
      (some ⟨.string bytes, some (S.now s + ttlMs)⟩)
  setPxNx_some : ∀ {s key e} bytes {ttlMs}, S.entry s key = some e → 0 < ttlMs →
    S.now s + ttlMs < 2 ^ 63 → S.Does (S.setPxNx key bytes ttlMs) s key false (some e)
  del_some : ∀ {s key e}, S.entry s key = some e → S.Does (S.del key) s key 1 none
  /-- A counter that is not there starts from 0. -/
  incrBy_none : ∀ {s key delta}, S.entry s key = none → InRange delta →
    S.Does (S.incrBy key delta) s key delta (some (Entry.lasting (decimal delta)))
  incrBy_decimal : ∀ {s key n delta t}, S.entry s key = some ⟨.string (decimal n), t⟩ →
    InRange n → InRange (n + delta) →
    S.Does (S.incrBy key delta) s key (n + delta) (some ⟨.string (decimal (n + delta)), t⟩)
  getbit_none : ∀ {s key offset}, S.entry s key = none → BitOffset offset →
    S.Does (S.getbit key offset) s key false none
  getbit_string : ∀ {s key bytes t offset}, S.entry s key = some ⟨.string bytes, t⟩ →
    BitOffset offset →
    S.Does (S.getbit key offset) s key (getBit bytes offset.toNat) (some ⟨.string bytes, t⟩)
  setbit_none : ∀ {s key offset} bit, S.entry s key = none → BitOffset offset →
    ∃ bytes', BitSet [] offset.toNat bit bytes' ∧
      S.Does (S.setbit key offset bit) s key false (some (Entry.lasting bytes'))
  setbit_string : ∀ {s key bytes t offset} bit, S.entry s key = some ⟨.string bytes, t⟩ →
    BitOffset offset → ∃ bytes', BitSet bytes offset.toNat bit bytes' ∧
      S.Does (S.setbit key offset bit) s key (getBit bytes offset.toNat)
        (some ⟨.string bytes', t⟩)
  hmget_none : ∀ {s key names}, names ≠ [] → S.entry s key = none →
    S.Does (S.hmget key names) s key (names.map fun _ => none) none
  hmget_hash : ∀ {s key fields t names}, names ≠ [] → S.entry s key = some ⟨.hash fields, t⟩ →
    S.Does (S.hmget key names) s key (names.map fields) (some ⟨.hash fields, t⟩)
  hset_none : ∀ {s key new}, new ≠ [] → S.entry s key = none →
    ∃ n, S.Does (S.hset key new) s key n (some ⟨.hash (setFields (fun _ => none) new), none⟩)
  hset_hash : ∀ {s key fields t new}, new ≠ [] → S.entry s key = some ⟨.hash fields, t⟩ →
    ∃ n, S.Does (S.hset key new) s key n (some ⟨.hash (setFields fields new), t⟩)
  expire_some : ∀ {s key value t} {seconds : ℤ}, S.entry s key = some ⟨value, t⟩ → 0 < seconds →
    S.now s + 1000 * seconds < 2 ^ 63 → S.Does (S.expire key seconds) s key true
      (some ⟨value, some (S.now s + 1000 * seconds.toNat)⟩)
  tick_now : ∀ s, S.now (S.tick s) = S.now s + 1
  /-- A key stays as long as there is time left. -/
  tick_alive : ∀ {s key e}, S.entry s key = some e → e.alive (S.now s + 1) = true →
    S.entry (S.tick s) key = some e
  /-- Nothing appears by itself. -/
  entry_of_tick : ∀ {s key e}, S.entry (S.tick s) key = some e → S.entry s key = some e

/-! ## What a script does -/

section rules

variable {S} {s s' s'' : σ} {key key' : String} {e e' : Option Entry} {a : α} {b : β}

lemma Writes.refl (h : S.entry s key = e) : S.Writes s key e s := ⟨rfl, h, fun _ _ => rfl⟩

/-- Only what was written last to a key counts. -/
lemma Writes.trans (h : S.Writes s key e s') (h' : S.Writes s' key e' s'') :
    S.Writes s key e' s'' := by
  refine ⟨h'.now.trans h.now, h'.self, ?_⟩
  intro key' hne
  rw [h'.others key' hne, h.others key' hne]

lemma does_pure (h : S.entry s key = e) : S.Does (pure a) s key a e := ⟨s, rfl, .refl h⟩

/-- **A script on one key** does what its commands do, one after another. -/
lemma Does.bind {m : Command σ α} {f : α → Command σ β} (hm : S.Does m s key a e)
    (hf : ∀ s', S.Writes s key e s' → S.Does (f a) s' key b e') :
    S.Does (m >>= f) s key b e' := by
  rcases hm with ⟨s', hrun, hwrites⟩
  rcases hf s' hwrites with ⟨s'', hrest, hwrites'⟩
  exact ⟨s'', (Command.bind_of_ok hrun).trans hrest, hwrites.trans hwrites'⟩

/-- A script that makes something else of what its command returns. -/
lemma Does.map {m : Command σ α} (f : α → β) (hm : S.Does m s key a e) :
    S.Does (m >>= fun a => pure (f a)) s key (f a) e :=
  hm.bind fun _ hwrites => does_pure hwrites.self

/-- The fields of a hash are set and it is given a time to live, whether it was there or not. -/
lemma Lawful.hset_expire (hS : S.Lawful)
    (hhash : ∀ e, S.entry s key = some e → ∃ fields, e.value = .hash fields)
    {new : List (String × Bytes)} (hnew : new ≠ []) {seconds : ℤ} (hpos : 0 < seconds)
    (hrange : S.now s + 1000 * seconds < 2 ^ 63) (a : α) :
    S.Does (S.hset key new >>= fun _ => S.expire key seconds >>= fun _ => pure a) s key a
      (some ⟨.hash (setFields (storedFields (S.entry s key)) new),
        some (S.now s + 1000 * seconds.toNat)⟩) := by
  have hexpire : ∀ s' fields t, S.Writes s key (some ⟨.hash fields, t⟩) s' →
      S.Does (S.expire key seconds >>= fun _ => pure a) s' key a
        (some ⟨.hash fields, some (S.now s + 1000 * seconds.toNat)⟩) := by
    intro s' fields t hwrites
    have hrange' : S.now s' + 1000 * seconds < 2 ^ 63 := by
      rw [hwrites.now]
      exact hrange
    have hexpires := hS.expire_some hwrites.self hpos hrange'
    rw [hwrites.now] at hexpires
    exact hexpires.map fun _ => a
  cases hentry : S.entry s key with
  | none =>
      rcases hS.hset_none hnew hentry with ⟨n, hhset⟩
      exact hhset.bind fun s' => hexpire s' _ none
  | some e =>
      rcases hhash e hentry with ⟨fields, hfields⟩
      rcases e with ⟨value, t⟩
      obtain rfl : value = .hash fields := hfields
      rcases hS.hset_hash hnew hentry with ⟨n, hhset⟩
      exact hhset.bind fun s' => hexpire s' _ t

/-! ## What a key holds -/

lemma Writes.lookup_self (h : S.Writes s key e s') :
    S.lookup s' key = e.filter (Entry.alive (S.now s)) := by
  rw [lookup, h.self, h.now]

lemma Writes.lookup_of_ne (h : S.Writes s key e s') (hne : key' ≠ key) :
    S.lookup s' key' = S.lookup s key' := by
  rw [lookup, lookup, h.others key' hne, h.now]

/-- Outside the millisecond in which the time of the key is up, this is what a command finds. -/
lemma Lawful.entry_eq_lookup (hS : S.Lawful) (h : S.settled s key = true) :
    S.entry s key = S.lookup s key := by
  have hne : (S.entry s key).bind Entry.expiresAt ≠ some (S.now s) := of_decide_eq_true h
  rw [lookup]
  cases hentry : S.entry s key with
  | none => rfl
  | some e =>
      have halive : e.alive (S.now s) = true := by
        rcases e with ⟨value, expiresAt⟩
        cases expiresAt with
        | none => rfl
        | some t =>
            have hle := hS.entry_now hentry rfl
            rw [hentry] at hne
            have hne : t ≠ S.now s := fun hc => hne (congrArg some hc)
            exact decide_eq_true (by omega)
      exact (Option.filter_some_pos halive).symm

/-- As time passes, a key holds what it held, until its time is up. -/
lemma Lawful.lookup_tick (hS : S.Lawful) (s : σ) (key : String) :
    S.lookup (S.tick s) key = (S.lookup s key).filter (Entry.alive (S.now s + 1)) := by
  ext e
  rw [lookup, lookup, hS.tick_now, Option.filter_eq_some_iff, Option.filter_eq_some_iff,
    Option.filter_eq_some_iff]
  constructor
  · rintro ⟨hentry, halive⟩
    exact ⟨⟨hS.entry_of_tick hentry, Entry.alive_mono (Nat.le_succ _) halive⟩, halive⟩
  · rintro ⟨⟨hentry, -⟩, halive⟩
    exact ⟨hS.tick_alive hentry halive, halive⟩

/-- A key that does not expire, or is not there, stays so. -/
lemma Lawful.entry_tick (hS : S.Lawful)
    (hlasting : ∀ e, S.entry s key = some e → e.expiresAt = none) :
    S.entry (S.tick s) key = S.entry s key := by
  ext e
  constructor
  · exact hS.entry_of_tick
  · intro hentry
    refine hS.tick_alive hentry ?_
    rw [Entry.alive, hlasting e hentry]

end rules

end Server

/-! ## A server that is lawful -/

structure KeySpace where
  entries : String → Option Entry
  now : ℕ

namespace KeySpace

/-- A key is there until its time is over. -/
def found (ks : KeySpace) (key : String) : Option Entry :=
  (ks.entries key).filter fun e => e.expiresAt.all fun t => ks.now ≤ t

/-- A command on one key: what it returns, and what it leaves under the key. -/
def onKey {α : Type} (key : String) (f : ℕ → Option Entry → Except String α × Option Entry) :
    Command KeySpace α := fun ks =>
  let (result, e) := f ks.now (ks.found key)
  (result, { ks with entries := Function.update ks.entries key e })

def get : Option Entry → Except String (Option Bytes) × Option Entry
  | none => (.ok none, none)
  | some ⟨.string bytes, t⟩ => (.ok (some bytes), some ⟨.string bytes, t⟩)
  | e => (.error "WRONGTYPE", e)

def setPxNx (bytes : Bytes) (ttlMs now : ℕ) : Option Entry → Except String Bool × Option Entry
  | none => (.ok true, some ⟨.string bytes, some (now + ttlMs)⟩)
  | e => (.ok false, e)

def del (e : Option Entry) : Except String ℕ × Option Entry := (.ok e.toList.length, none)

def incrBy (delta : ℤ) : Option Entry → Except String ℤ × Option Entry
  | none => (.ok delta, some (.lasting (decimal delta)))
  | some ⟨.string bytes, t⟩ =>
      match parseInt bytes with
      | none => (.error "ERR value is not an integer or out of range", some ⟨.string bytes, t⟩)
      | some n => (.ok (n + delta), some ⟨.string (decimal (n + delta)), t⟩)
  | e => (.error "WRONGTYPE", e)

def getbit (offset : ℤ) : Option Entry → Except String Bool × Option Entry
  | none => (.ok false, none)
  | some ⟨.string bytes, t⟩ => (.ok (getBit bytes offset.toNat), some ⟨.string bytes, t⟩)
  | e => (.error "WRONGTYPE", e)

def setbit (offset : ℤ) (bit : Bool) : Option Entry → Except String Bool × Option Entry
  | none => (.ok false, some (.lasting (setBit [] offset.toNat bit)))
  | some ⟨.string bytes, t⟩ =>
      (.ok (getBit bytes offset.toNat), some ⟨.string (setBit bytes offset.toNat bit), t⟩)
  | e => (.error "WRONGTYPE", e)

def hmget (names : List String) :
    Option Entry → Except String (List (Option Bytes)) × Option Entry
  | none => (.ok (names.map fun _ => none), none)
  | some ⟨.hash fields, t⟩ => (.ok (names.map fields), some ⟨.hash fields, t⟩)
  | e => (.error "WRONGTYPE", e)

/-- The names that occur, each once. -/
def added (fields : String → Option Bytes) (new : List (String × Bytes)) : ℕ :=
  ((new.map Prod.fst).eraseDups.filter fun name => (fields name).isNone).length

def hset (new : List (String × Bytes)) : Option Entry → Except String ℕ × Option Entry
  | none =>
      (.ok (added (fun _ => none) new), some ⟨.hash (Server.setFields (fun _ => none) new), none⟩)
  | some ⟨.hash fields, t⟩ =>
      (.ok (added fields new), some ⟨.hash (Server.setFields fields new), t⟩)
  | e => (.error "WRONGTYPE", e)

def expire (seconds : ℤ) (now : ℕ) : Option Entry → Except String Bool × Option Entry
  | none => (.ok false, none)
  | some ⟨value, _⟩ =>
      (.ok true,
        if seconds ≤ 0 then none else some ⟨value, some (now + 1000 * seconds.toNat)⟩)

end KeySpace

/-- One key space, whose keys go in the millisecond after the one in which their time is up. -/
def keySpace : Server KeySpace where
  now := KeySpace.now
  entry := KeySpace.found
  get key := KeySpace.onKey key fun _ => KeySpace.get
  set key bytes := KeySpace.onKey key fun _ _ => (.ok (), some (.lasting bytes))
  setPxNx key bytes ttlMs := KeySpace.onKey key (KeySpace.setPxNx bytes ttlMs)
  del key := KeySpace.onKey key fun _ => KeySpace.del
  incrBy key delta := KeySpace.onKey key fun _ => KeySpace.incrBy delta
  getbit key offset := KeySpace.onKey key fun _ => KeySpace.getbit offset
  setbit key offset bit := KeySpace.onKey key fun _ => KeySpace.setbit offset bit
  hmget key names := KeySpace.onKey key fun _ => KeySpace.hmget names
  hset key new := KeySpace.onKey key fun _ => KeySpace.hset new
  expire key seconds := KeySpace.onKey key (KeySpace.expire seconds)
  tick ks := { ks with now := ks.now + 1 }

/-- The entry has not gone yet. -/
def Kept (now : ℕ) (e : Option Entry) : Prop := ∀ t, e.bind Entry.expiresAt = some t → now ≤ t

lemma Kept.none (now : ℕ) : Kept now none := by
  intro t ht
  exact absurd ht (by simp)

lemma Kept.lasting (now : ℕ) (value : Value) : Kept now (some ⟨value, .none⟩) := by
  intro t ht
  exact absurd ht (by simp)

lemma Kept.later (now n : ℕ) (value : Value) : Kept now (some ⟨value, some (now + n)⟩) := by
  intro t ht
  have ht : some (now + n) = some t := ht
  rw [← Option.some.inj ht]
  exact Nat.le_add_right now n

/-- What a command finds has not gone yet. -/
lemma kept_entry (ks : KeySpace) (key : String) : Kept ks.now (keySpace.entry ks key) := by
  intro t ht
  rcases Option.bind_eq_some_iff.mp ht with ⟨e, he, hexpires⟩
  have hkept := (Option.filter_eq_some_iff.mp he).2
  rw [hexpires] at hkept
  exact of_decide_eq_true hkept

/-- Nor does it go when its value is replaced. -/
lemma Kept.of_entry {ks : KeySpace} {key : String} {value value' : Value} {t : Option ℕ}
    (h : keySpace.entry ks key = some ⟨value, t⟩) : Kept ks.now (some ⟨value', t⟩) := by
  have hkept := kept_entry ks key
  rw [h] at hkept
  exact hkept

/-- What a command does on its key it does on the server. -/
lemma does_onKey {α : Type} {key : String} {ks : KeySpace} {before after : Option Entry} {a : α}
    (f : ℕ → Option Entry → Except String α × Option Entry)
    (hentry : keySpace.entry ks key = before) (hf : f ks.now before = (.ok a, after))
    (hkept : Kept ks.now after) : keySpace.Does (KeySpace.onKey key f) ks key a after := by
  refine ⟨{ ks with entries := Function.update ks.entries key after }, ?_, rfl, ?_, ?_⟩
  · have hfound : ks.found key = before := hentry
    rw [KeySpace.onKey, hfound, hf]
  · show (Function.update ks.entries key after key).filter _ = after
    rw [Function.update_self]
    cases after with
    | none => rfl
    | some e =>
        refine Option.filter_some_pos ?_
        rcases e with ⟨value, expiresAt⟩
        cases expiresAt with
        | none => rfl
        | some t => exact decide_eq_true (hkept t rfl)
  · intro key' hne
    show (Function.update ks.entries key after key').filter _ = (ks.entries key').filter _
    rw [Function.update_of_ne hne]

theorem keySpace_lawful : keySpace.Lawful where
  entry_now hentry ht := kept_entry _ _ _ (Option.bind_eq_some_iff.mpr ⟨_, hentry, ht⟩)
  get_none h := does_onKey (fun _ => KeySpace.get) h rfl (.none _)
  get_string h := does_onKey (fun _ => KeySpace.get) h rfl (.of_entry h)
  set ks key bytes := does_onKey (fun _ _ => (.ok (), some (.lasting bytes))) rfl rfl (.lasting _ _)
  setPxNx_none bytes ttlMs h _ _ := does_onKey (KeySpace.setPxNx bytes ttlMs) h rfl (.later _ _ _)
  setPxNx_some bytes ttlMs h _ _ :=
    does_onKey (KeySpace.setPxNx bytes ttlMs) h rfl (h ▸ kept_entry _ _)
  del_some h := does_onKey (fun _ => KeySpace.del) h rfl (.none _)
  incrBy_none h _ := does_onKey (fun _ => KeySpace.incrBy _) h rfl (.lasting _ _)
  incrBy_decimal := by
    intro ks key n delta t h _ _
    refine does_onKey (fun _ => KeySpace.incrBy delta) h ?_ (.of_entry h)
    rw [KeySpace.incrBy, parseInt_decimal]
  getbit_none h _ := does_onKey (fun _ => KeySpace.getbit _) h rfl (.none _)
  getbit_string h _ := does_onKey (fun _ => KeySpace.getbit _) h rfl (.of_entry h)
  setbit_none bit h _ :=
    ⟨_, fun p => getBit_setBit _ _ p _,
      does_onKey (fun _ => KeySpace.setbit _ bit) h rfl (.lasting _ _)⟩
  setbit_string bit h _ :=
    ⟨_, fun p => getBit_setBit _ _ p _,
      does_onKey (fun _ => KeySpace.setbit _ bit) h rfl (.of_entry h)⟩
  hmget_none _ h := does_onKey (fun _ => KeySpace.hmget _) h rfl (.none _)
  hmget_hash _ h := does_onKey (fun _ => KeySpace.hmget _) h rfl (.of_entry h)
  hset_none _ h := ⟨_, does_onKey (fun _ => KeySpace.hset _) h rfl (.lasting _ _)⟩
  hset_hash _ h := ⟨_, does_onKey (fun _ => KeySpace.hset _) h rfl (.of_entry h)⟩
  expire_some := by
    intro ks key value t seconds h hpos _
    refine does_onKey (KeySpace.expire seconds) h ?_ (.later _ _ _)
    rw [KeySpace.expire, if_neg (by omega)]
    rfl
  tick_now ks := rfl
  tick_alive := by
    intro ks key e hentry halive
    refine Option.filter_eq_some_iff.mpr ⟨(Option.filter_eq_some_iff.mp hentry).1, ?_⟩
    rcases e with ⟨value, expiresAt⟩
    cases expiresAt with
    | none => rfl
    | some t =>
        have ht : ks.now + 1 < t := of_decide_eq_true halive
        exact decide_eq_true (show ks.now + 1 ≤ t by omega)
  entry_of_tick := by
    intro ks key e hentry
    rcases Option.filter_eq_some_iff.mp hentry with ⟨hstored, hkept⟩
    refine Option.filter_eq_some_iff.mpr ⟨hstored, ?_⟩
    rcases e with ⟨value, expiresAt⟩
    cases expiresAt with
    | none => rfl
    | some t =>
        have ht : ks.now + 1 ≤ t := of_decide_eq_true hkept
        exact decide_eq_true (show ks.now ≤ t by omega)

end Core.RedisServer
