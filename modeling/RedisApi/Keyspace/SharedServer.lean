import RedisApi.Keyspace.Agreement

/-!
# One server for everything

However the commands of all requests interleave, whatever is true of the answers of the separate
stores is true of those of the one server.

* `regular` — every command of a run is regular where it is run.
* `replies_eq` — the answers are the same.
* `eighths`, `everything` — numbers that are exact as far as eighths, and a run with them.
-/

namespace RedisApi.Keyspace

open Core EcmaScript RedisServer RateLimiter

/-! ## All commands -/

section runs

variable {σ : Type} (S : Server σ) (d : Doubles) (uuid : Product.Token → Bytes)

/-- The commands one after another, in the order in which the server runs them. -/
def onServer : σ → List Op → List (Except String Reply) × σ
  | s, [] => ([], s)
  | s, op :: ops =>
      let (reply, s') := op.onServer S d uuid s
      let (replies, final) := onServer s' ops
      (reply :: replies, final)

def onParts : Parts → List Op → List Reply × Parts
  | p, [] => ([], p)
  | p, op :: ops =>
      let (reply, p') := op.onParts uuid p
      let (replies, final) := onParts p' ops
      (reply :: replies, final)

/-- Every command is regular where it is run. -/
def regular : σ → Parts → List Op → Bool
  | _, _, [] => true
  | s, p, op :: ops =>
      op.regular S d s p && regular (op.onServer S d uuid s).2 (op.onParts uuid p).2 ops

end runs

/-- **One server does for all.**  The server starts out holding what the separate stores do.
Whatever is asked of it, by any number of requests of all kinds whose commands interleave in any
way: it answers every command, each as the separate stores do, and holds at the end what they do.
`randomUUID()` returns no token twice, and every command is regular. -/
theorem replies_eq {σ : Type} {S : Server σ} (hS : S.Lawful) {d : Doubles}
    {uuid : Product.Token → Bytes} (huuid : Function.Injective uuid) {s : σ} {p : Parts}
    (h : Represents S d uuid s p) {ops : List Op} (hasked : ∀ op ∈ ops, op.Asked)
    (hregular : regular S d uuid s p ops = true) :
    (onServer S d uuid s ops).1 = (onParts uuid p ops).1.map .ok ∧
      Represents S d uuid (onServer S d uuid s ops).2 (onParts uuid p ops).2 := by
  induction ops generalizing s p with
  | nil => exact ⟨rfl, h⟩
  | cons op ops ih =>
      rcases Bool.and_eq_true_iff.mp hregular with ⟨hop, hrest⟩
      rcases h.op hS huuid (hasked op List.mem_cons_self) hop with ⟨s', hrun, hrep⟩
      rw [hrun] at hrest
      have hreplies := ih hrep (fun op' hop' => hasked op' (List.mem_cons_of_mem op hop')) hrest
      rw [onServer, onParts, hrun]
      exact ⟨congrArg (Except.ok _ :: ·) hreplies.1, hreplies.2⟩

/-! ## From an empty server -/

/-- Nothing is stored. -/
def emptyServer : KeySpace where
  entries _ := none
  now := 0

def emptyParts : Parts where
  product := { inventory := none, lock := none, now := 0 }
  stores := Auth.Stores.empty
  keys _ := none

lemma represents_empty (d : Doubles) (uuid : Product.Token → Bytes) :
    Represents keySpace d uuid emptyServer emptyParts := by
  refine ⟨rfl, rfl, rfl, ⟨[], Or.inr ⟨rfl, rfl⟩, ?_⟩, fun _ => .none⟩
  intro p
  rw [getBit_nil, Bool.and_false]
  rfl

/-- The text behind the decimal point of so many eighths. -/
def fraction (eighths : ℕ) : Bytes :=
  (["", ".125", ".25", ".375", ".5", ".625", ".75", ".875"].getD eighths "").toList.map fun c =>
    UInt8.ofNat c.toNat

def sign (n : ℤ) : Bytes := if n < 0 then [0x2D] else []

/-- The text of so many eighths. -/
def eighthsText (m : ℤ) : Bytes :=
  sign m ++ ((numeral (m.natAbs / 8)).map digit ++ fraction (m.natAbs % 8))

def readFraction : Bytes → Option ℚ
  | [] => some 0
  | _ :: digits => (digits.mapM digitOf).map fun ds => Nat.ofDigits 10 ds.reverse / 10 ^ ds.length

/-- A number with or without a fraction. -/
def readUnsigned (bytes : Bytes) : Option ℚ :=
  (parseNat (bytes.takeWhile (· ≠ 0x2E))).bind fun n =>
    (readFraction (bytes.dropWhile (· ≠ 0x2E))).map fun q => n + q

def readSigned (bytes : Bytes) : Option ℚ :=
  if bytes.head? = some 0x2D then (readUnsigned bytes.tail).map (- ·) else readUnsigned bytes

lemma readFraction_fraction {r : ℕ} (hr : r < 8) :
    readFraction (fraction r) = some (r / 8 : ℚ) := by
  interval_cases r <;> decide +kernel

lemma readUnsigned_eighths (n : ℕ) {r : ℕ} (hr : r < 8) :
    readUnsigned ((numeral n).map digit ++ fraction r) = some (n + r / 8 : ℚ) := by
  have hdigits : ∀ b ∈ (numeral n).map digit, decide (b ≠ 0x2E) = true := by
    intro b hb
    rcases List.mem_map.mp hb with ⟨c, hc, rfl⟩
    exact decide_eq_true (digit_ne (numeral_lt hc) (by decide))
  have htake : (fraction r).takeWhile (· ≠ 0x2E) = [] := by
    interval_cases r <;> decide +kernel
  have hdrop : (fraction r).dropWhile (· ≠ 0x2E) = fraction r := by
    interval_cases r <;> decide +kernel
  rw [readUnsigned, List.takeWhile_append_of_pos hdigits, List.dropWhile_append_of_pos hdigits,
    htake, hdrop, List.append_nil, parseNat_numeral, Option.bind_some, readFraction_fraction hr]
  rfl

lemma readSigned_eighths (m : ℤ) (n : ℕ) {r : ℕ} (hr : r < 8) :
    readSigned (sign m ++ ((numeral n).map digit ++ fraction r)) =
      some (if m < 0 then -(n + r / 8 : ℚ) else n + r / 8) := by
  by_cases hneg : m < 0
  · rw [sign, if_pos hneg, if_pos hneg, List.singleton_append, readSigned, List.head?_cons,
      if_pos rfl, List.tail_cons, readUnsigned_eighths n hr]
    rfl
  · have hhead : ((numeral n).map digit ++ fraction r).head? ≠ some 0x2D := by
      rcases numeral_eq n with ⟨c, ds, hds, -⟩
      have hc : c < 10 := numeral_lt (hds ▸ List.mem_cons_self)
      rw [hds]
      exact fun heq => digit_ne hc (by decide) (Option.some.inj heq)
    rw [sign, if_neg hneg, if_neg hneg, List.nil_append, readSigned, if_neg hhead,
      readUnsigned_eighths n hr]

/-- A number of eighths, from its whole part and its fraction. -/
lemma eighths_eq (m : ℤ) :
    (if m < 0 then -((m.natAbs / 8 : ℕ) + (m.natAbs % 8 : ℕ) / 8 : ℚ)
      else (m.natAbs / 8 : ℕ) + (m.natAbs % 8 : ℕ) / 8) = (m / 8 : ℚ) := by
  have hsum : ((m.natAbs / 8 : ℕ) + (m.natAbs % 8 : ℕ) / 8 : ℚ) = m.natAbs / 8 := by
    have hdiv := Nat.div_add_mod m.natAbs 8
    have hdiv : (8 * (m.natAbs / 8 : ℕ) + (m.natAbs % 8 : ℕ) : ℚ) = m.natAbs := by
      exact_mod_cast hdiv
    linarith
  rw [hsum]
  split_ifs with hneg
  · have habs : ((m.natAbs : ℤ) : ℚ) = -m := by
      rw [Int.ofNat_natAbs_of_nonpos hneg.le, Int.cast_neg]
    rw [Int.cast_natCast] at habs
    rw [habs]
    ring
  · have habs : ((m.natAbs : ℤ) : ℚ) = m := by
      rw [Int.natAbs_of_nonneg (not_lt.mp hneg)]
    rw [Int.cast_natCast] at habs
    rw [habs]

/-- An integer is written as it is stored. -/
lemma eighthsText_mul (n : ℤ) : eighthsText (n * 8) = decimal n := by
  have habs : (n * 8).natAbs = n.natAbs * 8 := Int.natAbs_mul n 8
  rw [eighthsText, habs, Nat.mul_div_cancel _ (by decide), Nat.mul_mod_left]
  show sign (n * 8) ++ ((numeral n.natAbs).map digit ++ []) = decimal n
  rw [List.append_nil, sign]
  cases n with
  | ofNat n => rw [if_neg (by simp)]; rfl
  | negSucc n => rw [if_pos (by omega)]; rfl

/-- Doubles as far as eighths. -/
def eighths : Doubles where
  round q := ⌊q * 8⌋ / 8
  tonumber := readSigned
  argument q := eighthsText ⌊q * 8⌋
  string q := eighthsText ⌊q * 8⌋
  round_int n _ := by
    rw [show ((n : ℚ) * 8) = ((n * 8 : ℤ) : ℚ) by push_cast; rfl, Int.floor_intCast]
    push_cast
    ring
  tonumber_argument q hq := by
    rw [eighthsText, readSigned_eighths _ _ (Nat.mod_lt _ (by decide)), eighths_eq]
    exact congrArg some hq
  tonumber_decimal n _ := by
    rw [← eighthsText_mul, eighthsText, readSigned_eighths _ _ (Nat.mod_lt _ (by decide)),
      eighths_eq]
    push_cast
    exact congrArg some (mul_div_cancel_right₀ _ (by norm_num))
  string_int n _ := by
    rw [show ((n : ℚ) * 8) = ((n * 8 : ℤ) : ℚ) by push_cast; rfl, Int.floor_intCast,
      eighthsText_mul]

/-- A text for every token. -/
def pairs (token : Product.Token) : Bytes := decimal (Nat.pair token.request token.attempt)

lemma pairs_injective : Function.Injective pairs := by
  rintro ⟨r, a⟩ ⟨r', a'⟩ heq
  have hpair := congrArg parseInt heq
  rw [pairs, pairs, parseInt_decimal, parseInt_decimal, Option.some.injEq, Nat.cast_inj,
    Nat.pair_eq_pair] at hpair
  exact congr (congrArg Product.Token.mk hpair.1) hpair.2

/-- Nine requests of an address, and a tenth 125 ms later, when 6.25 of the nine have leaked; in
between two requests for the lock, one of which gets it and uses an item, and a username is added
and looked up. -/
def everything : List Op :=
  List.replicate 9 (.leakyBucket "10.0.0.1" 0) ++
    [.acquireLock ⟨0, 1⟩, .setbit ((Auth.positions (js "bob")).headD 0), .acquireLock ⟨1, 1⟩,
      .checkAndDecrement] ++
    List.replicate 125 .tick ++
    [.leakyBucket "10.0.0.1" 125, .releaseLock ⟨0, 1⟩,
      .getbit ((Auth.positions (js "bob")).headD 0), .acquireLock ⟨1, 2⟩, .getInventory,
      .increment, .getInventory, .resetInventory]

lemma asked_everything : ∀ op ∈ everything, op.Asked := by
  have hposition : (Auth.positions (js "bob")).headD 0 ∈ Auth.positions (js "bob") := by
    decide +kernel
  intro op hop
  simp only [everything, List.mem_append, List.mem_replicate, List.mem_cons, List.not_mem_nil,
    or_false] at hop
  rcases hop with ((⟨-, rfl⟩ | rfl | rfl | rfl | rfl) | ⟨-, rfl⟩) |
    rfl | rfl | rfl | rfl | rfl | rfl | rfl | rfl
  all_goals first
    | exact ⟨_, hposition⟩
    | trivial

theorem replies_eq_everything :
    .bucket { allowed := true, level := 15 / 4 } ∈ (onParts pairs emptyParts everything).1 ∧
      (onServer keySpace eighths pairs emptyServer everything).1 =
        (onParts pairs emptyParts everything).1.map .ok ∧
      Represents keySpace eighths pairs (onServer keySpace eighths pairs emptyServer everything).2
        (onParts pairs emptyParts everything).2 := by
  have hbucket : decide (.bucket { allowed := true, level := 15 / 4 } ∈
      (onParts pairs emptyParts everything).1) = true := by
    decide +kernel
  have hregular : regular keySpace eighths pairs emptyServer emptyParts everything = true := by
    decide +kernel
  exact ⟨of_decide_eq_true hbucket, replies_eq keySpace_lawful pairs_injective
    (represents_empty eighths pairs) asked_everything hregular⟩

end RedisApi.Keyspace
