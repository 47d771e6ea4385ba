import RedisApi.RateLimiter.Capacity

/-!
# Which calls are admitted

The script keeps a level and a stamp; what it decides by them is a condition on every window of the
history.  Both results read off the closed form of the meter.

* `allowed_iff_conforming` — with stamps in order, a call is admitted exactly when it conforms: for
  every earlier admitted call, the requests admitted since then fit in what the bucket holds and
  what has leaked.
* `admitted_le` — whatever the stamps, a window that ends with an admitted call holds no more
  admitted calls than that.
-/

namespace RedisApi.RateLimiter

open Core

/-- How many calls of a window are admitted. -/
def admitted (window : List Served) : ℕ := window.countP Served.allowed

/-- One more call at `now` fits, for every earlier admitted call. -/
def Conforming (C r : ℚ) (earlier : List Served) (now : ℚ) : Prop :=
  ∀ before i between, earlier = before ++ i :: between → i.allowed = true →
    (admitted (i :: between) : ℚ) + 1 ≤ C + r * (now - i.call.now) / 1000

/-! ## From the log of calls to the log of the meter -/

lemma total_map_pour (window : List Served) :
    total (window.map Served.pour) = (admitted window : ℚ) := by
  induction window with
  | nil => simp [admitted]
  | cons s window ih =>
      rw [List.map_cons, total_cons, ih, admitted, admitted, List.countP_cons]
      push_cast
      rw [Served.pour, add_comm]

lemma weight_ne_zero_iff (s : Served) : s.pour.weight ≠ 0 ↔ s.allowed = true := by
  rw [Served.pour]
  split_ifs with h <;> simp [h]

/-- A window of the meter's log is a window of calls. -/
lemma forall_windows_iff {P : List (Pour ℚ) → Pour ℚ → Prop} {log : List Served} :
    (∀ earlier p later, log.map Served.pour = earlier ++ p :: later → P later p) ↔
      ∀ before i between, log = before ++ i :: between → P (between.map Served.pour) i.pour := by
  constructor
  · rintro hall before i between rfl
    exact hall (before.map Served.pour) i.pour (between.map Served.pour) (by simp)
  · intro hall earlier p later heq
    obtain ⟨before, rest, rfl, rfl, hrest⟩ := List.map_eq_append_iff.mp heq
    obtain ⟨i, between, rfl, rfl, rfl⟩ := List.map_eq_cons_iff.mp hrest
    exact hall before i between rfl

/-- The bound of the meter on a window, as it is stated about calls. -/
lemma window_le_iff {C r now : ℚ} {i : Served} {between : List Served}
    (hrate : i.call.leakRate = r) :
    total (i.pour :: between.map Served.pour) - (now / 1000 * r - i.pour.stamp) ≤ C - 1 ↔
      (admitted (i :: between) : ℚ) + 1 ≤ C + r * (now - i.call.now) / 1000 := by
  have hdrain : now / 1000 * r - i.pour.stamp = r * (now - i.call.now) / 1000 := by
    rw [Served.pour, hrate]
    ring
  rw [← List.map_cons, total_map_pour, hdrain]
  constructor <;> intro h <;> linarith

section answers

variable {C r : ℚ} {calls : List Call} {earlier later : List Served} {s : Served}

/-- The calls before and after a call that has been served are calls of the same identifier. -/
lemma calls_eq (heq : answers .never none calls = earlier ++ s :: later) :
    calls = earlier.map Served.call ++ s.call :: later.map Served.call := by
  have hcalls : (answers .never none calls).map Served.call = calls := map_call_answers
  rw [← hcalls, heq, List.map_append, List.map_cons]

lemma allowed_iff_reading (hconfigured : Configured C r calls)
    (heq : answers .never none calls = earlier ++ s :: later) :
    s.allowed = true ↔
      reading (fill (earlier.map Served.pour)) (s.call.now / 1000 * r) ≤ C - 1 := by
  have hmem : s.call ∈ calls := by
    rw [calls_eq heq]
    simp
  rw [s.allowed_iff, (hconfigured _ hmem).1,
    level_eq_reading (fun c hc => (hconfigured c hc).2) heq, le_sub_iff_add_le]

lemma leakRate_of_mem_earlier (hconfigured : Configured C r calls)
    (heq : answers .never none calls = earlier ++ s :: later) {i : Served} (hi : i ∈ earlier) :
    i.call.leakRate = r := by
  refine (hconfigured i.call ?_).2
  rw [calls_eq heq]
  exact List.mem_append_left _ (List.mem_map_of_mem hi)

/-- Calls in order are pours in order. -/
lemma pours_ordered (hr : 0 < r) (hconfigured : Configured C r calls)
    (hordered : (calls.map Call.now).Pairwise (· ≤ ·))
    (heq : answers .never none calls = earlier ++ s :: later) :
    ((earlier.map Served.pour).map Pour.stamp ++ [s.call.now / 1000 * r]).Pairwise (· ≤ ·) := by
  have hstamps : (earlier.map Served.pour).map Pour.stamp ++ [s.call.now / 1000 * r] =
      (earlier.map fun i => i.call.now).map (· / 1000 * r) ++ [s.call.now].map (· / 1000 * r) := by
    rw [List.map_map, List.map_map, List.map_singleton]
    refine congrArg (· ++ _) (List.map_congr_left fun i hi => ?_)
    simp only [Function.comp, Served.pour, leakRate_of_mem_earlier hconfigured heq hi]
  have hnows : (earlier.map (fun i => i.call.now) ++ [s.call.now]).Pairwise (· ≤ ·) := by
    rw [calls_eq heq, List.map_append, List.map_cons, List.map_map] at hordered
    rw [List.append_cons, List.pairwise_append] at hordered
    exact hordered.1
  rw [hstamps, ← List.map_append]
  refine hnows.map _ fun a b hab => ?_
  exact mul_le_mul_of_nonneg_right (div_le_div_of_nonneg_right hab (by norm_num)) hr.le

/-- **With stamps in order a call is admitted exactly when it conforms.** -/
lemma allowed_iff (hC : 1 ≤ C) (hr : 0 < r) (hconfigured : Configured C r calls)
    (hordered : (calls.map Call.now).Pairwise (· ≤ ·))
    (heq : answers .never none calls = earlier ++ s :: later) :
    s.allowed = true ↔ Conforming C r earlier s.call.now := by
  rw [allowed_iff_reading hconfigured heq, reading_le_iff_of_ordered (by linarith)
    (pours_ordered hr hconfigured hordered heq),
    forall_windows_iff (P := fun later p => p.weight ≠ 0 →
      total (p :: later) - (s.call.now / 1000 * r - p.stamp) ≤ C - 1)]
  refine forall₃_congr fun before i between => forall_congr' fun hearlier => ?_
  have hi : i ∈ earlier := by simp [hearlier]
  rw [weight_ne_zero_iff, window_le_iff (leakRate_of_mem_earlier hconfigured heq hi)]

/-- **An admitted call conforms to every window before it**, whatever the stamps. -/
lemma window_le (hconfigured : Configured C r calls)
    (heq : answers .never none calls = earlier ++ s :: later) (hs : s.allowed = true)
    {before between : List Served} {i : Served} (hearlier : earlier = before ++ i :: between) :
    (admitted (i :: between) : ℚ) + 1 ≤ C + r * (s.call.now - i.call.now) / 1000 := by
  have hreading := (reading_le_iff.mp ((allowed_iff_reading hconfigured heq).mp hs)).2
  rw [forall_windows_iff (P := fun later p =>
    total (p :: later) - (s.call.now / 1000 * r - p.stamp) ≤ C - 1)] at hreading
  have hi : i ∈ earlier := by simp [hearlier]
  exact (window_le_iff (leakRate_of_mem_earlier hconfigured heq hi)).mp
    (hreading before i between hearlier)

end answers

/-- Calls in order find no bucket that is stamped later. -/
lemma lastTime_le_of_ordered {expiry : Expiry} {calls : List Call} {key : Option Key}
    (hkey : ∀ k, key = some k → ∀ c ∈ calls, k.bucket.lastTime ≤ c.now)
    (hordered : (calls.map Call.now).Pairwise (· ≤ ·)) :
    ∀ s ∈ answers expiry key calls, ∀ b, s.stored = some b → b.lastTime ≤ s.call.now := by
  induction calls generalizing key with
  | nil => simp [answers]
  | cons call calls ih =>
      rw [List.map_cons, List.pairwise_cons] at hordered
      rw [answers, List.forall_mem_cons]
      constructor
      · intro b hb
        obtain ⟨k, hk, rfl⟩ := Option.map_eq_some_iff.mp hb
        exact hkey k (Option.filter_eq_some_iff.mp hk).1 call List.mem_cons_self
      · refine ih (fun k hk c hc => ?_) hordered.2
        rw [← Option.some.inj hk, Served.bucket_lastTime]
        exact hordered.1 _ (List.mem_map_of_mem hc)

/-! ## Every run -/

/-- **The leaky bucket admits exactly the conforming requests.**  For any number of identifiers in
any order, for each whose calls are stamped in order and which starts without a bucket. -/
theorem allowed_iff_conforming {C r : ℚ} (hC : 1 ≤ C) (hr : 0 < r) {keys : Keys}
    {calls : List Call} {x : String} (hconfigured : Configured C r (callsOf x calls))
    (hordered : ((callsOf x calls).map Call.now).Pairwise (· ≤ ·))
    (hfresh : keys (bucketKey x) = none) :
    (own x (serve .never keys calls)).map Served.call = callsOf x calls ∧
      ∀ earlier s later, own x (serve .never keys calls) = earlier ++ s :: later →
        (s.allowed = true ↔ Conforming C r earlier s.call.now) ∧ Within C s.key.bucket := by
  rw [own_serve, hfresh]
  refine ⟨map_call_answers, fun earlier s later heq => ?_⟩
  refine ⟨allowed_iff hC hr hconfigured hordered heq, ?_⟩
  have htolerates : ∀ s ∈ answers .never none (callsOf x calls), Tolerates C r s :=
    fun s hs b hb => Or.inl (lastTime_le_of_ordered (by simp) hordered s hs b hb)
  have hin := inOrder_answers hC hr hconfigured (by simp) htolerates s (by simp [heq])
  exact ⟨hin.nonneg, hin.le_capacity⟩

/-- **No window is over-admitted.**  For every window of the calls of an identifier, in the order in
which the scripts run and with any stamps: where the last one is admitted, no more are admitted than
the bucket holds and has leaked between the first stamp and the last. -/
theorem admitted_le {C r : ℚ} {keys : Keys} {calls : List Call} {x : String}
    (hconfigured : Configured C r (callsOf x calls)) (hfresh : keys (bucketKey x) = none)
    {before window after : List Served} {i j : Served}
    (heq : own x (serve .never keys calls) = before ++ window ++ after)
    (hi : window.head? = some i) (hj : window.getLast? = some j) (hallowed : j.allowed = true) :
    (admitted window : ℚ) ≤ C + r * (j.call.now - i.call.now) / 1000 := by
  rw [own_serve, hfresh] at heq
  obtain ⟨inner, rfl⟩ := List.getLast?_eq_some_iff.mp hj
  rw [← List.append_assoc, List.append_assoc, List.singleton_append] at heq
  have hcount : (admitted (inner ++ [j]) : ℚ) = admitted inner + 1 := by
    rw [admitted, List.countP_append, List.countP_singleton, if_pos hallowed]
    push_cast
    rfl
  rw [hcount]
  cases inner with
  | nil =>
      obtain rfl : j = i := by simpa using hi
      have hfits := (allowed_iff_reading hconfigured heq).mp hallowed
      have hnonneg := reading_nonneg (fill ((before ++ []).map Served.pour)) (j.call.now / 1000 * r)
      simp only [admitted, List.countP_nil, sub_self, mul_zero, zero_div]
      push_cast
      linarith
  | cons i' between =>
      obtain rfl : i' = i := by simpa using hi
      exact window_le hconfigured heq hallowed rfl

/-- Five calls on a bucket that holds one: the first fills it, those after half a second and three
quarters find it too full, and those after one second and two are admitted. -/
def fiveCalls : List Call := [callAt 0, callAt 500, callAt 750, callAt 1000, callAt 2000]

theorem allowed_iff_conforming_fiveCalls :
    (own "a" (serve .never noKeys fiveCalls)).map Served.call = callsOf "a" fiveCalls ∧
      ∀ earlier s later, own "a" (serve .never noKeys fiveCalls) = earlier ++ s :: later →
        (s.allowed = true ↔ Conforming 1 1 earlier s.call.now) ∧ Within 1 s.key.bucket :=
  allowed_iff_conforming (by decide) (by decide) (by simp [Configured, callsOf, fiveCalls, callAt])
    (by decide +kernel) rfl

/-- A call on a bucket that holds three. -/
def roomyCallAt (now : ℚ) : Call := { callAt now with capacity := 3 }

/-- Time jumps back between two admitted calls. -/
theorem admitted_le_jumpBack : ∃ i j,
    own "a" (serve .never noKeys [roomyCallAt 1000, roomyCallAt 0]) = [] ++ [i, j] ++ [] ∧
      j.allowed = true ∧ admitted [i, j] = 2 ∧
      (admitted [i, j] : ℚ) ≤ 3 + 1 * (j.call.now - i.call.now) / 1000 := by
  have hconfigured : Configured 3 1 (callsOf "a" [roomyCallAt 1000, roomyCallAt 0]) := by
    simp [Configured, callsOf, roomyCallAt, callAt]
  have hown : own "a" (serve .never noKeys [roomyCallAt 1000, roomyCallAt 0]) =
      [] ++ [⟨roomyCallAt 1000, none⟩, ⟨roomyCallAt 0, some ⟨1, 1000⟩⟩] ++ [] := by
    decide +kernel
  refine ⟨_, _, hown, by decide +kernel, by decide +kernel, ?_⟩
  exact admitted_le hconfigured rfl hown rfl rfl (by decide +kernel)

end RedisApi.RateLimiter
