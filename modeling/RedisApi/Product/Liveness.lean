import RedisApi.Core.Executions
import RedisApi.Product.UseItem

/-!
# Every request ends

What becomes of a `useItem` request in the long run, provided that the calls it awaits settle, in
whatever way, and that time goes on.

* `requestVariant` — every turn of a request brings it closer to its end; it has at most thirteen,
  of which the loop takes nine.
* `turn_comes` — a request that has not ended is kept from its turn only by its back-off, and the
  clock ends that.
* `request_ends` — so it ends, whatever other requests, resets and failures there are.
-/

namespace RedisApi.Product

open Core Machine

/-! ## Turns are bounded -/

/-- The request that an action gives its turn. -/
def Action.request : Action → Option ℕ
  | .resume r | .reject r | .rejectEmit r _ => some r
  | .useItem _ | .getInventory | .resetInventory | .tick => none

/-- It is the turn of request `r`. -/
def turnOf (r : ℕ) (a : Action) : Bool := a.request = some r

/-- How many turns a request has left at most. -/
def Phase.turnsLeft : Phase → ℕ
  | .acquiring attempt => 2 * (lockRetryCount - attempt) + 5
  | .backoff attempt _ => 2 * (lockRetryCount - attempt) + 4
  | .checking _ => 4
  | .releasing _ _ => 3
  | .emitting _ => 2
  | .rollingBack _ => 1
  | .ended _ => 0

/-- The same by its number, before it has arrived as well. -/
def State.turnsLeft (s : State) (r : ℕ) : ℕ :=
  match s.requests[r]? with
  | none => Phase.turnsLeft (.acquiring 1)
  | some q => q.phase.turnsLeft

lemma Transition.turn {redis : Redis} {r : ℕ} {q : Request} {a : Action} {before : Phase}
    {res : Result} (ht : Transition redis r q a before res) :
    a.request = some r ∧ res.2.1.turnsLeft < before.turnsLeft := by
  cases ht with
  | woken due left =>
      refine ⟨rfl, ?_⟩
      simp only [Phase.turnsLeft]
      omega
  | _ => simp [Action.request, Phase.turnsLeft]

/-- **Every turn of request `r` brings it closer to its end**, and nothing else sets it back. -/
def requestVariant (r : ℕ) : product.Variant (turnOf r) where
  rank s := s.turnsLeft r
  step := by
    intro s s' a out hstep
    cases step_cases hstep with
    | arrived correlationId =>
        rw [State.turnsLeft, State.turnsLeft]
        rcases Nat.lt_trichotomy r s.requests.length with hr | rfl | hr
        · rw [List.getElem?_append_left hr]
          simp [turnOf, Action.request]
        · simp [turnOf, Action.request]
        · rw [List.getElem?_eq_none (by rw [List.length_append]; exact hr),
            List.getElem?_eq_none (Nat.le_of_lt hr)]
          simp [turnOf, Action.request]
    | advanced r' q before redis after hadv =>
        have hturn := hadv.transition.turn
        rw [turnOf, hturn.1]
        by_cases hr : r' = r
        · subst hr
          rw [State.turnsLeft, State.turnsLeft, hadv.at_self, hadv.at_r, if_pos (by simp)]
          have hlt := hturn.2
          rw [← hadv.phase] at hlt
          exact hlt
        · rw [State.turnsLeft, State.turnsLeft, hadv.at_other hr]
          simp [hr]
    | read | reset | ticked => simp [State.turnsLeft, turnOf, Action.request]

/-! ## A turn comes -/

/-- Request `r` is in the phase. -/
def State.At (s : State) (r : ℕ) (p : Phase) : Prop := ∃ q, s.requests[r]? = some q ∧ q.phase = p

/-- A request keeps still until it has its turn. -/
lemma State.At.keep {s s' : State} {r : ℕ} {p : Phase} {a : Action} {out : List Output}
    (hs : s.At r p) (ha : turnOf r a = false) (hstep : s.step a = some (s', out)) : s'.At r p := by
  rcases hs with ⟨q, hq, hp⟩
  cases step_cases hstep with
  | arrived correlationId => exact ⟨q, getElem?_append_of_some hq _, hp⟩
  | advanced r' q' before redis after hadv =>
      refine ⟨q, ?_, hp⟩
      rw [hadv.at_other, hq]
      rintro rfl
      simp [turnOf, hadv.transition.turn.1] at ha
  | read | reset | ticked => exact ⟨q, hq, hp⟩

/-- Time does not go back. -/
lemma now_le_of_step {s s' : State} {a : Action} {out : List Output}
    (hstep : s.step a = some (s', out)) :
    s.redis.now + (if a = .tick then 1 else 0) ≤ s'.redis.now := by
  cases step_cases hstep with
  | advanced r q before redis after hadv =>
      have hturn := hadv.transition.turn.1
      rw [hadv.redis_eq, if_neg (by rintro rfl; simp [Action.request] at hturn)]
      cases hadv.transition <;> simp [Redis.increment]
  | ticked => simp [Redis.tick]
  | _ => simp

lemma length_le_of_step {s s' : State} {a : Action} {out : List Output}
    (hstep : s.step a = some (s', out)) : s.requests.length ≤ s'.requests.length := by
  cases step_cases hstep with
  | arrived correlationId => simp
  | advanced r q before redis after hadv => simp [hadv.state]
  | _ => exact Nat.le_refl _

/-- The request can go on: it does not sleep, or its time has come. -/
def Phase.ready (now : ℕ) : Phase → Bool
  | .backoff _ wakeAt => wakeAt ≤ now
  | .ended _ => false
  | _ => true

lemma resume_isSome {s : State} {r : ℕ} {q : Request} (hq : s.requests[r]? = some q)
    (hready : q.phase.ready s.redis.now = true) : (s.step (.resume r)).isSome = true := by
  show (s.advance r _).isSome = true
  rw [State.advance, hq]
  dsimp only
  rw [Option.isSome_map, resume]
  cases hp : q.phase with
  | acquiring attempt =>
      cases hl : s.redis.lock <;> simp [Redis.acquireLock, hl]
  | backoff attempt wakeAt =>
      rw [hp] at hready
      have hdue : wakeAt ≤ s.redis.now := of_decide_eq_true hready
      dsimp only
      rw [if_pos hdue]
      split_ifs <;> rfl
  | releasing token remaining =>
      cases remaining with
      | none => rfl
      | some n =>
          dsimp only
          split_ifs <;> rfl
  | ended outcome =>
      rw [hp] at hready
      exact absurd hready (by simp [Phase.ready])
  | _ => rfl

/-- A request that sleeps has no turn before its time. -/
lemma Transition.ready {redis : Redis} {r : ℕ} {q : Request} {a : Action} {before : Phase}
    {res : Result} (ht : Transition redis r q a before res) : before.ready redis.now = true := by
  cases ht with
  | woken due left => exact decide_eq_true due
  | exhausted due none_left => exact decide_eq_true due
  | _ => rfl

variable {e : product.Execution}

lemma now_mono {t u : ℕ} (htu : t ≤ u) : (e.state t).redis.now ≤ (e.state u).redis.now := by
  induction htu with
  | refl => exact Nat.le_refl _
  | @step u htu ih => exact Nat.le_trans ih (Nat.le_of_add_right_le (now_le_of_step (e.step u)))

/-- Time goes on. -/
lemma now_unbounded (hticks : ∀ t, ∃ u, t ≤ u ∧ e.act u = .tick) (t n : ℕ) :
    ∃ u, t ≤ u ∧ n ≤ (e.state u).redis.now := by
  induction n with
  | zero => exact ⟨t, Nat.le_refl t, Nat.zero_le _⟩
  | succ n ih =>
      rcases ih with ⟨u, htu, hu⟩
      rcases hticks u with ⟨v, huv, hv⟩
      have hmono := now_mono (e := e) huv
      have hstep := now_le_of_step (e.step v)
      rw [hv, if_pos rfl] at hstep
      exact ⟨v + 1, by omega, by omega⟩

/-- A request that has not ended has another turn. -/
lemma turn_comes {r : ℕ} (hfair : e.FairTo (turnOf r))
    (hticks : ∀ t, ∃ u, t ≤ u ∧ e.act u = .tick) {t : ℕ} {p : Phase} (hp : (e.state t).At r p)
    (hrunning : ∀ outcome, p ≠ .ended outcome) : ∃ u, t ≤ u ∧ turnOf r (e.act u) = true := by
  refine hfair.turn_of_eventually fun hidle => ?_
  have hstays : ∀ u, t ≤ u → (e.state u).At r p := by
    intro u htu
    refine e.stays_idle (P := fun s => s.At r p) ?_ hidle hp htu
    intro v hv ha
    exact hv.keep ha (e.step v)
  -- a sleeping request is woken by the clock; the others can go on at once
  have hready : ∃ v, t ≤ v ∧ ∀ u, v ≤ u → p.ready (e.state u).redis.now = true := by
    cases p with
    | backoff attempt wakeAt =>
        rcases now_unbounded hticks t wakeAt with ⟨v, htv, hv⟩
        refine ⟨v, htv, fun u hvu => decide_eq_true ?_⟩
        exact Nat.le_trans hv (now_mono hvu)
    | ended outcome => exact absurd rfl (hrunning outcome)
    | _ => exact ⟨t, Nat.le_refl t, fun _ _ => rfl⟩
  rcases hready with ⟨v, htv, hv⟩
  refine ⟨v, htv, fun u hvu => ?_⟩
  rcases hstays u (Nat.le_trans htv hvu) with ⟨q, hq, rfl⟩
  exact ⟨.resume r, by simp [turnOf, Action.request], resume_isSome hq (hv u hvu)⟩

/-! ## A request ends -/

/-- Requests that have arrived are there. -/
lemma length_mono {t u : ℕ} (htu : t ≤ u) :
    (e.state t).requests.length ≤ (e.state u).requests.length := by
  induction htu with
  | refl => exact Nat.le_refl _
  | @step u htu ih => exact Nat.le_trans ih (length_le_of_step (e.step u))

/-- A request that has ended keeps its outcome. -/
lemma State.At.ended_stays {r : ℕ} {outcome : Outcome} {t u : ℕ} (htu : t ≤ u)
    (ht : (e.state t).At r (.ended outcome)) : (e.state u).At r (.ended outcome) := by
  induction htu with
  | refl => exact ht
  | @step u htu ih =>
      cases hturn : turnOf r (e.act u) with
      | false => exact ih.keep hturn (e.step u)
      | true =>
          -- it has no turn left
          have hrank := (requestVariant r).step (e.step u)
          rcases ih with ⟨q, hq, hp⟩
          have hzero : (requestVariant r).rank (e.state u) = 0 := by
            simp [requestVariant, State.turnsLeft, hq, hp, Phase.turnsLeft]
          rw [hturn, if_pos rfl, hzero] at hrank
          omega

/-- **Every request ends**, at the latest with its thirteenth turn, and its outcome stands: whatever
the other requests, readers and resets do, and whatever fails, if the calls it awaits settle and
time goes on. -/
theorem request_ends {redis : Redis} (h0 : e.state 0 = State.start redis) {r : ℕ}
    (hfair : e.FairTo (turnOf r)) (hticks : ∀ t, ∃ u, t ≤ u ∧ e.act u = .tick) {t : ℕ}
    (ht : r < (e.state t).requests.length) :
    (∃ outcome u, ∀ v, u ≤ v → (e.state v).At r (.ended outcome)) ∧
      ∀ u, (List.range u).countP (fun k => turnOf r (e.act k)) ≤ 13 := by
  constructor
  · have hthere : ∀ u, t ≤ u → ∃ p, (e.state u).At r p := by
      intro u htu
      have hlt := Nat.lt_of_lt_of_le ht (length_mono htu)
      exact ⟨_, (e.state u).requests[r], List.getElem?_eq_getElem hlt, rfl⟩
    have hends : ∃ u, t ≤ u ∧ ∃ outcome, (e.state u).At r (.ended outcome) := by
      refine (requestVariant r).eventually (D := fun s => ∃ outcome, s.At r (.ended outcome)) ?_
      intro u htu hrunning
      rcases hthere u htu with ⟨p, hp⟩
      refine turn_comes hfair hticks hp ?_
      rintro outcome rfl
      exact hrunning ⟨outcome, hp⟩
    rcases hends with ⟨u, -, outcome, hu⟩
    exact ⟨outcome, u, fun v huv => hu.ended_stays huv⟩
  · intro u
    have hle := (requestVariant r).countP_range_add_le e u
    have hfirst : (requestVariant r).rank (e.state 0) = 13 := by
      rw [h0]
      rfl
    omega

/-! ## A fair execution -/

/-- Let a request arrive, take it to its end, and let time pass whenever it sleeps, and after it. -/
def attend (s : State) : Action :=
  match s.requests[0]? with
  | none => .useItem "0"
  | some q => if q.phase.ready s.redis.now then .resume 0 else .tick

lemma attend_isSome (s : State) : (s.step (attend s)).isSome = true := by
  rw [attend]
  cases hq : s.requests[0]? with
  | none => rfl
  | some q =>
      dsimp only
      split_ifs with hready
      · exact resume_isSome hq hready
      · rfl

def attended (redis : Redis) : product.Execution :=
  Execution.ofStrategy product attend attend_isSome (State.start redis)

lemma attended_fair (redis : Redis) : (attended redis).FairTo (turnOf 0) := by
  intro t henabled
  rcases henabled t (Nat.le_refl t) with ⟨a, ha, hstep⟩
  rcases Option.isSome_iff_exists.mp hstep with ⟨⟨s', out⟩, hstep⟩
  have hrequest : a.request = some 0 := of_decide_eq_true ha
  refine ⟨t, Nat.le_refl t, ?_⟩
  show turnOf 0 (attend ((attended redis).state t)) = true
  cases step_cases hstep with
  | advanced r q before redis' after hadv =>
      obtain rfl : r = 0 := Option.some.inj (hadv.transition.turn.1.symm.trans hrequest)
      have hready := hadv.transition.ready
      rw [← hadv.phase] at hready
      simp [attend, hadv.at_r, hready, turnOf, Action.request]
  | _ => exact absurd hrequest (by simp [Action.request])

lemma attended_ticks (redis : Redis) (t : ℕ) :
    ∃ u, t ≤ u ∧ (attended redis).act u = .tick := by
  refine (requestVariant 0).eventually (e := attended redis) (D := fun s => attend s = .tick) ?_
  intro u _ hbusy
  have hact : ∀ v, (attended redis).act v = attend ((attended redis).state v) := fun v => rfl
  cases hq : ((attended redis).state u).requests[0]? with
  | none =>
      -- the request arrives, and has its first turn next
      have hempty : ((attended redis).state u).requests = [] := by simpa using hq
      have hstep := (attended redis).step u
      rw [hact, attend, hq] at hstep
      have hnext : ((attended redis).state (u + 1)).requests = _ :=
        congrArg (fun r => r.1.requests) (Option.some.inj hstep).symm
      refine ⟨u + 1, Nat.le_succ u, ?_⟩
      rw [hact, attend, hnext, hempty]
      rfl
  | some q =>
      refine ⟨u, Nat.le_refl u, ?_⟩
      rw [hact]
      rw [attend, hq] at hbusy ⊢
      dsimp only at hbusy ⊢
      split_ifs at hbusy ⊢
      · simp [turnOf, Action.request]
      · exact absurd rfl hbusy

/-- Redis while somebody else's lock is set. -/
def foreignLock : Redis where
  inventory := none
  lock := some { token := { request := 1, attempt := 1 }, expiresAt := 300 }
  now := 0

theorem request_ends_attended : ((attended foreignLock).state 1).requests.length = 1 ∧
    (∃ outcome u, ∀ v, u ≤ v → ((attended foreignLock).state v).At 0 (.ended outcome)) ∧
      ∀ u, (List.range u).countP (fun k => turnOf 0 ((attended foreignLock).act k)) ≤ 13 := by
  have harrived : 0 < ((attended foreignLock).state 1).requests.length := by decide
  exact ⟨rfl, request_ends rfl (attended_fair _) (attended_ticks _) harrived⟩

end RedisApi.Product
