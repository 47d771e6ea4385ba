import RedisApi.Http.Service
import RedisApi.RateLimiter.Admission
import RedisApi.RateLimiter.KeyExpiry

/-!
# The limiter in front of the service

All requests below `auth` and `product` that come from one address share one bucket, whatever they
ask for and whatever becomes of them behind the limiter.

* `requestsOf` — the limited requests of an identifier, in the order of the limiter's script.
* `requestsOf_answers` — they get the answers that the bucket gives to their calls.
* `passed_window_le` — so no window of them is over-admitted, with the constants of the middleware.
-/

namespace RedisApi.Http

open Core RateLimiter

/-! ## The calls of the limiter -/

/-- The call that the middleware makes for a request. -/
def callOf (req : Request) : Call where
  identifier := req.ip.getD "unknown"
  capacity := RateLimiter.capacity
  leakRate := RateLimiter.leakRate
  now := req.now

/-- The limiter was asked about the request. -/
def Exchange.limited (x : Exchange) : Bool := x.request.route.limited

/-- The limiter has not answered the request. -/
def Exchange.passed (x : Exchange) : Bool :=
  match x.outcome with
  | .error (.tooManyRequests _) => false
  | _ => true

def limitedExchanges (h : List Output) : List Exchange := (exchanges h).filter Exchange.limited

/-- The requests of an identifier that the limiter was asked about. -/
def requestsOf (x : String) (h : List Output) : List Exchange :=
  (limitedExchanges h).filter fun e => (callOf e.request).identifier = x

/-- The calls so far. -/
def callsSoFar (h : List Output) : List Call :=
  (limitedExchanges h).map fun e => callOf e.request

/-- The keys after some calls. -/
def keysAfter (expiry : Expiry) (keys : Keys) (calls : List Call) : Keys :=
  calls.foldl (fun keys call => (leakyBucket expiry keys call).1) keys

lemma serve_concat (expiry : Expiry) (keys : Keys) (calls : List Call) (call : Call) :
    serve expiry keys (calls ++ [call]) =
      serve expiry keys calls ++ [(leakyBucket expiry (keysAfter expiry keys calls) call).2] := by
  induction calls generalizing keys with
  | nil => rfl
  | cons first calls ih =>
      rw [List.cons_append, serve, serve]
      dsimp only
      rw [ih]
      rfl

lemma keysAfter_concat (expiry : Expiry) (keys : Keys) (calls : List Call) (call : Call) :
    keysAfter expiry keys (calls ++ [call]) =
      (leakyBucket expiry (keysAfter expiry keys calls) call).1 := by
  rw [keysAfter, List.foldl_append]
  rfl

/-! ## One request -/

/-- Behind the limiter nothing is answered in its name. -/
lemma jwtAuthGuard_ne {cfg : Config} {req : Request} {level : ℚ} :
    jwtAuthGuard cfg req ≠ .error (.tooManyRequests level) := by
  rw [jwtAuthGuard]
  split_ifs
  · simp
  · split <;> simp

lemma rolesGuard_ne {cfg : Config} {route : Route} {user : Option EcmaScript.JsonObject}
    {level : ℚ} : rolesGuard cfg route user ≠ .error (.tooManyRequests level) := by
  rw [rolesGuard.eq_def]
  split <;> split <;> simp

lemma bindBody_ne {cfg : Config} {req : Request} {id : String} {level : ℚ} :
    bindBody cfg req id ≠ .error (.tooManyRequests level) := by
  rw [bindBody.eq_def]
  split
  · simp
  · split <;> simp
  · split <;> simp
  · simp
  · simp
  · simp

lemma passed_of_next {cfg : Config} {keys : Keys} {req : Request} {uuid : String}
    (hnext : (rateLimit cfg keys req).2 = .next) :
    Exchange.passed ⟨req, uuid, (handle cfg keys req uuid).2⟩ = true := by
  rw [handle]
  cases hlimit : rateLimit cfg keys req with
  | mk keys' handling =>
      rw [hlimit] at hnext
      subst hnext
      rw [Exchange.passed]
      dsimp only
      split
      · next level heq =>
        exfalso
        cases hjwt : jwtAuthGuard cfg req with
        | error e =>
            simp only [hjwt, bind, Except.bind] at heq
            exact jwtAuthGuard_ne (hjwt.trans (congrArg _ (Except.error.inj heq)))
        | ok user =>
            cases hguard : rolesGuard cfg req.route user with
            | error e =>
                simp only [hjwt, hguard, bind, Except.bind] at heq
                exact rolesGuard_ne (hguard.trans (congrArg _ (Except.error.inj heq)))
            | ok _ =>
                simp only [hjwt, hguard, bind, Except.bind] at heq
                exact bindBody_ne heq
      · rfl

/-- **A limited request**: the script runs for its call, and it passes exactly if the call is
admitted. -/
lemma handle_limited {cfg : Config} {keys : Keys} {req : Request} {uuid : String}
    (hlimited : req.route.limited = true) :
    (handle cfg keys req uuid).1 = (leakyBucket cfg.expiry keys (callOf req)).1 ∧
      Exchange.passed ⟨req, uuid, (handle cfg keys req uuid).2⟩ =
        (leakyBucket cfg.expiry keys (callOf req)).2.allowed := by
  have hlimit : rateLimit cfg keys req = RateLimiter.use cfg.expiry keys req.ip req.now :=
    if_pos hlimited
  have huse : RateLimiter.use cfg.expiry keys req.ip req.now =
      ((leakyBucket cfg.expiry keys (callOf req)).1,
        if !(leakyBucket cfg.expiry keys (callOf req)).2.allowed then
          .json 429 "Too Many Requests" (leakyBucket cfg.expiry keys (callOf req)).2.reply.level
        else .next) := rfl
  cases hallowed : (leakyBucket cfg.expiry keys (callOf req)).2.allowed with
  | true =>
      rw [hallowed] at huse
      have hnext : rateLimit cfg keys req = (_, Handling.next) := hlimit.trans huse
      refine ⟨?_, passed_of_next (congrArg Prod.snd hnext)⟩
      rw [handle, hnext]
  | false =>
      rw [hallowed] at huse
      have hjson : rateLimit cfg keys req = (_, Handling.json _ _ _) := hlimit.trans huse
      rw [handle, hjson]
      exact ⟨rfl, rfl⟩

lemma handle_unlimited {cfg : Config} {keys : Keys} {req : Request} {uuid : String}
    (hlimited : req.route.limited = false) : (handle cfg keys req uuid).1 = keys := by
  simp [handle, rateLimit, hlimited]

/-! ## Every run -/

/-- **The keys of the limiter and its answers are those of the calls so far.** -/
structure Limited (cfg : Config) (keys : Keys) (h : List Output) (s : Service) : Prop where
  keys_eq : s.keys = keysAfter cfg.expiry keys (callsSoFar h)
  answers : (limitedExchanges h).map Exchange.passed =
    (serve cfg.expiry keys (callsSoFar h)).map Served.allowed

lemma limitedExchanges_append (h out : List Output) :
    limitedExchanges (h ++ out) = limitedExchanges h ++ limitedExchanges out := by
  rw [limitedExchanges, exchanges_append, List.filter_append]
  rfl

lemma callsSoFar_append (h out : List Output) :
    callsSoFar (h ++ out) = callsSoFar h ++ callsSoFar out := by
  rw [callsSoFar, limitedExchanges_append, List.map_append]
  rfl

/-- A step without an exchange. -/
lemma Limited.quiet {cfg : Config} {keys : Keys} {h out : List Output} {s s' : Service}
    (hs : Limited cfg keys h s) (hout : exchanges out = []) (hkeys : s'.keys = s.keys) :
    Limited cfg keys (h ++ out) s' := by
  have hnone : limitedExchanges out = [] := by rw [limitedExchanges, hout]; rfl
  have hcalls : callsSoFar (h ++ out) = callsSoFar h := by
    rw [callsSoFar, limitedExchanges_append, hnone, List.append_nil]
    rfl
  refine ⟨?_, ?_⟩
  · rw [hkeys, hcalls]
    exact hs.keys_eq
  · rw [limitedExchanges_append, hnone, List.append_nil, hcalls]
    exact hs.answers

/-- A step with one. -/
lemma Limited.exchange {cfg : Config} {keys : Keys} {h out : List Output} {s s' : Service}
    {req : Request} {uuid : String} {outcome : Except Rejection Handler}
    (hs : Limited cfg keys h s) (houtcome : (handle cfg s.keys req uuid).2 = outcome)
    (hout : exchanges out = [⟨req, uuid, outcome⟩])
    (hkeys : s'.keys = (handle cfg s.keys req uuid).1) : Limited cfg keys (h ++ out) s' := by
  subst houtcome
  cases hlimited : req.route.limited with
  | false =>
      have hnone : limitedExchanges out = [] := by
        rw [limitedExchanges, hout]
        simp [Exchange.limited, hlimited]
      have hcalls : callsSoFar (h ++ out) = callsSoFar h := by
        rw [callsSoFar, limitedExchanges_append, hnone, List.append_nil]
        rfl
      refine ⟨?_, ?_⟩
      · rw [hkeys, handle_unlimited hlimited, hcalls]
        exact hs.keys_eq
      · rw [limitedExchanges_append, hnone, List.append_nil, hcalls]
        exact hs.answers
  | true =>
      have hone : limitedExchanges out = [⟨req, uuid, (handle cfg s.keys req uuid).2⟩] := by
        rw [limitedExchanges, hout]
        simp [Exchange.limited, hlimited]
      have hcalls : callsSoFar (h ++ out) = callsSoFar h ++ [callOf req] := by
        rw [callsSoFar_append, callsSoFar, callsSoFar, hone]
        rfl
      have hhandled := @handle_limited cfg s.keys req uuid hlimited
      refine ⟨?_, ?_⟩
      · rw [hkeys, hcalls, keysAfter_concat, ← hs.keys_eq]
        exact hhandled.1
      · rw [limitedExchanges_append, hone, List.map_append, hs.answers, hcalls, serve_concat,
          List.map_append, ← hs.keys_eq, List.map_singleton, List.map_singleton, hhandled.2]

theorem Limited.step {cfg : Config} {o : KafkaOptions} {keys : Keys} {h : List Output}
    {s s' : Service} {a : Action} {out : List Output} (hs : Limited cfg keys h s)
    (hstep : s.step cfg o a = some (s', out)) : Limited cfg keys (h ++ out) s' := by
  cases step_cases hstep with
  | rejected houtcome => exact hs.exchange houtcome rfl rfl
  | handled houtcome hproduct hauth => exact hs.exchange houtcome rfl rfl
  | @begun req uuid handler a p out houtcome hproduct hauth hpipeline =>
      exact hs.exchange houtcome (congrArg (_ :: ·) (outputs_map_pipeline out).1) rfl
  | called houtcome hproduct hauth => exact hs.exchange houtcome rfl rfl
  | @pipeline a p out hgoes hpipeline => exact hs.quiet (outputs_map_pipeline out).1 rfl
  | @auth a p out hgoes hauth => exact hs.quiet (outputs_map_auth out).1 rfl

lemma limited_of_reaches {cfg : Config} {o : KafkaOptions} {keys : Keys} {redis : Product.Redis}
    {stores : Auth.Stores} {h : List Output} {s : Service}
    (hr : (service cfg o).Reaches (Service.start keys redis stores) h s) :
    Limited cfg keys h s := by
  refine hr.invariant (I := Limited cfg keys) ?_ ?_
  · exact ⟨rfl, rfl⟩
  · rintro h s a s' out - hs hstep
    exact hs.step hstep

/-! ## One identifier -/

/-- What two functions read of two lists, read together. -/
lemma map_pair_eq {α β γ δ : Type} {l : List α} {l' : List β} {f : α → γ} {f' : β → γ}
    {g : α → δ} {g' : β → δ} (hf : l.map f = l'.map f') (hg : l.map g = l'.map g') :
    l.map (fun x => (f x, g x)) = l'.map fun x => (f' x, g' x) := by
  rw [← List.zip_map', ← List.zip_map', hf, hg]

lemma map_call_serve (expiry : Expiry) (keys : Keys) (calls : List Call) :
    (serve expiry keys calls).map Served.call = calls := by
  induction calls generalizing keys with
  | nil => rfl
  | cons call calls ih => exact congrArg (call :: ·) (ih _)

/-- The requests of an identifier with their answers, as its own bucket gives them. -/
lemma requestsOf_answers {cfg : Config} {keys : Keys} {h : List Output} {s : Service}
    (hs : Limited cfg keys h s) (x : String) :
    (requestsOf x h).map (fun e => (callOf e.request, e.passed)) =
      (answers cfg.expiry (keys (bucketKey x)) (callsOf x (callsSoFar h))).map
        fun s => (s.call, s.allowed) := by
  have hall : (limitedExchanges h).map (fun e => (callOf e.request, e.passed)) =
      (serve cfg.expiry keys (callsSoFar h)).map fun s => (s.call, s.allowed) := by
    refine map_pair_eq ?_ hs.answers
    rw [map_call_serve]
    rfl
  have hown := congrArg (List.filter fun p : Call × Bool => p.1.identifier = x) hall
  rw [List.filter_map, List.filter_map] at hown
  rw [← own_serve]
  exact hown

/-- All calls of the service are made with the constants of the middleware. -/
lemma configured_callsSoFar (x : String) (h : List Output) :
    Configured RateLimiter.capacity RateLimiter.leakRate (callsOf x (callsSoFar h)) := by
  intro c hc
  rcases List.mem_map.mp (List.mem_filter.mp hc).1 with ⟨e, -, rfl⟩
  exact ⟨rfl, rfl⟩

/-- The stamps of its calls. -/
lemma stamps_callsOf (x : String) (h : List Output) :
    (callsOf x (callsSoFar h)).map Call.now = (requestsOf x h).map fun e => e.request.now := by
  rw [callsOf, callsSoFar, List.filter_map, List.map_map]
  rfl

/-- The requests of an identifier that starts without a bucket: expiry changes no answer, if their
stamps are in order. -/
lemma requestsOf_answers_never {cfg : Config} {keys : Keys} {h : List Output} {s : Service}
    (hs : Limited cfg keys h s) {x : String} (hfresh : keys (bucketKey x) = none)
    (hclock : cfg.expiry = .never ∨
      ((requestsOf x h).map fun e => e.request.now).Pairwise (· ≤ ·)) :
    (requestsOf x h).map (fun e => (callOf e.request, e.passed)) =
      (answers .never none (callsOf x (callsSoFar h))).map fun s => (s.call, s.allowed) := by
  rw [requestsOf_answers hs x, hfresh]
  cases hexpiry : cfg.expiry with
  | never => rfl
  | sharedClock =>
      have hordered : ((callsOf x (callsSoFar h)).map Call.now).Pairwise (· ≤ ·) := by
        rw [stamps_callsOf]
        rcases hclock with hc | hc
        · exact absurd (hexpiry.symm.trans hc) (by simp)
        · exact hc
      have hnone : ∀ k, (none : Option Key) = some k → Tracked RateLimiter.capacity
          RateLimiter.leakRate (callsOf x (callsSoFar h)) k := by simp
      have hreplies := reply_answers (by decide) (by decide) (configured_callsSoFar x h) hordered
        hnone
      refine map_pair_eq (by rw [map_call_answers, map_call_answers]) ?_
      have hallowed := congrArg (List.map Reply.allowed) hreplies
      rw [List.map_map, List.map_map] at hallowed
      exact hallowed

/-- Requests and calls with the same answers: as many pass as are admitted. -/
lemma countP_passed_eq {es : List Exchange} {ss : List Served}
    (h : ss.map (fun s => (s.call, s.allowed)) = es.map fun e => (callOf e.request, e.passed)) :
    es.countP Exchange.passed = admitted ss := by
  have hcount := congrArg (List.countP Prod.snd) h
  rw [List.countP_map, List.countP_map] at hcount
  exact hcount.symm

section windows

variable {cfg : Config} {o : KafkaOptions} {keys : Keys} {redis : Product.Redis}
  {stores : Auth.Stores} {h : List Output} {s : Service}

/-- A window that ends with a request that passes, of two requests or more. -/
lemma passed_between_le (hr : (service cfg o).Reaches (Service.start keys redis stores) h s)
    {x : String} (hfresh : keys (bucketKey x) = none)
    (hclock : cfg.expiry = .never ∨
      ((requestsOf x h).map fun e => e.request.now).Pairwise (· ≤ ·))
    {before between after : List Exchange} {i j : Exchange}
    (heq : requestsOf x h = before ++ (i :: between ++ [j]) ++ after)
    (hpassed : j.passed = true) :
    ((i :: between ++ [j]).countP Exchange.passed : ℚ) ≤
      100 + 50 * (j.request.now - i.request.now) / 1000 := by
  have hanswers := requestsOf_answers_never (limited_of_reaches hr) hfresh hclock
  have hsplit : before ++ (i :: between ++ [j]) ++ after =
      (before ++ i :: between) ++ j :: after := by simp
  rw [heq, hsplit, List.map_append, List.map_cons] at hanswers
  -- the same window among the calls of the bucket
  rcases List.map_eq_append_iff.mp hanswers.symm with ⟨earlier, rest, hcalls, hearlier, hrest⟩
  rcases List.map_eq_cons_iff.mp hrest with ⟨last, later, rfl, hlast, -⟩
  rw [List.map_append, List.map_cons] at hearlier
  rcases List.map_eq_append_iff.mp hearlier with ⟨first, middle, rfl, -, hmiddle⟩
  rcases List.map_eq_cons_iff.mp hmiddle with ⟨head, inside, rfl, hhead, -⟩
  rw [Prod.mk.injEq] at hlast hhead
  have hcount := @countP_passed_eq (i :: between) _ hmiddle
  have hle := window_le (configured_callsSoFar x h) hcalls (hlast.2.trans hpassed) rfl
  rw [← hcount, hlast.1, hhead.1] at hle
  rw [List.countP_append, List.countP_singleton, if_pos hpassed]
  push_cast
  exact hle

/-- **No window of traffic is over-admitted.**  In every reachable state of the service, for every
identifier (an address, or `unknown`) that started without a bucket: of the requests below `auth`
and `product` that come from it, in the order in which the limiter has seen them, no window that
ends with one that passes holds more that pass than 100 and 50 for each second between the first
stamp and the last.  Those that the guards or the pipe turn away count as well.  This is in exact
rational arithmetic, and where keys expire it is about requests in the order of their stamps. -/
theorem passed_window_le (hr : (service cfg o).Reaches (Service.start keys redis stores) h s)
    {x : String} (hfresh : keys (bucketKey x) = none)
    (hclock : cfg.expiry = .never ∨
      ((requestsOf x h).map fun e => e.request.now).Pairwise (· ≤ ·))
    {before window after : List Exchange} {i j : Exchange}
    (heq : requestsOf x h = before ++ window ++ after) (hi : window.head? = some i)
    (hj : window.getLast? = some j) (hpassed : j.passed = true) :
    (window.countP Exchange.passed : ℚ) ≤ 100 + 50 * (j.request.now - i.request.now) / 1000 := by
  rcases List.getLast?_eq_some_iff.mp hj with ⟨inner, rfl⟩
  cases inner with
  | nil =>
      obtain rfl : j = i := by simpa using hi
      simp [hpassed]
  | cons i' between =>
      obtain rfl : i' = i := by simpa using hi
      exact passed_between_le hr hfresh hclock heq hpassed

end windows

/-- Nobody has a token. -/
def noTokens : Config where
  provider := .keycloak
  verify _ := none
  pipe := decorators { length := List.length, isEmail := fun _ => true }
  expiry := .sharedClock

/-- A request without a token. -/
def anonymousAt (now : ℚ) : Action :=
  .request
    { route := .useItem, ip := some "10.0.0.1", correlationId := none, authorization := none,
      body := [], now := now } "u"

/-- A hundred requests fill the bucket, one more is turned away, and after 20 ms there is room for
another.  The guards turn away all that pass. -/
theorem passed_window_le_anonymous : ∃ s h i j,
    (service noTokens bootstrapOptions).run
        (Service.start (fun _ => none) ⟨none, none, 0⟩ Auth.Stores.empty)
        (List.replicate 101 (anonymousAt 0) ++ [anonymousAt 20]) = some (s, h) ∧
      (requestsOf "10.0.0.1" h).head? = some i ∧ (requestsOf "10.0.0.1" h).getLast? = some j ∧
      (requestsOf "10.0.0.1" h).countP Exchange.passed = 101 ∧
      100 + 50 * (j.request.now - i.request.now) / 1000 = 101 ∧
      ((requestsOf "10.0.0.1" h).countP Exchange.passed : ℚ) ≤
        100 + 50 * (j.request.now - i.request.now) / 1000 := by
  have hruns : ((service noTokens bootstrapOptions).run
      (Service.start (fun _ => none) ⟨none, none, 0⟩ Auth.Stores.empty)
      (List.replicate 101 (anonymousAt 0) ++ [anonymousAt 20])).any (fun r =>
        decide ((requestsOf "10.0.0.1" r.2).countP Exchange.passed = 101 ∧
          (requestsOf "10.0.0.1" r.2).head?.map (fun e => e.request.now) = some 0 ∧
          (requestsOf "10.0.0.1" r.2).getLast?.map (fun e => (e.request.now, e.passed)) =
            some (20, true) ∧
          ((requestsOf "10.0.0.1" r.2).map fun e => e.request.now).Pairwise (· ≤ ·))) = true := by
    decide +kernel
  rcases (Option.any_eq_true _ _).mp hruns with ⟨⟨s, h⟩, hrun, hend⟩
  rcases of_decide_eq_true hend with ⟨hcount, hfirst, hlast, hordered⟩
  rcases Option.map_eq_some_iff.mp hfirst with ⟨i, hi, hinow⟩
  rcases Option.map_eq_some_iff.mp hlast with ⟨j, hj, hjnow⟩
  rw [Prod.mk.injEq] at hjnow
  refine ⟨s, h, i, j, hrun, hi, hj, hcount, ?_, ?_⟩
  · rw [hinow, hjnow.1]
    norm_num
  · have hwhole : requestsOf "10.0.0.1" h = [] ++ requestsOf "10.0.0.1" h ++ [] := by simp
    exact passed_window_le (Machine.reaches_of_run hrun) rfl (Or.inr hordered) hwhole hi hj hjnow.2

end RedisApi.Http
