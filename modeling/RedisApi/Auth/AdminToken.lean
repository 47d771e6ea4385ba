import RedisApi.Auth.NoFalseNegatives
import Mathlib.Tactic.Linarith

/-!
# The cached admin token

`getAdminToken` takes the time before the fetch and reckons the expiry of the token from there.
Keycloak issues the token later, so what is cached errs on the safe side; and a pair is cached as a
whole, so an older response that overwrites a newer one does no harm.

* `Responded` — what Keycloak has answered to the fetch of a call.
* `Response`, `Cached` — the token of a response, under way or in the cache, with its true expiry.
* `TokensKnown` — what holds of all fetches, of the cache and of every token taken from it.
* `cached_token_valid` — over every run: the cached pair stems from one response, and a token taken
  from the cache has more than ten seconds left.
-/

namespace RedisApi.Auth

open Core EcmaScript

/-! ## Responses -/

/-- Keycloak has answered call `c`, whose fetch began at `start`: at `issuedAt` it issued the token
`value`, which is valid for `expiresIn` seconds. -/
def Responded (stores : Stores) (as : List Action) (c start issuedAt value : ℕ) (expiresIn : ℚ) :
    Prop :=
  ∃ before after s h q, as = before ++ .issueToken c expiresIn :: after ∧
    auth.run (State.start stores) before = some (s, h) ∧ s.calls[c]? = some q ∧
    q.phase = .fetchingToken start ∧ s.stores.now = issuedAt ∧ s.stores.tokens.length = value

/-- The response to call `c`, and the true expiry of its token. -/
def Response (stores : Stores) (as : List Action) (tokens : List ℚ) (c start value : ℕ)
    (expiresIn : ℚ) : Prop :=
  ∃ issuedAt, start ≤ issuedAt ∧ Responded stores as c start issuedAt value expiresIn ∧
    tokens[value]? = some (issuedAt + expiresIn * 1000)

/-- Both parts of the cached pair stem from one response, which has arrived. -/
def Cached (stores : Stores) (as : List Action) (tokens : List ℚ) (token : AdminToken) : Prop :=
  ∃ c start expiresIn, Response stores as tokens c start token.value expiresIn ∧
    .tokenArrives c ∈ as ∧ token.expiresAt = start + expiresIn * 1000

/-- Where a call stands with its fetch. -/
def FetchKnown (stores : Stores) (as : List Action) (st : Stores) (c : ℕ) : Phase → Prop
  | .fetchingToken start => start ≤ st.now
  | .tokenIssued start value expiresIn => Response stores as st.tokens c start value expiresIn
  | _ => True

/-- The token is valid beyond the time `t`. -/
def ValidBeyond (tokens : List ℚ) (value : ℕ) (t : ℚ) : Prop :=
  ∃ expiry, tokens[value]? = some expiry ∧ t < expiry

section mono

variable {stores st st' : Stores} {as : List Action} {tokens tokens' : List ℚ} {c value : ℕ}

lemma Response.mono {start : ℕ} {expiresIn : ℚ}
    (h : Response stores as tokens c start value expiresIn) (htokens : tokens <+: tokens')
    (a : Action) : Response stores (as ++ [a]) tokens' c start value expiresIn := by
  obtain ⟨issuedAt, hstart, ⟨before, after, s, h', q, heq, hresponded⟩, hexpiry⟩ := h
  refine ⟨issuedAt, hstart, ⟨before, after ++ [a], s, h', q, ?_, hresponded⟩,
    getElem?_of_prefix htokens hexpiry⟩
  rw [heq, List.append_assoc, List.cons_append]

lemma Cached.mono {token : AdminToken} (h : Cached stores as tokens token)
    (htokens : tokens <+: tokens') (a : Action) : Cached stores (as ++ [a]) tokens' token := by
  obtain ⟨c, start, expiresIn, hresponse, harrived, hexpires⟩ := h
  exact ⟨c, start, expiresIn, hresponse.mono htokens a, List.mem_append_left _ harrived, hexpires⟩

lemma FetchKnown.mono {phase : Phase} (h : FetchKnown stores as st c phase)
    (htokens : st.tokens <+: st'.tokens) (hnow : st.now ≤ st'.now) (a : Action) :
    FetchKnown stores (as ++ [a]) st' c phase := by
  cases phase with
  | fetchingToken start => exact le_trans h hnow
  | tokenIssued start value expiresIn => exact Response.mono h htokens a
  | _ => trivial

lemma ValidBeyond.mono {t : ℚ} (h : ValidBeyond tokens value t) (htokens : tokens <+: tokens') :
    ValidBeyond tokens' value t := by
  obtain ⟨expiry, hexpiry, ht⟩ := h
  exact ⟨expiry, getElem?_of_prefix htokens hexpiry, ht⟩

end mono

/-- **The cached expiry is no later than the true one**: it is reckoned from an earlier time. -/
lemma Cached.expiresAt_le {stores : Stores} {as : List Action} {tokens : List ℚ}
    {token : AdminToken} (h : Cached stores as tokens token) :
    ∃ expiry, tokens[token.value]? = some expiry ∧ token.expiresAt ≤ expiry := by
  obtain ⟨c, start, expiresIn, ⟨issuedAt, hstart, -, hexpiry⟩, -, hexpires⟩ := h
  refine ⟨_, hexpiry, ?_⟩
  rw [hexpires]
  have hcast : (start : ℚ) ≤ issuedAt := Nat.cast_le.mpr hstart
  linarith

/-! ## Transitions -/

section transitions

variable {stores st st' : Stores} {as : List Action} {c : ℕ} {q q' : CallState} {a : Action}
  {out : List Output}

/-- Tokens are only ever issued, and time does not pass meanwhile. -/
lemma Transition.tokens_prefix (h : Transition st c q a (st', q', out)) :
    st.tokens <+: st'.tokens ∧ st'.now = st.now := by
  cases h with
  | executed =>
      rw [Stores.execute_tokens, Stores.execute_now]
      exact ⟨List.prefix_refl _, rfl⟩
  | @rejected j cmd applied =>
      cases applied with
      | false => exact ⟨List.prefix_refl _, rfl⟩
      | true =>
          rw [if_pos rfl, Stores.execute_tokens, Stores.execute_now]
          exact ⟨List.prefix_refl _, rfl⟩
  | issued => exact ⟨List.prefix_append _ _, rfl⟩
  | abandoned | looked | taken | called | added | registered | arrived | created | lost | fetched
  | assigned | failed => exact ⟨List.prefix_refl _, rfl⟩

/-- A fetch that begins takes the time. -/
lemma getAdminToken_fetchKnown (st : Stores) (c : ℕ) :
    FetchKnown stores as st c (getAdminToken st c).1 := by
  rw [getAdminToken]
  split
  · exact le_refl _
  · split_ifs
    · trivial
    · exact le_refl _

/-- A token that `getAdminToken` takes from the cache is more than ten seconds from its expiry. -/
lemma getAdminToken_served {c' value atMs : ℕ}
    (ho : .tokenFromCache c' value atMs ∈ (getAdminToken st c).2) :
    ∃ token, st.adminToken = some token ∧ token.value = value ∧
      (atMs : ℚ) + 10000 < token.expiresAt := by
  rw [getAdminToken] at ho
  split at ho
  · exact absurd ho (by simp)
  · next token htoken =>
    split_ifs at ho with hleft
    · obtain ⟨-, rfl, rfl⟩ := Output.tokenFromCache.inj (List.mem_singleton.mp ho)
      exact ⟨token, htoken, rfl, hleft⟩
    · exact absurd ho (by simp)

/-- **The fetch of the call that makes the transition.** -/
lemma Transition.fetchKnown {s : State} {h : List Output}
    (hrun : auth.run (State.start stores) as = some (s, h)) (hc : s.calls[c]? = some q)
    (ht : Transition s.stores c q a (st', q', out))
    (hq : FetchKnown stores as s.stores c q.phase) :
    FetchKnown stores (as ++ [a]) st' c q'.phase := by
  obtain ⟨htokens, hnow⟩ := ht.tokens_prefix
  have hbefore : FetchKnown stores (as ++ [a]) st' c q.phase := hq.mono htokens hnow.ge a
  cases ht with
  | executed | rejected => exact hbefore
  | called => exact getAdminToken_fetchKnown _ _
  | issued hphase =>
      rw [hphase] at hq
      refine ⟨_, hq, ⟨as, [], s, h, q, rfl, hrun, hc, hphase, rfl, rfl⟩, ?_⟩
      exact List.getElem?_concat_length
  | abandoned | looked | taken | added | registered | arrived | created | lost | fetched
  | assigned | failed => trivial

/-- **The cache after a transition**: the pair that was there, or that of the response that has just
arrived. -/
lemma Transition.cached (ht : Transition st c q a (st', q', out))
    (hq : FetchKnown stores as st c q.phase)
    (hcached : ∀ token, st.adminToken = some token → Cached stores as st.tokens token) :
    ∀ token, st'.adminToken = some token → Cached stores (as ++ [a]) st'.tokens token := by
  intro token htoken
  have htokens := ht.tokens_prefix.1
  have hkept : st.adminToken = some token → Cached stores (as ++ [a]) st'.tokens token := by
    intro h
    exact (hcached token h).mono htokens a
  cases ht with
  | executed =>
      rw [Stores.execute_adminToken] at htoken
      exact hkept htoken
  | @rejected j cmd applied =>
      cases applied with
      | false => exact hkept htoken
      | true =>
          rw [if_pos rfl, Stores.execute_adminToken] at htoken
          exact hkept htoken
  | arrived hphase =>
      rw [hphase] at hq
      obtain rfl := Option.some.inj htoken
      exact ⟨c, _, _, Response.mono hq htokens _, by simp, rfl⟩
  | abandoned | looked | taken | called | added | registered | issued | created | lost | fetched
  | assigned | failed => exact hkept htoken

/-- **A token from the cache has more than ten seconds left.** -/
lemma Transition.served (ht : Transition st c q a (st', q', out))
    (hcached : ∀ token, st.adminToken = some token → Cached stores as st.tokens token)
    {c' value atMs : ℕ} (ho : .tokenFromCache c' value atMs ∈ out) :
    ValidBeyond st.tokens value (atMs + 10000) := by
  cases ht with
  | called =>
      rcases List.mem_cons.mp ho with ho | ho
      · exact absurd ho (by simp)
      · rcases getAdminToken_served ho with ⟨token, htoken, rfl, hleft⟩
        rcases (hcached token htoken).expiresAt_le with ⟨expiry, hexpiry, hle⟩
        exact ⟨expiry, hexpiry, lt_of_lt_of_le hleft hle⟩
  | executed =>
      split_ifs at ho <;> exact absurd ho (by simp)
  | rejected =>
      split_ifs at ho <;> exact absurd ho (by simp)
  | abandoned | looked | taken | added | registered | issued | arrived | created | lost | fetched
  | assigned | failed => exact absurd ho (by simp)

end transitions

/-! ## Every run -/

/-- **The invariant**: what is known of every fetch, of the cache, and of the tokens taken from it
so far. -/
structure TokensKnown (stores : Stores) (as : List Action) (h : List Output) (s : State) :
    Prop where
  run : auth.run (State.start stores) as = some (s, h)
  fetches : Each s.calls fun c q => FetchKnown stores as s.stores c q.phase
  cached : ∀ token, s.stores.adminToken = some token → Cached stores as s.stores.tokens token
  served : ∀ c value atMs, .tokenFromCache c value atMs ∈ h →
    ValidBeyond s.stores.tokens value (atMs + 10000)

lemma tokensKnown_start {stores : Stores} (hempty : stores.adminToken = none) :
    TokensKnown stores [] [] (State.start stores) := by
  refine ⟨rfl, each_nil _, ?_, ?_⟩
  · intro token htoken
    exact absurd (hempty.symm.trans htoken) (by simp)
  · intro c value atMs ho
    exact absurd ho (by simp)

lemma fetchKnown_begin (stores : Stores) (as : List Action) (st : Stores) (c : ℕ) (call : Call) :
    FetchKnown stores as st c call.begin.phase := by
  cases call <;> trivial

theorem TokensKnown.step {stores : Stores} {as : List Action} {h : List Output} {s s' : State}
    {a : Action} {out : List Output} (hk : TokensKnown stores as h s)
    (hstep : auth.step s a = some (s', out)) : TokensKnown stores (as ++ [a]) (h ++ out) s' := by
  have hrun := Machine.run_concat hk.run hstep
  cases step_cases hstep with
  | called call =>
      have hprefix := List.prefix_refl s.stores.tokens
      refine ⟨hrun, ?_, ?_, ?_⟩
      · refine Each.concat (hk.fetches.mono fun c q hq => ?_) (fetchKnown_begin ..)
        exact hq.mono hprefix (le_refl _) _
      · intro token htoken
        exact (hk.cached token htoken).mono hprefix _
      · intro c value atMs ho
        rcases List.mem_append.mp ho with ho | ho
        · exact hk.served c value atMs ho
        · exact absurd ho (by simp)
  | advanced c q st q' hadv =>
      have htokens := hadv.transition.tokens_prefix.1
      have hnow := hadv.transition.tokens_prefix.2
      have hq := hk.fetches c q hadv.at_c
      rw [← hadv.stores_eq] at htokens hnow
      refine ⟨hrun, ?_, ?_, ?_⟩
      · refine hadv.each hk.fetches ?_ fun i x _ hx => hx.mono htokens hnow.ge a
        rw [hadv.stores_eq]
        exact hadv.transition.fetchKnown hk.run hadv.at_c hq
      · rw [hadv.stores_eq]
        exact hadv.transition.cached hq hk.cached
      · intro c' value atMs ho
        refine ValidBeyond.mono ?_ htokens
        rcases List.mem_append.mp ho with ho | ho
        · exact hk.served c' value atMs ho
        · exact hadv.transition.served hk.cached ho
  | ticked =>
      have hprefix := List.prefix_refl s.stores.tokens
      refine ⟨hrun, ?_, ?_, ?_⟩
      · refine hk.fetches.mono fun c q hq => ?_
        show FetchKnown stores _ { s.stores with now := s.stores.now + 1 } c q.phase
        refine hq.mono ?_ (Nat.le_succ _) _
        exact hprefix
      · intro token htoken
        exact (hk.cached token htoken).mono hprefix _
      · rw [List.append_nil]
        exact hk.served

/-- **A cached admin token has more than ten seconds left.**  Whatever calls overlap, however long
their fetches take and in whatever order the responses arrive: the cached pair stems from one
response, its expiry is no later than the true one, and every token taken from the cache is valid
for more than ten seconds from then on. -/
theorem cached_token_valid {stores : Stores} {as : List Action} {h : List Output} {s : State}
    (hempty : stores.adminToken = none)
    (hrun : auth.run (State.start stores) as = some (s, h)) :
    (∀ token, s.stores.adminToken = some token → Cached stores as s.stores.tokens token ∧
      ∃ expiry, s.stores.tokens[token.value]? = some expiry ∧ token.expiresAt ≤ expiry) ∧
    ∀ c value atMs : ℕ, .tokenFromCache c value atMs ∈ h →
      ∃ expiry, s.stores.tokens[value]? = some expiry ∧ (atMs : ℚ) + 10000 < expiry := by
  have hk : TokensKnown stores as h s :=
    Machine.run_invariant (I := TokensKnown stores) (tokensKnown_start hempty)
      (fun _ _ _ _ _ _ hk hstep => hk.step hstep) hrun
  refine ⟨fun token htoken => ⟨hk.cached token htoken, ?_⟩, hk.served⟩
  exact (hk.cached token htoken).expiresAt_le

/-- The refresh of call 0 overwrites the newer one of call 1, and call 2 takes its token from the
cache. -/
def olderOverwrites : List Action :=
  [.call (.register bob), .call (.register bob)] ++ answersAll 0 ++ answersAll 1 ++
    [.resume 0, .tick, .resume 1, .issueToken 0 60, .tick, .issueToken 1 60, .tokenArrives 1,
      .tokenArrives 0, .call (.register bob)] ++ answersAll 2 ++ [.resume 2]

theorem cached_token_valid_olderOverwrites : ∃ s h,
    auth.run (State.start .empty) olderOverwrites = some (s, h) ∧
      s.stores.adminToken = some { value := 0, expiresAt := 60000 } ∧
      (∃ expiry, s.stores.tokens[0]? = some expiry ∧ 60000 ≤ expiry) ∧
      ∃ expiry, s.stores.tokens[0]? = some expiry ∧ ((2 : ℕ) + 10000 : ℚ) < expiry := by
  have hdone : (auth.run (State.start .empty) olderOverwrites).any (fun r =>
      decide (r.1.stores.adminToken = some { value := 0, expiresAt := 60000 } ∧
        .tokenFromCache 2 0 2 ∈ r.2)) = true := by
    decide +kernel
  obtain ⟨⟨s, h⟩, hrun, hp⟩ := (Option.any_eq_true _ _).mp hdone
  obtain ⟨htoken, hserved⟩ := of_decide_eq_true hp
  obtain ⟨hcached, hvalid⟩ := cached_token_valid rfl hrun
  exact ⟨s, h, hrun, htoken, (hcached _ htoken).2, hvalid 2 0 2 hserved⟩

end RedisApi.Auth
