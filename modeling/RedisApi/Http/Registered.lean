import RedisApi.Auth.Accounts
import RedisApi.Http.Traceability

/-!
# Users that have registered themselves

`POST /auth/register` is open to everyone.  What it makes of a request is a user at Keycloak, and
what that user may do is what the roles guard reads off the tokens that Keycloak issues to it.

* `Exchange.authCall` — the request has begun a registration.
* `Enrolled` — the invariant: the registrations are those that requests have begun, in the same
  order.
* `users_traceable` — every user that Keycloak did not have before stems from a request of its own,
  with a body that the pipe has accepted.
* `registered_reads_only` — and its tokens open `GET /product/inventory` at most.
-/

namespace RedisApi.Http

open Core EcmaScript Auth

/-! ## Requests that begin a registration -/

/-- The call that the request has begun at the auth controller. -/
def Exchange.authCall (x : Exchange) : Option Auth.Call :=
  match x.outcome with
  | .ok handler => handler.authCall
  | .error _ => none

/-- The requests that have begun one. -/
def registerExchanges (h : List Output) : List Exchange :=
  (exchanges h).filter fun x => x.authCall.isSome

def authCalls (h : List Output) : List Auth.Call := (exchanges h).filterMap Exchange.authCall

lemma authCalls_append (h out : List Output) :
    authCalls (h ++ out) = authCalls h ++ authCalls out := by
  rw [authCalls, exchanges_append, List.filterMap_append]
  rfl

/-- The calls of the auth controller, in the order of their arrival. -/
def arrivals (s : Auth.State) : List Auth.Call := s.calls.map CallState.call

lemma arrivals_of_step {s s' : Auth.State} {a : Auth.Action} {out : List Auth.Output}
    (hstep : s.step a = some (s', out)) (ha : callGoesOn a = true) : arrivals s' = arrivals s := by
  cases Auth.step_cases hstep with
  | called call => exact absurd ha (by simp [callGoesOn])
  | advanced c q st q' hadv =>
      rw [hadv.state]
      exact map_set_of_eq hadv.at_c hadv.transition.call_eq
  | ticked => rfl

/-- **The registrations are those that requests have begun.** -/
def Enrolled (h : List Output) (s : Service) : Prop := arrivals s.auth = authCalls h

/-- A step that begins none. -/
lemma Enrolled.quiet {h out : List Output} {s s' : Service} (hs : Enrolled h s)
    (hout : authCalls out = []) (hcalls : arrivals s'.auth = arrivals s.auth) :
    Enrolled (h ++ out) s' := by
  rw [Enrolled, authCalls_append, hout, List.append_nil, hcalls]
  exact hs

theorem Enrolled.step {cfg : Config} {o : KafkaOptions} {h : List Output} {s s' : Service}
    {a : Action} {out : List Output} (hs : Enrolled h s)
    (hstep : s.step cfg o a = some (s', out)) : Enrolled (h ++ out) s' := by
  cases step_cases hstep with
  | rejected houtcome => exact hs.quiet rfl rfl
  | handled houtcome hproduct hauth =>
      refine hs.quiet ?_ rfl
      exact List.filterMap_cons_none hauth
  | @begun req uuid handler a p out houtcome hproduct hauth hpipeline =>
      refine hs.quiet ?_ rfl
      rw [authCalls]
      show List.filterMap Exchange.authCall (_ :: exchanges (out.map .pipeline)) = []
      rw [(outputs_map_pipeline out).1]
      exact List.filterMap_cons_none hauth
  | @called req uuid handler call houtcome hproduct hauth =>
      have hnew : authCalls [.exchanged ⟨req, uuid, .ok handler⟩,
          .auth (.started s.auth.calls.length call)] = [call] :=
        List.filterMap_cons_some hauth
      rw [Enrolled, authCalls_append, hnew, ← hs, arrivals, List.map_append]
      cases call <;> rfl
  | @pipeline a p out hgoes hpipeline =>
      refine hs.quiet ?_ rfl
      rw [authCalls, (outputs_map_pipeline out).1]
      rfl
  | @auth a p out hgoes hauth =>
      refine hs.quiet ?_ (arrivals_of_step hauth hgoes)
      rw [authCalls, (outputs_map_auth out).1]
      rfl

section results

variable {cfg : Config} {o : KafkaOptions} {keys : RateLimiter.Keys} {redis : Product.Redis}
  {stores : Stores} {h : List Output} {s : Service}

lemma enrolled_of_reaches
    (hr : (service cfg o).Reaches (Service.start keys redis stores) h s) : Enrolled h s := by
  refine hr.invariant (I := Enrolled) ?_ ?_
  · rfl
  · rintro h s a s' out - hs hstep
    exact hs.step hstep

/-- The request that has begun the registration with the number `c`. -/
lemma exists_exchange_of_register
    (hr : (service cfg o).Reaches (Service.start keys redis stores) h s) {c : ℕ} {q : CallState}
    {dto : RegisterDto} (hq : s.auth.calls[c]? = some q) (hcall : q.call = .register dto) :
    ∃ e, (registerExchanges h)[c]? = some e ∧ e.request.route = .register ∧
      dto = registerDto e.request.body ∧ ValidRegister cfg.pipe.validator dto := by
  have hcalls : (authCalls h)[c]? = some (.register dto) := by
    rw [← enrolled_of_reaches hr, arrivals, List.getElem?_map, hq, Option.map_some, hcall]
  have hexchange : ((registerExchanges h).map Exchange.authCall)[c]? =
      some (some (.register dto)) := by
    rw [registerExchanges, map_filter_isSome, List.getElem?_map]
    exact congrArg (Option.map some) hcalls
  rw [List.getElem?_map] at hexchange
  rcases Option.map_eq_some_iff.mp hexchange with ⟨e, he, hecall⟩
  have hmem : e ∈ exchanges h := (List.mem_filter.mp (List.mem_of_getElem? he)).1
  refine ⟨e, he, ?_⟩
  rw [Exchange.authCall] at hecall
  split at hecall
  · next handler houtcome =>
    cases (traced_of_reaches hr).cleared e hmem handler houtcome with
    | register hroute hvalid =>
        obtain rfl := Call.register.inj (Option.some.inj hecall)
        exact ⟨hroute, rfl, (registerDto_valid hvalid).1⟩
    | ping | login | useItem | getInventory | resetInventory =>
        exact absurd hecall (by simp [Handler.authCall])
  · exact absurd hecall (by simp)

/-- **Every new user is traceable.**  In every reachable state of the service, whatever the traffic
and the failures: Keycloak has its former users, unchanged, and behind them users that stem each
from a request of its own to `POST /auth/register`, from the body of that request, which the pipe
has accepted, so that every decorator holds; each of them has no role or `product:read` alone. -/
theorem users_traceable
    (hr : (service cfg o).Reaches (Service.start keys redis stores) h s) :
    ∃ news : List Account,
      s.auth.stores.keycloak.users = stores.keycloak.users ++ news.map Account.user ∧
      (news.map Account.call).Nodup ∧
      ∀ x ∈ news, (x.roles = [] ∨ x.Reads) ∧ ∃ e, (registerExchanges h)[x.call]? = some e ∧
        e.request.route = .register ∧ x.dto = registerDto e.request.body ∧
        ValidRegister cfg.pipe.validator x.dto := by
  rcases accounts_of_reaches ((toAuth cfg o).reaches hr) with ⟨news, hs⟩
  refine ⟨news, hs.users_eq, hs.calls, ?_⟩
  intro x hx
  rcases hs.owned x hx with ⟨q, hq, hcall, hat⟩
  exact ⟨hat.roles, exists_exchange_of_register hr hq hcall⟩

end results

/-! ## What a token opens -/

/-- A payload as Keycloak signs it for a user: the realm roles are those that every user of the
realm has by default, and the user's own. -/
def TokenOf (defaults : List JsString) (u : User) (payload : JsonObject) : Prop :=
  AuthProvider.keycloak.rolesClaim payload =
    some (.array ((defaults ++ u.roles.map Role.name).map Json.string))

/-- A route with required roles, once the token is verified: either the limiter answers, or the
roles guard decides. -/
lemma handle_of_verified {cfg : Config} {req : Request} {roles : List JsString}
    {payload : JsonObject} {granted : Bool}
    (hpublic : (req.route.handlerPublic <|> req.route.classPublic) = none)
    (hroles : req.route.handlerRoles = some roles)
    (hverify : cfg.verify req.authorization = some payload)
    (hactive : canActivate cfg.provider (some roles) none payload = .ok granted)
    (keys : RateLimiter.Keys) (uuid : String) :
    (∃ level, (handle cfg keys req uuid).2 = .error (.tooManyRequests level)) ∨
      (handle cfg keys req uuid).2 =
        if granted then bindBody cfg req (correlationId req uuid) else .error .forbidden := by
  rw [handle]
  cases hlimit : rateLimit cfg keys req with
  | mk keys' handling =>
      cases handling with
      | json statusCode message level => exact Or.inl ⟨level, rfl⟩
      | next =>
          right
          have hjwt : jwtAuthGuard cfg req = .ok (some payload) := by
            rw [jwtAuthGuard, hpublic]
            simp [hverify]
          have hguard : rolesGuard cfg req.route (some payload) =
              if granted then .ok () else .error .forbidden := by
            rw [rolesGuard, hroles]
            cases granted <;> simp [Route.classRoles, hactive]
          simp only [hjwt, hguard, bind, Except.bind]
          cases granted <;> rfl

/-- What the guard answers to an array of strings. -/
lemma canActivate_of_tokenOf {defaults : List JsString} {u : User} {payload : JsonObject}
    (htoken : TokenOf defaults u payload) (role : JsString) :
    canActivate .keycloak (some [role]) none payload =
      .ok (decide (role ∈ defaults ++ u.roles.map Role.name)) := by
  rw [canActivate_eq rfl (by simp), htoken]
  rcases every_includes_array ((defaults ++ u.roles.map Role.name).map Json.string) [role] with
    ⟨granted, hresult, hiff⟩
  refine hresult.trans (congrArg Except.ok ?_)
  rw [Bool.eq_iff_iff, hiff, decide_eq_true_iff]
  simp

section registered

variable {cfg : Config} {o : KafkaOptions} {keys : RateLimiter.Keys} {redis : Product.Redis}
  {stores : Stores} {h : List Output} {s : Service} {u : User}

/-- The roles of a user that Keycloak did not have before. -/
lemma roles_of_registered (hr : (service cfg o).Reaches (Service.start keys redis stores) h s)
    (hu : u ∈ s.auth.stores.keycloak.users) (hnew : u ∉ stores.keycloak.users) :
    u.roles = [] ∨ ∃ role, role.name = productRead ∧ u.roles = [role] := by
  rcases accounts_of_reaches ((toAuth cfg o).reaches hr) with ⟨news, hs⟩
  have husers : s.auth.stores.keycloak.users = _ := hs.users_eq
  rw [husers] at hu
  rcases List.mem_map.mp ((List.mem_append.mp hu).resolve_left hnew) with ⟨x, hx, rfl⟩
  rcases hs.owned x hx with ⟨q, -, -, hat⟩
  exact hat.roles

lemma names_of_registered (hr : (service cfg o).Reaches (Service.start keys redis stores) h s)
    (hu : u ∈ s.auth.stores.keycloak.users) (hnew : u ∉ stores.keycloak.users) :
    ∀ name ∈ u.roles.map Role.name, name = productRead := by
  intro name hname
  rcases roles_of_registered hr hu hnew with hroles | ⟨role, hrole, hroles⟩
  · simp [hroles] at hname
  · rw [hroles, List.map_singleton, List.mem_singleton] at hname
    exact hname.trans hrole

lemma read_of_registered (hr : (service cfg o).Reaches (Service.start keys redis stores) h s)
    (hu : u ∈ s.auth.stores.keycloak.users) (hnew : u ∉ stores.keycloak.users)
    (hroles : u.roles ≠ []) : js "product:read" ∈ u.roles.map Role.name := by
  rcases roles_of_registered hr hu hnew with hnil | ⟨role, hrole, hone⟩
  · exact absurd hnil hroles
  · rw [hone, List.map_singleton, List.mem_singleton, hrole]
    rfl

end registered

/-- **Whoever has registered may read, and nothing else.**  In every reachable state of the service,
for every user that Keycloak did not have before, and for every token that it issues to this user
(with default roles that allow neither): a request with this token is answered 403 on
`POST /product/use-item` and on `DELETE /product/inventory`, and where the user has been
given its role, `GET /product/inventory` is open to it; unless the limiter answers first. -/
theorem registered_reads_only {cfg : Config} {o : KafkaOptions} {keys : RateLimiter.Keys}
    {redis : Product.Redis} {stores : Stores} {h : List Output} {s : Service}
    (hr : (service cfg o).Reaches (Service.start keys redis stores) h s)
    (hprovider : cfg.provider = .keycloak) {u : User}
    (hu : u ∈ s.auth.stores.keycloak.users) (hnew : u ∉ stores.keycloak.users)
    {defaults : List JsString}
    (hdefaults : js "product:write" ∉ defaults ∧ js "product:admin" ∉ defaults)
    {payload : JsonObject} (htoken : TokenOf defaults u payload) {req : Request}
    (hverify : cfg.verify req.authorization = some payload) (keys' : RateLimiter.Keys)
    (uuid : String) :
    (∃ level, (handle cfg keys' req uuid).2 = .error (.tooManyRequests level)) ∨
      (req.route = .useItem ∨ req.route = .resetInventory →
        (handle cfg keys' req uuid).2 = .error .forbidden) ∧
      (req.route = .getInventory → u.roles ≠ [] →
        (handle cfg keys' req uuid).2 = .ok .getInventory) := by
  have hactive : ∀ role, canActivate cfg.provider (some [role]) none payload =
      .ok (decide (role ∈ defaults ++ u.roles.map Role.name)) :=
    hprovider ▸ canActivate_of_tokenOf htoken
  have hnames := names_of_registered hr hu hnew
  have hlacks : ∀ role, role ∉ defaults → role ≠ productRead →
      role ∉ defaults ++ u.roles.map Role.name := by
    intro role hdefault hne hmem
    rcases List.mem_append.mp hmem with hmem | hmem
    · exact hdefault hmem
    · exact hne (hnames role hmem)
  cases hroute : req.route with
  | ping | login | register => exact Or.inr ⟨by simp, by simp⟩
  | useItem =>
      have hway := handle_of_verified (by rw [hroute]; rfl) (by rw [hroute]; rfl) hverify
        (hactive (js "product:write")) keys' uuid
      rw [decide_eq_false (hlacks _ hdefaults.1 (by decide))] at hway
      exact hway.imp_right fun hforbidden => ⟨fun _ => hforbidden, by simp⟩
  | resetInventory =>
      have hway := handle_of_verified (by rw [hroute]; rfl) (by rw [hroute]; rfl) hverify
        (hactive (js "product:admin")) keys' uuid
      rw [decide_eq_false (hlacks _ hdefaults.2 (by decide))] at hway
      exact hway.imp_right fun hforbidden => ⟨fun _ => hforbidden, by simp⟩
  | getInventory =>
      have hway := handle_of_verified (by rw [hroute]; rfl) (by rw [hroute]; rfl) hverify
        (hactive (js "product:read")) keys' uuid
      refine hway.imp_right fun hopen => ⟨by simp, ?_⟩
      intro _ hroles
      rw [decide_eq_true (List.mem_append_right _ (read_of_registered hr hu hnew hroles)),
        if_pos rfl, bindBody, hroute] at hopen
      exact hopen

/-! ## A run -/

/-- The token of a user whose only role of its own is `product:read`. -/
def readersToken : JsonObject :=
  realmToken (.array [.string (js "offline_access"), .string (js "product:read")])

/-- One token is valid. -/
def oneReader : Config :=
  { oneWriter with verify := fun header =>
      if header = some "Bearer r" then some readersToken else none }

/-- A registration of "bob", as it comes in from outside. -/
def registerRequest : Request where
  route := .register
  ip := some "10.0.0.1"
  correlationId := none
  authorization := none
  body := [(js "username", .string bob.username), (js "password", .string bob.password),
    (js "email", .string bob.email), (js "firstName", .string bob.firstName),
    (js "lastName", .string bob.lastName)]
  now := 0

/-- All that registration 0 awaits goes well. -/
def goesWell : List Auth.Action :=
  answersAll 0 ++ [.resume 0, .issueToken 0 60, .tokenArrives 0,
    .createUser 0 (js "1") (some (js "users/1")), .roleFetched 0 (js "r"), .roleAssigned 0] ++
    answersAll 0 ++ [.resume 0]

/-- One request without a body, which is refused; then "bob" registers. -/
def bobRegisters : List Action :=
  [.request { registerRequest with body := [] } "t", .request registerRequest "u"] ++
    goesWell.map .auth

/-- The user that this leaves at Keycloak. -/
def bobsUser : User where
  id := js "1"
  representation := bob.representation
  roles := [{ id := js "r", name := productRead }]

theorem users_traceable_bobRegisters : ∃ s h,
    (service oneReader bootstrapOptions).run
        (Service.start (fun _ => none) Pipeline.fiveUnits Stores.empty) bobRegisters =
      some (s, h) ∧ (registerExchanges h).length = 1 ∧ ∃ news : List Account,
      s.auth.stores.keycloak.users = Stores.empty.keycloak.users ++ news.map Account.user ∧
      (news.map Account.call).Nodup ∧
      ∀ x ∈ news, (x.roles = [] ∨ x.Reads) ∧ ∃ e, (registerExchanges h)[x.call]? = some e ∧
        e.request.route = .register ∧ x.dto = registerDto e.request.body ∧
        ValidRegister oneReader.pipe.validator x.dto := by
  have hruns : ((service oneReader bootstrapOptions).run
      (Service.start (fun _ => none) Pipeline.fiveUnits Stores.empty) bobRegisters).any
        (fun r => decide ((registerExchanges r.2).length = 1)) = true := by
    decide +kernel
  rcases (Option.any_eq_true _ _).mp hruns with ⟨⟨s, h⟩, hrun, hend⟩
  exact ⟨s, h, hrun, of_decide_eq_true hend, users_traceable (Machine.reaches_of_run hrun)⟩

/-- The request with which he tries to reset the inventory. -/
def resetByBob : Request :=
  { registerRequest with route := .resetInventory, authorization := some "Bearer r" }

theorem registered_reads_only_bobRegisters : ∃ s h,
    (service oneReader bootstrapOptions).run
        (Service.start (fun _ => none) Pipeline.fiveUnits Stores.empty) bobRegisters =
      some (s, h) ∧ bobsUser ∈ s.auth.stores.keycloak.users ∧
      ((∃ level, (handle oneReader s.keys resetByBob "v").2 =
          .error (.tooManyRequests level)) ∨
        (resetByBob.route = .useItem ∨ resetByBob.route = .resetInventory →
          (handle oneReader s.keys resetByBob "v").2 = .error .forbidden) ∧
        (resetByBob.route = .getInventory → bobsUser.roles ≠ [] →
          (handle oneReader s.keys resetByBob "v").2 = .ok .getInventory)) := by
  have hruns : ((service oneReader bootstrapOptions).run
      (Service.start (fun _ => none) Pipeline.fiveUnits Stores.empty) bobRegisters).any
        (fun r => decide (bobsUser ∈ r.1.auth.stores.keycloak.users)) = true := by
    decide +kernel
  rcases (Option.any_eq_true _ _).mp hruns with ⟨⟨s, h⟩, hrun, hend⟩
  have hdefaults : js "product:write" ∉ [js "offline_access"] ∧
      js "product:admin" ∉ [js "offline_access"] := by
    decide
  exact ⟨s, h, hrun, of_decide_eq_true hend,
    registered_reads_only (Machine.reaches_of_run hrun) rfl (of_decide_eq_true hend)
      List.not_mem_nil hdefaults (show TokenOf [js "offline_access"] bobsUser readersToken from rfl)
      rfl s.keys "v"⟩

end RedisApi.Http
