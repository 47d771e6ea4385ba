import RedisApi.Auth.RolesGuard
import RedisApi.Http.Validation
import RedisApi.RateLimiter.LeakyBucket

/-!
# The way of a request

What stands between a request and the handler of its route (`app.module.ts`, `auth.module.ts`,
`product.module.ts`): the correlation id is set, the rate limiter runs for the routes below `auth`
and `product`, then the two global guards, then the pipe for the body.  Each may answer the request,
and then nothing behind it runs.

* `Route` — the routes, with the metadata that their decorators set.
* `handle` — the way of a request, to its handler or to a `Rejection`.
* `Cleared` — what a request has shown that reaches its handler, and `cleared_of_handle`.
-/

namespace RedisApi.Http

open Core EcmaScript Auth RateLimiter

/-! ## Routes -/

inductive Route
  | ping
  | login
  | register
  | useItem
  | getInventory
  | resetInventory
  deriving DecidableEq, Repr

namespace Route

/-- The path that the controller of the route stands under. -/
def controller : Route → String
  | .ping => ""
  | .login | .register => "auth"
  | .useItem | .getInventory | .resetInventory => "product"

/-- `consumer.apply(RateLimiterMiddleware).forRoutes(…)`, once with `'auth'` and once with
`'product'`. -/
def limited (route : Route) : Bool := route.controller = "auth" || route.controller = "product"

/-- `IS_PUBLIC_KEY` on the handler. -/
def handlerPublic : Route → Option Bool
  | .ping => some true
  | _ => none

/-- `IS_PUBLIC_KEY` on the controller. -/
def classPublic : Route → Option Bool
  | .login | .register => some true
  | _ => none

/-- `ROLES_KEY` on the handler; no controller has it. -/
def handlerRoles : Route → Option (List JsString)
  | .useItem => some [js "product:write"]
  | .getInventory => some [js "product:read"]
  | .resetInventory => some [js "product:admin"]
  | .ping | .login | .register => none

def classRoles (_ : Route) : Option (List JsString) := none

end Route

/-! ## Requests -/

/-- What a request brings along, and the `Date.now()` of the replica that it reaches. -/
structure Request where
  route : Route
  ip : Option String
  correlationId : Option String
  authorization : Option String
  body : JsonObject
  now : ℚ

/-- The provider that is configured; how `passport-jwt` verifies the `Authorization` header with the
keys, the issuer and the audience of this provider; the pipe for the bodies; and when the keys of
the limiter expire. -/
structure Config where
  provider : AuthProvider
  verify : Option String → Option JsonObject
  pipe : Pipe
  expiry : Expiry

/-- How a request is answered that does not reach its handler: 429, 401, 403, 500 or 400. -/
inductive Rejection
  | tooManyRequests (level : ℚ)
  | unauthorized
  | forbidden
  | internalServerError
  | badRequest (errors : List ValidationError)
  deriving DecidableEq, Repr

/-- The handler with its arguments; that of `useItem` reads the correlation id from the storage. -/
inductive Handler
  | ping
  | login (dto : LoginDto)
  | register (dto : RegisterDto)
  | useItem (correlationId : String)
  | getInventory
  | resetInventory
  deriving DecidableEq, Repr

/-- `CorrelationIdMiddleware.use`: the header, or else a `randomUUID()`. -/
def correlationId (req : Request) (uuid : String) : String := req.correlationId.getD uuid

/-- The limiter, on the routes it is applied to. -/
def rateLimit (cfg : Config) (keys : Keys) (req : Request) : Keys × Handling :=
  if req.route.limited then RateLimiter.use cfg.expiry keys req.ip req.now else (keys, .next)

/-- `JwtAuthGuard.canActivate`, which leaves the payload in `req.user`. -/
def jwtAuthGuard (cfg : Config) (req : Request) : Except Rejection (Option JsonObject) :=
  let isPublic := req.route.handlerPublic <|> req.route.classPublic
  if isPublic = some true then .ok none
  else
    match cfg.verify req.authorization with
    | none => .error .unauthorized
    | some payload => .ok (some payload)

/-- `RolesGuard.canActivate`; where roles are required and no user is there, it throws. -/
def rolesGuard (cfg : Config) (route : Route) (user : Option JsonObject) : Except Rejection Unit :=
  match user with
  | none =>
      match getAllAndOverride route.handlerRoles route.classRoles with
      | none | some [] => .ok ()
      | some _ => .error .internalServerError
  | some payload =>
      match canActivate cfg.provider route.handlerRoles route.classRoles payload with
      | .ok true => .ok ()
      | .ok false => .error .forbidden
      | .error _ => .error .internalServerError

/-- The pipe, on the routes that bind a body, and the handler. -/
def bindBody (cfg : Config) (req : Request) (id : String) : Except Rejection Handler :=
  match req.route with
  | .ping => .ok .ping
  | .login =>
      match cfg.pipe.validate loginSchema req.body with
      | [] => .ok (.login (loginDto req.body))
      | errors => .error (.badRequest errors)
  | .register =>
      match cfg.pipe.validate registerSchema req.body with
      | [] => .ok (.register (registerDto req.body))
      | errors => .error (.badRequest errors)
  | .useItem => .ok (.useItem id)
  | .getInventory => .ok .getInventory
  | .resetInventory => .ok .resetInventory

/-- The way of a request: what it does to the keys of the limiter, and where it ends. -/
def handle (cfg : Config) (keys : Keys) (req : Request) (uuid : String) :
    Keys × Except Rejection Handler :=
  let id := correlationId req uuid
  match rateLimit cfg keys req with
  | (keys', .json _ _ level) => (keys', .error (.tooManyRequests level))
  | (keys', .next) =>
      (keys', do
        let user ← jwtAuthGuard cfg req
        rolesGuard cfg req.route user
        bindBody cfg req id)

/-! ## What a request has shown -/

/-- The request carries a token that is verified and grants the roles. -/
def Granted (cfg : Config) (req : Request) (roles : List JsString) : Prop :=
  ∃ payload, cfg.verify req.authorization = some payload ∧
    canActivate cfg.provider (some roles) none payload = .ok true

/-- **What a request has shown that reaches this handler.** -/
inductive Cleared (cfg : Config) (req : Request) (uuid : String) : Handler → Prop
  | ping (route : req.route = .ping) : Cleared cfg req uuid .ping
  | login (route : req.route = .login) (valid : cfg.pipe.validate loginSchema req.body = []) :
      Cleared cfg req uuid (.login (loginDto req.body))
  | register (route : req.route = .register)
      (valid : cfg.pipe.validate registerSchema req.body = []) :
      Cleared cfg req uuid (.register (registerDto req.body))
  | useItem (route : req.route = .useItem) (granted : Granted cfg req [js "product:write"]) :
      Cleared cfg req uuid (.useItem (correlationId req uuid))
  | getInventory (route : req.route = .getInventory)
      (granted : Granted cfg req [js "product:read"]) : Cleared cfg req uuid .getInventory
  | resetInventory (route : req.route = .resetInventory)
      (granted : Granted cfg req [js "product:admin"]) : Cleared cfg req uuid .resetInventory

lemma Cleared.of_useItem {cfg : Config} {req : Request} {uuid id : String}
    (h : Cleared cfg req uuid (.useItem id)) :
    req.route = .useItem ∧ Granted cfg req [js "product:write"] ∧ id = correlationId req uuid := by
  generalize hhandler : Handler.useItem id = handler at h
  cases h with
  | useItem hroute hgranted => exact ⟨hroute, hgranted, Handler.useItem.inj hhandler⟩
  | _ => exact absurd hhandler (by simp)

/-- What the two guards have let through on a route that is not public. -/
lemma granted_of_guards {cfg : Config} {req : Request} {user : Option JsonObject}
    {roles : List JsString} (hpublic : (req.route.handlerPublic <|> req.route.classPublic) = none)
    (hroles : req.route.handlerRoles = some roles) (hjwt : jwtAuthGuard cfg req = .ok user)
    (hguard : rolesGuard cfg req.route user = .ok ()) : Granted cfg req roles := by
  rw [jwtAuthGuard, hpublic] at hjwt
  cases hverify : cfg.verify req.authorization with
  | none => simp [hverify] at hjwt
  | some payload =>
      simp only [hverify, reduceCtorEq, if_false, Except.ok.injEq] at hjwt
      subst hjwt
      refine ⟨payload, hverify, ?_⟩
      rw [rolesGuard, hroles] at hguard
      cases hactive : canActivate cfg.provider (some roles) none payload with
      | error e => simp [Route.classRoles, hactive] at hguard
      | ok granted =>
          cases granted with
          | false => simp [Route.classRoles, hactive] at hguard
          | true => rfl

/-- A request that reaches its handler has passed the limiter, both guards and the pipe. -/
lemma passed_of_handle {cfg : Config} {keys : Keys} {req : Request} {uuid : String}
    {handler : Handler} (h : (handle cfg keys req uuid).2 = .ok handler) :
    (rateLimit cfg keys req).2 = .next ∧
      ∃ user, jwtAuthGuard cfg req = .ok user ∧ rolesGuard cfg req.route user = .ok () ∧
        bindBody cfg req (correlationId req uuid) = .ok handler := by
  rw [handle] at h
  cases hlimit : rateLimit cfg keys req with
  | mk keys' handling =>
      cases handling with
      | json statusCode message level => simp [hlimit] at h
      | next =>
          simp only [hlimit] at h
          cases hjwt : jwtAuthGuard cfg req with
          | error e => simp [hjwt, bind, Except.bind] at h
          | ok user =>
              cases hguard : rolesGuard cfg req.route user with
              | error e => simp [hjwt, hguard, bind, Except.bind] at h
              | ok _ =>
                  simp only [hjwt, hguard, bind, Except.bind] at h
                  exact ⟨rfl, user, rfl, hguard, h⟩

/-- **A request that reaches its handler has been cleared for it**, and the limiter has let it
pass. -/
theorem cleared_of_handle {cfg : Config} {keys : Keys} {req : Request} {uuid : String}
    {handler : Handler} (h : (handle cfg keys req uuid).2 = .ok handler) :
    (rateLimit cfg keys req).2 = .next ∧ Cleared cfg req uuid handler := by
  rcases passed_of_handle h with ⟨hnext, user, hjwt, hguard, hbind⟩
  refine ⟨hnext, ?_⟩
  rw [bindBody] at hbind
  cases hroute : req.route with
  | ping =>
      rw [hroute] at hbind
      exact Except.ok.inj hbind ▸ .ping hroute
  | login =>
      simp only [hroute] at hbind
      split at hbind
      · next hvalid => exact Except.ok.inj hbind ▸ .login hroute hvalid
      · exact absurd hbind (by simp)
  | register =>
      simp only [hroute] at hbind
      split at hbind
      · next hvalid => exact Except.ok.inj hbind ▸ .register hroute hvalid
      · exact absurd hbind (by simp)
  | useItem =>
      have hgranted := granted_of_guards (by rw [hroute]; rfl) (by rw [hroute]; rfl) hjwt hguard
      rw [hroute] at hbind
      exact Except.ok.inj hbind ▸ .useItem hroute hgranted
  | getInventory =>
      have hgranted := granted_of_guards (by rw [hroute]; rfl) (by rw [hroute]; rfl) hjwt hguard
      rw [hroute] at hbind
      exact Except.ok.inj hbind ▸ .getInventory hroute hgranted
  | resetInventory =>
      have hgranted := granted_of_guards (by rw [hroute]; rfl) (by rw [hroute]; rfl) hjwt hguard
      rw [hroute] at hbind
      exact Except.ok.inj hbind ▸ .resetInventory hroute hgranted

end RedisApi.Http
