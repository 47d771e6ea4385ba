import RedisApi.Core.Json

/-!
# Role checks

`RolesGuard.canActivate` takes the payload of a verified token as `JwtStrategy.validate` has passed
it on, extracts the roles with the active provider, and asks of each required role whether they
include it.  The extraction is a cast: whatever JSON value stands in the claim is used as an array
of strings.

* `AuthProvider.rolesClaim` — where the provider looks, and `extractRoles_eq`, that it looks
  nowhere else.
* `FailsClosed` — the answer is yes or no, and yes exactly if the claim is an array with every
  required role among its elements.
* `checkable`, `fails_closed_iff` — the claims for which this is so: an array or nothing, and the
  strings that some required role is no part of.  A string that contains every required role
  somewhere is let through, and a number, a boolean or an object is a `TypeError`.
-/

namespace RedisApi.Auth

open Core EcmaScript

/-! ## The code -/

/-- `jwt.strategy.ts` -/
def JwtStrategy.validate (payload : JsonObject) : JsonObject := payload

/-- `keycloak.provider.ts` -/
def KeycloakProvider.extractRoles (payload : JsonObject) : Json :=
  let realmAccess := JsonObject.get payload (js "realm_access")
  coalesce (optionalGet realmAccess (js "roles")) (.array [])

/-- `entra-id.provider.ts` -/
def EntraIdProvider.extractRoles (payload : JsonObject) : Json :=
  coalesce (JsonObject.get payload (js "roles")) (.array [])

inductive AuthProvider
  | keycloak
  | entraId
  deriving DecidableEq, Repr

def AuthProvider.extractRoles : AuthProvider → JsonObject → Json
  | .keycloak => KeycloakProvider.extractRoles
  | .entraId => EntraIdProvider.extractRoles

/-- `reflector.getAllAndOverride`: the metadata of the handler, or else of the class. -/
def getAllAndOverride (handler cls : Option (List JsString)) : Option (List JsString) :=
  handler <|> cls

/-- `roles.guard.ts`, for a route with the given metadata and a request with the given token. -/
def canActivate (provider : AuthProvider) (handler cls : Option (List JsString))
    (payload : JsonObject) : Except Exception Bool :=
  match getAllAndOverride handler cls with
  | none | some [] => .ok true
  | some requiredRoles =>
      let user := JwtStrategy.validate payload
      let userRoles := provider.extractRoles user
      every (fun role => userRoles.includes role) requiredRoles

/-! ## The claim -/

/-- The provider's roles claim: `payload.realm_access.roles` or `payload.roles`. -/
def AuthProvider.rolesClaim : AuthProvider → JsonObject → Option Json
  | .keycloak, payload => optionalGet (JsonObject.get payload (js "realm_access")) (js "roles")
  | .entraId, payload => JsonObject.get payload (js "roles")

/-- Either provider reads its claim, and takes no claim for an empty list. -/
lemma AuthProvider.extractRoles_eq (provider : AuthProvider) (payload : JsonObject) :
    provider.extractRoles payload = coalesce (provider.rolesClaim payload) (.array []) := by
  cases provider <;> rfl

lemma canActivate_eq {provider : AuthProvider} {handler cls : Option (List JsString)}
    {required : List JsString} {payload : JsonObject}
    (hroles : getAllAndOverride handler cls = some required) (hne : required ≠ []) :
    canActivate provider handler cls payload =
      every (coalesce (provider.rolesClaim payload) (.array [])).includes required := by
  rw [canActivate, hroles]
  cases required with
  | nil => exact absurd rfl hne
  | cons role roles =>
      dsimp only
      rw [JwtStrategy.validate, provider.extractRoles_eq]

/-- The claim is an array that contains every required role as an element. -/
def Grants (claim : Option Json) (required : List JsString) : Prop :=
  ∃ elements, claim = some (.array elements) ∧ ∀ role ∈ required, .string role ∈ elements

/-- The check answers, and answers yes exactly if the claim grants every required role. -/
def FailsClosed (claim : Option Json) (required : List JsString)
    (result : Except Exception Bool) : Prop :=
  ∃ granted, result = .ok granted ∧ (granted = true ↔ Grants claim required)

/-- The claim is missing, `null` or an array, or a string that lacks some required role. -/
def checkable (required : List JsString) : Option Json → Bool
  | none | some .null | some (.array _) => true
  | some (.string s) => required.any fun role => !decide (role <:+: s)
  | some (.bool _) | some (.number _) | some (.object _) => false

/-! ## The check, claim by claim -/

lemma every_includes_array (elements : List Json) (required : List JsString) :
    ∃ granted, every (Json.array elements).includes required = .ok granted ∧
      (granted = true ↔ ∀ role ∈ required, .string role ∈ elements) := by
  refine ⟨_, every_of_ok (fun _ => rfl) required, ?_⟩
  rw [List.all_eq_true]
  exact forall₂_congr fun role _ => Json.any_isString_iff

/-- An array grants what it contains. -/
lemma failsClosed_array (elements : List Json) (required : List JsString) :
    FailsClosed (some (.array elements)) required
      (every (Json.array elements).includes required) := by
  obtain ⟨granted, hresult, hiff⟩ := every_includes_array elements required
  refine ⟨granted, hresult, hiff.trans ?_⟩
  constructor
  · exact fun hall => ⟨elements, rfl, hall⟩
  · rintro ⟨elements', heq, hall⟩
    obtain rfl := Json.array.inj (Option.some.inj heq)
    exact hall

/-- Without an array nothing is granted, and the check must say no. -/
lemma failsClosed_iff_of_no_array {claim : Option Json} {required : List JsString}
    {result : Except Exception Bool} (hclaim : ∀ elements, claim ≠ some (.array elements)) :
    FailsClosed claim required result ↔ result = .ok false := by
  have hnone : ¬ Grants claim required := by
    rintro ⟨elements, heq, -⟩
    exact hclaim elements heq
  constructor
  · rintro ⟨granted, hresult, hiff⟩
    cases granted with
    | false => exact hresult
    | true => exact absurd (hiff.mp rfl) hnone
  · intro hresult
    exact ⟨false, hresult, by simp [hnone]⟩

/-- No claim is an empty list, which includes no role. -/
lemma every_includes_nil {required : List JsString} (hne : required ≠ []) :
    every (Json.array []).includes required = .ok false := by
  cases required with
  | nil => exact absurd rfl hne
  | cons role roles => rfl

/-- A string includes its parts. -/
lemma every_includes_string (s : JsString) (required : List JsString) :
    every (Json.string s).includes required = .ok (required.all fun role => role <:+: s) :=
  every_of_ok (fun _ => rfl) required

/-- **Role checks fail closed exactly for lists and absent claims**, and for those strings that some
required role is no part of; for every provider, every non-empty list of required roles and every
payload. -/
theorem fails_closed_iff {provider : AuthProvider} {handler cls : Option (List JsString)}
    {required : List JsString} {payload : JsonObject}
    (hroles : getAllAndOverride handler cls = some required) (hne : required ≠ []) :
    FailsClosed (provider.rolesClaim payload) required
        (canActivate provider handler cls payload) ↔
      checkable required (provider.rolesClaim payload) = true := by
  rw [canActivate_eq hroles hne]
  cases hclaim : provider.rolesClaim payload with
  | none =>
      rw [failsClosed_iff_of_no_array (by simp)]
      exact iff_of_true (every_includes_nil hne) rfl
  | some value =>
      cases value with
      | null =>
          rw [failsClosed_iff_of_no_array (by simp)]
          exact iff_of_true (every_includes_nil hne) rfl
      | array elements => exact iff_of_true (failsClosed_array elements required) rfl
      | string s =>
          rw [failsClosed_iff_of_no_array (by simp)]
          show every (Json.string s).includes required = _ ↔ _
          rw [every_includes_string, checkable]
          simp
      | bool | number | object =>
          rw [failsClosed_iff_of_no_array (by simp)]
          refine iff_of_false (fun hc => ?_) (by simp [checkable])
          exact absurd (hc.symm.trans (every_of_error (fun _ => rfl) hne)) (by simp)

/-- The payload of a Keycloak token with the given `realm_access.roles`. -/
def realmToken (roles : Json) : JsonObject :=
  [(js "sub", .string (js "alice")), (js "realm_access", .object [(js "roles", roles)])]

lemma rolesClaim_realmToken (roles : Json) :
    AuthProvider.keycloak.rolesClaim (realmToken roles) = some roles := rfl

/-- A token that lists one role of two. -/
def readerToken : JsonObject := realmToken (.array [.string (js "product:read")])

theorem fails_closed_reader :
    FailsClosed (AuthProvider.keycloak.rolesClaim readerToken)
      [js "product:read", js "product:write"]
      (canActivate .keycloak none (some [js "product:read", js "product:write"]) readerToken) :=
  (fails_closed_iff rfl (by simp)).mpr rfl

/-- **A string that contains the required role is let through**, though it is no list of roles. -/
theorem opens_on_string :
    ¬ ∀ provider handler cls required payload, getAllAndOverride handler cls = some required →
      required ≠ [] → FailsClosed (AuthProvider.rolesClaim provider payload) required
        (canActivate provider handler cls payload) := by
  intro hclosed
  obtain ⟨granted, hresult, hiff⟩ := hclosed .keycloak (some [js "product:write"]) none
    [js "product:write"] (realmToken (.string (js "product:write-requested"))) rfl (by simp)
  have hopen : canActivate .keycloak (some [js "product:write"]) none
      (realmToken (.string (js "product:write-requested"))) = .ok true := by
    decide +kernel
  obtain rfl := Except.ok.inj (hopen.symm.trans hresult)
  obtain ⟨elements, heq, -⟩ := hiff.mp rfl
  rw [rolesClaim_realmToken] at heq
  exact absurd (Option.some.inj heq) (by simp)

end RedisApi.Auth
