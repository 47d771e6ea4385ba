import RedisApi.Auth.Keycloak
import RedisApi.Core.FormUrlEncoded
import RedisApi.Core.JsonText

/-!
# The requests to Keycloak

The bodies that `keycloak-identity.service.ts` sends, byte for byte, and what Keycloak reads from
them.  The token requests are forms, which have no bytes for lone surrogates; the requests of the
admin API are JSON, which escapes them.

* `loginBody`, `adminTokenBody` — the forms; `token_requests_read`.
* `createUserBody`, `assignRoleBody` — JSON; `admin_requests_read`.
* `credentials_match` — which credentials at a login are those of a registration.
-/

namespace RedisApi.Auth

open Core EcmaScript

/-! ## What is sent -/

/-- What the service takes from its configuration. -/
structure Config where
  loginClientId : JsString
  adminClientId : JsString
  adminClientSecret : JsString
  deriving DecidableEq, Repr

/-- `new URLSearchParams(record)` -/
def searchParams (record : List (JsString × JsString)) : List (List Char × List Char) :=
  record.map fun entry => (scalars entry.1, scalars entry.2)

/-- The body of the request that `login` makes. -/
def loginBody (config : Config) (username password : JsString) : Bytes :=
  serializeForm (searchParams
    [(js "grant_type", js "password"), (js "client_id", config.loginClientId),
      (js "username", username), (js "password", password)])

/-- The body of the request that `getAdminToken` makes. -/
def adminTokenBody (config : Config) : Bytes :=
  serializeForm (searchParams
    [(js "grant_type", js "client_credentials"), (js "client_id", config.adminClientId),
      (js "client_secret", config.adminClientSecret)])

def Credential.toJson (credential : Credential) : Json :=
  .object [(js "type", .string credential.type), (js "value", .string credential.value),
    (js "temporary", .bool credential.temporary)]

def UserRepresentation.toJson (user : UserRepresentation) : Json :=
  .object [(js "username", .string user.username), (js "email", .string user.email),
    (js "firstName", .string user.firstName), (js "lastName", .string user.lastName),
    (js "enabled", .bool user.enabled), (js "emailVerified", .bool user.emailVerified),
    (js "requiredActions", .array (user.requiredActions.map .string)),
    (js "credentials", .array (user.credentials.map Credential.toJson))]

def Role.toJson (role : Role) : Json :=
  .object [(js "id", .string role.id), (js "name", .string role.name)]

/-- The body of the request that `createUser` makes. -/
def createUserBody (dto : RegisterDto) : Option Bytes :=
  (stringify dto.representation.toJson).map encodeBody

/-- The body of the request that `assignRole` makes in the end. -/
def assignRoleBody (role : Role) : Option Bytes :=
  (stringify (.array [role.toJson])).map encodeBody

/-! ## What is read -/

def Credential.read (value : Json) : Option Credential := do
  let type ← readMember readString (js "type") value
  let secret ← readMember readString (js "value") value
  let temporary ← readMember readBool (js "temporary") value
  return { type := type, value := secret, temporary := temporary }

def UserRepresentation.read (value : Json) : Option UserRepresentation := do
  let username ← readMember readString (js "username") value
  let email ← readMember readString (js "email") value
  let firstName ← readMember readString (js "firstName") value
  let lastName ← readMember readString (js "lastName") value
  let enabled ← readMember readBool (js "enabled") value
  let emailVerified ← readMember readBool (js "emailVerified") value
  let requiredActions ← readMember (readArray readString) (js "requiredActions") value
  let credentials ← readMember (readArray Credential.read) (js "credentials") value
  return { username := username, email := email, firstName := firstName, lastName := lastName
           enabled := enabled, emailVerified := emailVerified, requiredActions := requiredActions
           credentials := credentials }

def Role.read (value : Json) : Option Role := do
  let id ← readMember readString (js "id") value
  let name ← readMember readString (js "name") value
  return { id := id, name := name }

/-- The credentials that a token request brings. -/
def loginCredentials (body : Bytes) : Option (JsString × JsString) := do
  let params ← parseForm body
  let username ← params.lookup (scalars (js "username"))
  let password ← params.lookup (scalars (js "password"))
  return (username.flatMap codeUnits, password.flatMap codeUnits)

/-- The credentials of the user that a request of the admin API creates. -/
def createdCredentials (body : Bytes) : Option (JsString × JsString) := do
  let user ← readBody UserRepresentation.read body
  let credential ← user.credentials.find? fun c => c.type = js "password"
  return (user.username, credential.value)

/-! ## What is sent is read -/

/-- **The token requests are read as they are meant.**  Whatever strings the client and the
configuration supply, no parameter is added, lost or changed, but for lone surrogates in a value. -/
theorem token_requests_read (config : Config) (username password : JsString) :
    parseForm (loginBody config username password) = some
      [("grant_type".toList, "password".toList),
        ("client_id".toList, scalars config.loginClientId),
        ("username".toList, scalars username), ("password".toList, scalars password)] ∧
    parseForm (adminTokenBody config) = some
      [("grant_type".toList, "client_credentials".toList),
        ("client_id".toList, scalars config.adminClientId),
        ("client_secret".toList, scalars config.adminClientSecret)] := by
  rw [loginBody, adminTokenBody, parseForm_serializeForm, parseForm_serializeForm]
  simp only [searchParams, List.map_cons, List.map_nil, js, scalars_flatMap, and_self]

lemma Credential.read_toJson (credential : Credential) :
    Credential.read credential.toJson = some credential := rfl

lemma Role.read_toJson (role : Role) : Role.read role.toJson = some role := rfl

lemma UserRepresentation.read_toJson (user : UserRepresentation) :
    UserRepresentation.read user.toJson = some user := by
  have hactions : readMember (readArray readString) (js "requiredActions") user.toJson =
      some user.requiredActions :=
    @mapM_map_of_inverse _ Json.string readString (fun _ => rfl) user.requiredActions
  have hcredentials : readMember (readArray Credential.read) (js "credentials") user.toJson =
      some user.credentials :=
    mapM_map_of_inverse Credential.read_toJson user.credentials
  rw [UserRepresentation.read, hactions, hcredentials]
  rfl

/-- What a reader makes of a body is what it makes of the value that was written. -/
lemma createUserBody_read {α : Type} (read : Json → Option α) (dto : RegisterDto) :
    (createUserBody dto).bind (readBody read) = read dto.representation.toJson := by
  have htext : ∃ text, stringify dto.representation.toJson = some text := ⟨_, rfl⟩
  rcases htext with ⟨text, htext⟩
  rw [createUserBody, htext, Option.map_some, Option.bind_some, readBody_encodeBody _ htext]

lemma assignRoleBody_read {α : Type} (read : Json → Option α) (role : Role) :
    (assignRoleBody role).bind (readBody read) = read (.array [role.toJson]) := by
  have htext : ∃ text, stringify (.array [role.toJson]) = some text := ⟨_, rfl⟩
  rcases htext with ⟨text, htext⟩
  rw [assignRoleBody, htext, Option.map_some, Option.bind_some, readBody_encodeBody _ htext]

/-- **The requests of the admin API are read as they are meant.**  Whatever is in the strings of the
body that the client has sent, quotation marks, backslashes and lone surrogates included, no member
is added, lost or changed: the value that is read is the one that was written, and so Keycloak
creates the user, and assigns the role, that the service has in its hands. -/
theorem admin_requests_read :
    (∀ dto : RegisterDto,
      (createUserBody dto).bind (readBody some) = some dto.representation.toJson ∧
        (createUserBody dto).bind (readBody UserRepresentation.read) = some dto.representation) ∧
    ∀ role : Role,
      (assignRoleBody role).bind (readBody some) = some (.array [role.toJson]) ∧
        (assignRoleBody role).bind (readBody (readArray Role.read)) = some [role] := by
  constructor
  · intro dto
    have hvalue := createUserBody_read some dto
    have huser := createUserBody_read UserRepresentation.read dto
    rw [UserRepresentation.read_toJson] at huser
    exact ⟨hvalue, huser⟩
  · intro role
    have hvalue := assignRoleBody_read some role
    have hroles := assignRoleBody_read (readArray Role.read) role
    have hread : readArray Role.read (.array [role.toJson]) = some [role] :=
      mapM_map_of_inverse Role.read_toJson [role]
    rw [hread] at hroles
    exact ⟨hvalue, hroles⟩

/-! ## Credentials -/

lemma loginCredentials_loginBody (config : Config) (username password : JsString) :
    loginCredentials (loginBody config username password) =
      some (toWellFormed username, toWellFormed password) := by
  rw [loginCredentials, loginBody, parseForm_serializeForm]
  rfl

lemma createdCredentials_createUserBody (dto : RegisterDto) :
    (createUserBody dto).bind createdCredentials = some (dto.username, dto.password) := by
  have hread := createUserBody_read UserRepresentation.read dto
  rw [UserRepresentation.read_toJson] at hread
  rcases Option.bind_eq_some_iff.mp hread with ⟨body, hbody, hread⟩
  rw [hbody, Option.bind_some, createdCredentials, hread]
  rfl

/-- **Which credentials at a login are those of a registration.**  What Keycloak reads at a login
are the credentials that it was given at the registration if and only if they are so once lone
surrogates have been replaced; a user whose name or password has lone surrogates was created with
credentials that no login can bring. -/
theorem credentials_match (config : Config) (dto : RegisterDto) :
    (∀ username password,
      loginCredentials (loginBody config username password) =
          (createUserBody dto).bind createdCredentials ↔
        toWellFormed username = dto.username ∧ toWellFormed password = dto.password) ∧
    ((∃ username password, loginCredentials (loginBody config username password) =
        (createUserBody dto).bind createdCredentials) ↔
      isWellFormed dto.username = true ∧ isWellFormed dto.password = true) := by
  have hmatch : ∀ username password,
      loginCredentials (loginBody config username password) =
          (createUserBody dto).bind createdCredentials ↔
        toWellFormed username = dto.username ∧ toWellFormed password = dto.password := by
    intro username password
    rw [loginCredentials_loginBody, createdCredentials_createUserBody, Option.some.injEq,
      Prod.mk.injEq]
  refine ⟨hmatch, ?_⟩
  constructor
  · rintro ⟨username, password, h⟩
    rcases (hmatch username password).mp h with ⟨husername, hpassword⟩
    rw [← husername, ← hpassword, isWellFormed_iff, isWellFormed_iff]
    exact ⟨ofChars_toWellFormed username, ofChars_toWellFormed password⟩
  · rintro ⟨husername, hpassword⟩
    refine ⟨dto.username, dto.password, (hmatch _ _).mpr ⟨?_, ?_⟩⟩
    · exact toWellFormed_eq_iff.mpr husername
    · exact toWellFormed_eq_iff.mpr hpassword

end RedisApi.Auth
