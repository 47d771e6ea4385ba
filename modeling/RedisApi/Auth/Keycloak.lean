import RedisApi.Core.EcmaScript
import Mathlib.Data.List.Nodup

/-!
# Keycloak's users

What the identity service (`keycloak-identity.service.ts`) reads and writes at Keycloak: the users
with their roles.  That neither an id nor a username occurs twice is part of the store.

* `Keycloak.create` — `POST …/users`, refused where the username is taken.
* `Keycloak.assign` — `POST …/users/{userId}/role-mappings/realm`.
-/

namespace RedisApi.Auth

open Core EcmaScript

/-- `register.dto.ts` -/
structure RegisterDto where
  username : JsString
  password : JsString
  email : JsString
  firstName : JsString
  lastName : JsString
  deriving DecidableEq, Repr

structure Credential where
  type : JsString
  value : JsString
  temporary : Bool
  deriving DecidableEq, Repr

/-- The body of the request that creates a user. -/
structure UserRepresentation where
  username : JsString
  email : JsString
  firstName : JsString
  lastName : JsString
  enabled : Bool
  emailVerified : Bool
  requiredActions : List JsString
  credentials : List Credential
  deriving DecidableEq, Repr

def RegisterDto.representation (dto : RegisterDto) : UserRepresentation where
  username := dto.username
  email := dto.email
  firstName := dto.firstName
  lastName := dto.lastName
  enabled := true
  emailVerified := true
  requiredActions := []
  credentials := [{ type := js "password", value := dto.password, temporary := false }]

structure Role where
  id : JsString
  name : JsString
  deriving DecidableEq, Repr

structure User where
  id : JsString
  representation : UserRepresentation
  roles : List Role
  deriving DecidableEq, Repr

def User.username (u : User) : JsString := u.representation.username

/-- The user once the role is among its own. -/
def User.withRole (u : User) (role : Role) : User :=
  if role ∈ u.roles then u else { u with roles := u.roles ++ [role] }

@[simp] lemma User.withRole_id (u : User) (role : Role) : (u.withRole role).id = u.id := by
  rw [withRole]
  split_ifs <;> rfl

@[simp] lemma User.withRole_representation (u : User) (role : Role) :
    (u.withRole role).representation = u.representation := by
  rw [withRole]
  split_ifs <;> rfl

structure Keycloak where
  users : List User
  ids : (users.map User.id).Nodup
  usernames : (users.map User.username).Nodup

namespace Keycloak

/-- A realm without users. -/
def empty : Keycloak where
  users := []
  ids := List.nodup_nil
  usernames := List.nodup_nil

/-- The usernames that are taken. -/
def taken (k : Keycloak) : List JsString := k.users.map User.username

instance (k : Keycloak) (username : JsString) : Decidable (username ∈ k.taken) :=
  inferInstanceAs (Decidable (username ∈ k.users.map User.username))

/-- The store with one more user, if neither its username nor its id is taken. -/
def create (k : Keycloak) (id : JsString) (representation : UserRepresentation) :
    Option Keycloak :=
  if h : id ∉ k.users.map User.id ∧ representation.username ∉ k.taken then
    some
      { users := k.users ++ [{ id := id, representation := representation, roles := [] }]
        ids := by
          rw [List.map_append, List.nodup_append']
          exact ⟨k.ids, List.nodup_singleton _, by simpa [List.Disjoint] using h.1⟩
        usernames := by
          rw [List.map_append, List.nodup_append']
          exact ⟨k.usernames, List.nodup_singleton _,
            by simpa [List.Disjoint, taken, User.username] using h.2⟩ }
  else none

/-- The store once the user has the role. -/
def assign (k : Keycloak) (userId : JsString) (role : Role) : Keycloak where
  users := k.users.map fun u => if u.id = userId then u.withRole role else u
  ids := by
    have hids : User.id ∘ (fun u : User => if u.id = userId then u.withRole role else u) =
        User.id := by
      funext u
      rw [Function.comp]
      split_ifs <;> simp
    rw [List.map_map, hids]
    exact k.ids
  usernames := by
    have hnames : User.username ∘ (fun u : User => if u.id = userId then u.withRole role else u) =
        User.username := by
      funext u
      rw [Function.comp]
      split_ifs <;> simp [User.username]
    rw [List.map_map, hnames]
    exact k.usernames

lemma create_eq_some {k k' : Keycloak} {id : JsString} {representation : UserRepresentation}
    (h : k.create id representation = some k') :
    k'.users = k.users ++ [{ id := id, representation := representation, roles := [] }] ∧
      representation.username ∉ k.taken := by
  rw [create] at h
  split_ifs at h with hfree
  exact ⟨congrArg users (Option.some.inj h).symm, hfree.2⟩

/-- Assigning a role to the user that came last changes that user alone. -/
lemma assign_users {k : Keycloak} {users : List User} {u : User} (role : Role)
    (h : k.users = users ++ [u]) : (k.assign u.id role).users = users ++ [u.withRole role] := by
  have hids := k.ids
  rw [h, List.map_append, List.nodup_append'] at hids
  have hother : ∀ v ∈ users, v.id ≠ u.id := by
    intro v hv heq
    exact hids.2.2 (List.mem_map_of_mem hv) (by simp [heq])
  show (k.users.map fun v => if v.id = u.id then v.withRole role else v) = _
  rw [h, List.map_append, List.map_singleton, if_pos rfl]
  congr 1
  refine (List.map_congr_left fun v hv => ?_).trans (List.map_id _)
  rw [if_neg (hother v hv)]
  rfl

end Keycloak

end RedisApi.Auth
