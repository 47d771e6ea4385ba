import RedisApi.Auth.Keycloak
import RedisApi.Core.Json

/-!
# Request bodies

The two classes that are bound with `@Body()` (`login.dto.ts`, `register.dto.ts`), behind
`ValidationPipe({ whitelist: true, forbidNonWhitelisted: true })` (`main.ts`).  A class is the list
of its decorated properties; a body is what `JSON.parse` returned.  The pipe is not part of the
repository: which bodies it accepts, what the length of a string is, and what an e-mail address, is
left to it (`Pipe`), but in a body that it accepts every decorator holds.

* `Constraint.holds` — what a decorator demands of a property.
* `Pipe` — the pipe, with what is known of it.
* `ValidRegister`, `registerDto_valid` — what this says about the object that the handler gets.
-/

namespace RedisApi.Http

open Core EcmaScript Auth

/-! ## The pipe -/

/-- The decorators that are used. -/
inductive Constraint
  | isString
  | minLength (min : ℕ)
  | maxLength (max : ℕ)
  | isEmail
  deriving DecidableEq, Repr

/-- What the library knows about strings. -/
structure Validator where
  length : JsString → ℕ
  isEmail : JsString → Bool

/-- A constraint holds of strings only, and of no missing property. -/
def Constraint.holds (v : Validator) : Constraint → Option Json → Bool
  | .isString, some (.string _) => true
  | .minLength min, some (.string s) => min ≤ v.length s
  | .maxLength max, some (.string s) => v.length s ≤ max
  | .isEmail, some (.string s) => v.isEmail s
  | _, _ => false

/-- The decorated properties of a class. -/
abbrev Schema := List (JsString × List Constraint)

/-- Every constraint of the class holds. -/
def Schema.Holds (v : Validator) (schema : Schema) (body : JsonObject) : Prop :=
  ∀ property constraints, (property, constraints) ∈ schema → ∀ c ∈ constraints,
    c.holds v (JsonObject.get body property) = true

/-- A property that the pipe objects to, with the names of the constraints. -/
structure ValidationError where
  property : JsString
  constraints : List String
  deriving DecidableEq, Repr

/-- A validation pipe: what it objects to in a body that is bound to a class.  It refuses a body
that violates a constraint of the class; it may refuse others, such as those with further
properties. -/
structure Pipe where
  validator : Validator
  validate : Schema → JsonObject → List ValidationError
  holds_of_accepted : ∀ schema body, validate schema body = [] → schema.Holds validator body

/-! ## The classes -/

/-- `login.dto.ts` -/
structure LoginDto where
  username : JsString
  password : JsString
  deriving DecidableEq, Repr

def loginSchema : Schema :=
  [(js "username", [.isString, .maxLength 100]), (js "password", [.isString, .maxLength 128])]

def registerSchema : Schema :=
  [(js "username", [.isString, .minLength 3, .maxLength 50]),
    (js "password", [.isString, .minLength 8, .maxLength 128]),
    (js "email", [.isEmail, .maxLength 255]),
    (js "firstName", [.isString, .maxLength 50]),
    (js "lastName", [.isString, .maxLength 50])]

/-- `body.key`, where it is a string. -/
def stringAt (body : JsonObject) (key : JsString) : JsString :=
  match JsonObject.get body key with
  | some (.string s) => s
  | _ => []

/-- What `login` gets. -/
def loginDto (body : JsonObject) : LoginDto where
  username := stringAt body (js "username")
  password := stringAt body (js "password")

/-- What `register` gets. -/
def registerDto (body : JsonObject) : RegisterDto where
  username := stringAt body (js "username")
  password := stringAt body (js "password")
  email := stringAt body (js "email")
  firstName := stringAt body (js "firstName")
  lastName := stringAt body (js "lastName")

/-- The properties of a body that a valid object was read from are strings. -/
def StringsOf (body : JsonObject) (keys : List JsString) : Prop :=
  ∀ key ∈ keys, JsonObject.get body key = some (.string (stringAt body key))

/-- What has been checked of the object that `register` gets. -/
structure ValidRegister (v : Validator) (dto : RegisterDto) : Prop where
  username : 3 ≤ v.length dto.username ∧ v.length dto.username ≤ 50
  password : 8 ≤ v.length dto.password ∧ v.length dto.password ≤ 128
  email : v.isEmail dto.email = true ∧ v.length dto.email ≤ 255
  firstName : v.length dto.firstName ≤ 50
  lastName : v.length dto.lastName ≤ 50

lemma stringAt_of_holds {v : Validator} {c : Constraint} {body : JsonObject} {key : JsString}
    (h : c.holds v (JsonObject.get body key) = true) :
    JsonObject.get body key = some (.string (stringAt body key)) ∧
      c.holds v (some (.string (stringAt body key))) = true := by
  have hget : JsonObject.get body key = some (.string (stringAt body key)) := by
    rw [stringAt]
    cases hvalue : JsonObject.get body key with
    | none => cases c <;> simp [hvalue, Constraint.holds] at h
    | some value => cases value <;> cases c <;> simp [hvalue, Constraint.holds] at h ⊢
  exact ⟨hget, hget ▸ h⟩

/-- **What is accepted is valid**: the object holds the strings of the body, within their bounds. -/
theorem registerDto_valid {pipe : Pipe} {body : JsonObject}
    (h : pipe.validate registerSchema body = []) :
    ValidRegister pipe.validator (registerDto body) ∧
      StringsOf body (registerSchema.map Prod.fst) := by
  have hholds := pipe.holds_of_accepted _ _ h
  have hstring : ∀ property constraints c, (property, constraints) ∈ registerSchema →
      c ∈ constraints →
      c.holds pipe.validator (some (.string (stringAt body property))) = true := by
    intro property constraints c hmem hc
    exact (stringAt_of_holds (hholds property constraints hmem c hc)).2
  constructor
  · have husername := hstring _ _ (.minLength 3) (.head _) (.tail _ (.head _))
    have husername' := hstring _ _ (.maxLength 50) (.head _) (.tail _ (.tail _ (.head _)))
    have hpassword := hstring _ _ (.minLength 8) (.tail _ (.head _)) (.tail _ (.head _))
    have hpassword' := hstring _ _ (.maxLength 128) (.tail _ (.head _))
      (.tail _ (.tail _ (.head _)))
    have hemail := hstring _ _ .isEmail (.tail _ (.tail _ (.head _))) (.head _)
    have hemail' := hstring _ _ (.maxLength 255) (.tail _ (.tail _ (.head _))) (.tail _ (.head _))
    have hfirst := hstring _ _ (.maxLength 50) (.tail _ (.tail _ (.tail _ (.head _))))
      (.tail _ (.head _))
    have hlast := hstring _ _ (.maxLength 50) (.tail _ (.tail _ (.tail _ (.tail _ (.head _)))))
      (.tail _ (.head _))
    exact ⟨⟨of_decide_eq_true husername, of_decide_eq_true husername'⟩,
      ⟨of_decide_eq_true hpassword, of_decide_eq_true hpassword'⟩,
      ⟨hemail, of_decide_eq_true hemail'⟩, of_decide_eq_true hfirst, of_decide_eq_true hlast⟩
  · intro key hkey
    rcases List.mem_map.mp hkey with ⟨⟨property, constraints⟩, hmem, rfl⟩
    have hne : ∃ c, c ∈ constraints := by
      simp only [registerSchema, List.mem_cons, Prod.mk.injEq, List.not_mem_nil, or_false] at hmem
      rcases hmem with ⟨-, rfl⟩ | ⟨-, rfl⟩ | ⟨-, rfl⟩ | ⟨-, rfl⟩ | ⟨-, rfl⟩ <;>
        exact ⟨_, List.mem_cons_self⟩
    rcases hne with ⟨c, hc⟩
    exact (stringAt_of_holds (hholds property constraints hmem c hc)).1

/-! ## A pipe -/

def Constraint.name : Constraint → String
  | .isString => "isString"
  | .minLength _ => "minLength"
  | .maxLength _ => "maxLength"
  | .isEmail => "isEmail"

/-- What a property violates. -/
def violations (v : Validator) (body : JsonObject) (field : JsString × List Constraint) :
    List ValidationError :=
  match field.2.filter fun c => !c.holds v (JsonObject.get body field.1) with
  | [] => []
  | failed => [{ property := field.1, constraints := failed.map Constraint.name }]

lemma holds_of_violations {v : Validator} {body : JsonObject}
    {field : JsString × List Constraint} (h : violations v body field = []) :
    ∀ c ∈ field.2, c.holds v (JsonObject.get body field.1) = true := by
  rw [violations] at h
  split at h
  · next hnone =>
    intro c hc
    simpa using List.filter_eq_nil_iff.mp hnone c hc
  · exact absurd h (by simp)

/-- The pipe that checks the decorators and nothing else. -/
def decorators (v : Validator) : Pipe where
  validator := v
  validate schema body := schema.flatMap (violations v body)
  holds_of_accepted := by
    intro schema body h property constraints hmem
    exact holds_of_violations (List.flatMap_eq_nil_iff.mp h (property, constraints) hmem)

end RedisApi.Http
