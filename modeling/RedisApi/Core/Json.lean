import RedisApi.Core.EcmaScript
import Mathlib.Data.List.Infix
import Mathlib.Data.Rat.Defs

/-!
# JSON values in ECMAScript

What `JSON.parse` returns, and what a program that trusts its type does with it.  An `Option Json`
is the value of an expression that may also be `undefined`.

* `JsonObject.get`, `optionalGet`, `coalesce` — `value[key]`, `value?.key` and `value ?? otherwise`.
* `Json.includes` — `value.includes(s)`: an array is searched for an element, a string for a
  substring, and any other value has no such method.
* `every_of_ok`, `every_of_error` — `Array.prototype.every` with a callback that may throw.
-/

namespace Core.EcmaScript

/-- A JSON value.  The members of an object stand in the order of the text; of several with one key,
the last counts. -/
inductive Json
  | null
  | bool (value : Bool)
  | number (value : ℚ)
  | string (value : JsString)
  | array (elements : List Json)
  | object (members : List (JsString × Json))

/-- The members of an object. -/
abbrev JsonObject := List (JsString × Json)

inductive Exception
  | typeError
  deriving DecidableEq, Repr

/-! ## Access -/

/-- `object[key]`, for a key that no built-in prototype has. -/
def JsonObject.get (members : JsonObject) (key : JsString) : Option Json :=
  (members.reverse.find? fun m => m.1 = key).map Prod.snd

/-- `value?.key`, for a key that no built-in prototype has: `undefined` where the value is no
object. -/
def optionalGet (value : Option Json) (key : JsString) : Option Json :=
  match value with
  | some (.object members) => JsonObject.get members key
  | _ => none

/-- `value ?? otherwise` -/
def coalesce (value : Option Json) (otherwise : Json) : Json :=
  match value with
  | none | some .null => otherwise
  | some value => value

/-! ## Methods -/

/-- `value === s` -/
def Json.isString (s : JsString) : Json → Bool
  | .string t => t = s
  | _ => false

/-- `value.includes(s)` -/
def Json.includes (value : Json) (s : JsString) : Except Exception Bool :=
  match value with
  | .array elements => .ok (elements.any (Json.isString s))
  | .string t => .ok (decide (s <:+: t))
  | .null | .bool _ | .number _ | .object _ => .error .typeError

/-- `Array.prototype.every`: it stops at the first element that fails. -/
def every {α : Type} (callback : α → Except Exception Bool) : List α → Except Exception Bool
  | [] => .ok true
  | a :: as =>
      match callback a with
      | .error e => .error e
      | .ok false => .ok false
      | .ok true => every callback as

lemma Json.isString_iff {s : JsString} {value : Json} :
    value.isString s = true ↔ value = .string s := by
  cases value <;> simp [Json.isString]

/-- An array includes its elements. -/
lemma Json.any_isString_iff {s : JsString} {elements : List Json} :
    elements.any (Json.isString s) = true ↔ Json.string s ∈ elements := by
  simp [Json.isString_iff]

/-- `every` with a callback that does not throw. -/
lemma every_of_ok {α : Type} {callback : α → Except Exception Bool} {p : α → Bool}
    (h : ∀ a, callback a = .ok (p a)) (as : List α) : every callback as = .ok (as.all p) := by
  induction as with
  | nil => rfl
  | cons a as ih =>
      rw [every, h a, List.all_cons]
      cases p a with
      | false => rfl
      | true => exact ih

/-- `every` with a callback that throws at once. -/
lemma every_of_error {α : Type} {callback : α → Except Exception Bool} {e : Exception}
    (h : ∀ a, callback a = .error e) {as : List α} (has : as ≠ []) :
    every callback as = .error e := by
  cases as with
  | nil => exact absurd rfl has
  | cons a as => rw [every, h a]

end Core.EcmaScript
