import RedisApi.Core.Bytes
import RedisApi.Core.EcmaScript

/-!
# Strings on their way out

A string of ECMAScript may contain a surrogate without its partner, which is no character and which
UTF-8 has no bytes for.

* `codePoints` — the characters of a string, and its lone surrogates; `units_codePoints` puts the
  string together again.
* `scalars` — the characters alone, with U+FFFD in the place of every lone surrogate.
* `isWellFormed_iff` — a string without lone surrogates consists of characters; `toWellFormed`
  makes it of any string.
* `encodeUtf8`, `decodeUtf8` — characters as bytes and back; `decodeUtf8_encodeUtf8`.
* `encodeBody`, `decodeBody` — a string as the body of a request, and what a server takes it for.
* `hexCode`, `hexValue` — hexadecimal digits.
-/

namespace Core.EcmaScript

/-! ## Code points -/

inductive CodePoint
  | char (c : Char)
  | surrogate (u : UInt16)
  deriving DecidableEq, Repr

/-- A high surrogate, the first one of a pair. -/
def isLead (u : UInt16) : Bool := 0xD800 ≤ u.toNat && u.toNat < 0xDC00

def isTrail (u : UInt16) : Bool := 0xDC00 ≤ u.toNat && u.toNat < 0xE000

/-- The code point of a code unit that is not one of a pair. -/
def ofUnit (u : UInt16) : CodePoint :=
  if isLead u || isTrail u then .surrogate u else .char (Char.ofNat u.toNat)

/-- The character of a pair. -/
def ofPair (u v : UInt16) : Char :=
  Char.ofNat (0x10000 + (u.toNat - 0xD800) * 0x400 + (v.toNat - 0xDC00))

/-- `StringToCodePoints` -/
def codePoints : JsString → List CodePoint
  | [] => []
  | [u] => [ofUnit u]
  | u :: v :: s =>
      if isLead u && isTrail v then .char (ofPair u v) :: codePoints s
      else ofUnit u :: codePoints (v :: s)

def CodePoint.units : CodePoint → JsString
  | .char c => codeUnits c
  | .surrogate u => [u]

def CodePoint.isChar : CodePoint → Bool
  | .char _ => true
  | .surrogate _ => false

/-- The character that stands for a code point in text. -/
def CodePoint.scalar : CodePoint → Char
  | .char c => c
  | .surrogate _ => Char.ofNat 0xFFFD

/-- The conversion to a string of scalar values. -/
def scalars (s : JsString) : List Char := (codePoints s).map CodePoint.scalar

/-- `s.isWellFormed()` -/
def isWellFormed (s : JsString) : Bool := (codePoints s).all CodePoint.isChar

lemma toNat_ofNat_unit {n : ℕ} (h : n < 0x10000) : (UInt16.ofNat n).toNat = n :=
  UInt16.toNat_ofNat_of_lt' h

lemma toNat_ofNat_char {n : ℕ} (h : n.isValidChar) : (Char.ofNat n).toNat = n := by
  rw [Char.ofNat, dif_pos h]
  rfl

/-- A character is no surrogate. -/
lemma char_cases (c : Char) :
    c.toNat < 0xD800 ∨ 0xE000 ≤ c.toNat ∧ c.toNat < 0x10000 ∨
      ∃ n, n < 0x100000 ∧ c.toNat = 0x10000 + n := by
  have hvalid : c.toNat < 0xD800 ∨ 0xDFFF < c.toNat ∧ c.toNat < 0x110000 := c.valid
  by_cases hplane : c.toNat < 0x10000
  · omega
  · exact Or.inr (Or.inr ⟨c.toNat - 0x10000, by omega, by omega⟩)

/-- The first character of a string that begins with its code units. -/
lemma codePoints_codeUnits_append (c : Char) (s : JsString) :
    codePoints (codeUnits c ++ s) = .char c :: codePoints s := by
  have hsingle : c.toNat < 0x10000 → (c.toNat < 0xD800 ∨ 0xE000 ≤ c.toNat) →
      codePoints (codeUnits c ++ s) = .char c :: codePoints s := by
    intro hplane hrange
    have hunit := toNat_ofNat_unit hplane
    have hlead : isLead (UInt16.ofNat c.toNat) = false := by
      simp only [isLead, hunit, Bool.and_eq_false_iff, decide_eq_false_iff_not]
      omega
    have htrail : isTrail (UInt16.ofNat c.toNat) = false := by
      simp only [isTrail, hunit, Bool.and_eq_false_iff, decide_eq_false_iff_not]
      omega
    have hpoint : ofUnit (UInt16.ofNat c.toNat) = .char c := by
      rw [ofUnit, hlead, htrail, hunit, Char.ofNat_toNat]
      rfl
    rw [codeUnits, if_pos hplane]
    cases s with
    | nil => exact congrArg (· :: []) hpoint
    | cons v s =>
        show codePoints (_ :: v :: s) = _
        rw [codePoints, hlead, hpoint]
        rfl
  rcases char_cases c with hlow | ⟨hhigh, hplane⟩ | ⟨n, hn, hc⟩
  · exact hsingle (by omega) (Or.inl hlow)
  · exact hsingle hplane (Or.inr hhigh)
  · have hu := @toNat_ofNat_unit (0xD800 + (c.toNat - 0x10000) / 0x400) (by omega)
    have hv := @toNat_ofNat_unit (0xDC00 + (c.toNat - 0x10000) % 0x400) (by omega)
    rw [codeUnits, if_neg (by omega)]
    show codePoints (_ :: _ :: s) = _
    rw [codePoints, if_pos ?_, ofPair, hu, hv]
    · have hback : 0x10000 + (0xD800 + (c.toNat - 0x10000) / 0x400 - 0xD800) * 0x400 +
          (0xDC00 + (c.toNat - 0x10000) % 0x400 - 0xDC00) = c.toNat := by
        omega
      rw [hback, Char.ofNat_toNat]
    · simp only [isLead, isTrail, hu, hv, Bool.and_eq_true, decide_eq_true_iff]
      omega

/-- The code points of a string that consists of characters. -/
lemma codePoints_flatMap (cs : List Char) :
    codePoints (cs.flatMap codeUnits) = cs.map CodePoint.char := by
  induction cs with
  | nil => rfl
  | cons c cs ih => rw [List.flatMap_cons, codePoints_codeUnits_append, ih, List.map_cons]

lemma scalars_flatMap (cs : List Char) : scalars (cs.flatMap codeUnits) = cs := by
  rw [scalars, codePoints_flatMap, List.map_map]
  exact List.map_id cs

lemma ofUnit_units (u : UInt16) : (ofUnit u).units = [u] := by
  rw [ofUnit]
  split_ifs with hsurrogate
  · rfl
  · have hu := u.toNat_lt
    have hvalid : u.toNat.isValidChar := by
      simp only [isLead, isTrail, Bool.or_eq_true, Bool.and_eq_true, decide_eq_true_iff]
        at hsurrogate
      show u.toNat < 0xD800 ∨ 0xDFFF < u.toNat ∧ u.toNat < 0x110000
      omega
    have hchar : (Char.ofNat u.toNat).toNat = u.toNat := toNat_ofNat_char hvalid
    rw [CodePoint.units, codeUnits, hchar, if_pos (by omega), UInt16.ofNat_toNat]

lemma ofPair_units {u v : UInt16} (hu : isLead u = true) (hv : isTrail v = true) :
    codeUnits (ofPair u v) = [u, v] := by
  simp only [isLead, isTrail, Bool.and_eq_true, decide_eq_true_iff] at hu hv
  have hvalid : (0x10000 + (u.toNat - 0xD800) * 0x400 + (v.toNat - 0xDC00)).isValidChar := by
    right
    omega
  have hchar := toNat_ofNat_char hvalid
  rw [codeUnits, ofPair, hchar, if_neg (by omega)]
  have hfirst : 0xD800 + (0x10000 + (u.toNat - 0xD800) * 0x400 + (v.toNat - 0xDC00) - 0x10000) /
      0x400 = u.toNat := by
    omega
  have hsecond : 0xDC00 + (0x10000 + (u.toNat - 0xD800) * 0x400 + (v.toNat - 0xDC00) - 0x10000) %
      0x400 = v.toNat := by
    omega
  rw [hfirst, hsecond, UInt16.ofNat_toNat, UInt16.ofNat_toNat]

/-- The code points are those of this string alone. -/
lemma units_codePoints (s : JsString) : (codePoints s).flatMap CodePoint.units = s := by
  fun_induction codePoints s with
  | case1 => rfl
  | case2 u =>
      rw [List.flatMap_singleton, ofUnit_units]
  | case3 u v s hpair ih =>
      rw [Bool.and_eq_true] at hpair
      rw [List.flatMap_cons, ih, CodePoint.units, ofPair_units hpair.1 hpair.2]
      rfl
  | case4 u v s hpair ih =>
      rw [List.flatMap_cons, ih, ofUnit_units]
      rfl

/-- The string consists of characters. -/
def OfChars (s : JsString) : Prop := ∃ cs : List Char, cs.flatMap codeUnits = s

lemma ofChars_nil : OfChars [] := ⟨[], rfl⟩

lemma OfChars.append {s t : JsString} (hs : OfChars s) (ht : OfChars t) : OfChars (s ++ t) := by
  rcases hs with ⟨cs, rfl⟩
  rcases ht with ⟨ds, rfl⟩
  exact ⟨cs ++ ds, List.flatMap_append⟩

lemma ofChars_codeUnits (c : Char) : OfChars (codeUnits c) := ⟨[c], List.flatMap_singleton _ _⟩

/-- Below the surrogates, every code unit is a character. -/
lemma ofChars_of_lt {s : JsString} (h : ∀ u ∈ s, u.toNat < 0xD800) : OfChars s := by
  induction s with
  | nil => exact ofChars_nil
  | cons u s ih =>
      have hu := h u List.mem_cons_self
      have hchar : (Char.ofNat u.toNat).toNat = u.toNat := toNat_ofNat_char (Or.inl hu)
      have hunits : codeUnits (Char.ofNat u.toNat) = [u] := by
        rw [codeUnits, hchar, if_pos (by omega), UInt16.ofNat_toNat]
      have hchars := (ofChars_codeUnits (Char.ofNat u.toNat)).append
        (ih fun v hv => h v (List.mem_cons_of_mem u hv))
      rwa [hunits] at hchars

/-- **A string is well formed if it consists of characters.** -/
lemma isWellFormed_iff {s : JsString} : isWellFormed s = true ↔ OfChars s := by
  constructor
  · intro h
    rw [isWellFormed, List.all_eq_true] at h
    refine ⟨scalars s, ?_⟩
    rw [scalars, List.flatMap_map]
    conv_rhs => rw [← units_codePoints s]
    refine List.flatMap_congr fun p hp => ?_
    cases p with
    | char c => rfl
    | surrogate u => exact absurd (h _ hp) (by simp [CodePoint.isChar])
  · rintro ⟨cs, rfl⟩
    rw [isWellFormed, codePoints_flatMap, List.all_map]
    exact List.all_eq_true.mpr fun _ _ => rfl

/-- `s.toWellFormed()` -/
def toWellFormed (s : JsString) : JsString := (scalars s).flatMap codeUnits

lemma ofChars_toWellFormed (s : JsString) : OfChars (toWellFormed s) := ⟨scalars s, rfl⟩

/-- A well-formed string stays as it is, and no other string does. -/
lemma toWellFormed_eq_iff {s : JsString} : toWellFormed s = s ↔ isWellFormed s = true := by
  rw [isWellFormed_iff]
  constructor
  · intro h
    rw [← h]
    exact ofChars_toWellFormed s
  · rintro ⟨cs, rfl⟩
    rw [toWellFormed, scalars_flatMap]

/-! ## UTF-8 -/

def encodeUtf8 (cs : List Char) : Bytes := cs.flatMap String.utf8EncodeChar

/-- The characters, if the bytes are those of characters. -/
def decodeUtf8 (bytes : Bytes) : Option (List Char) :=
  bytes.toByteArray.utf8Decode?.map Array.toList

lemma decodeUtf8_encodeUtf8 (cs : List Char) : decodeUtf8 (encodeUtf8 cs) = some cs := by
  have hdecode : (encodeUtf8 cs).toByteArray.utf8Decode? = some cs.toArray :=
    List.utf8Decode?_utf8Encode
  rw [decodeUtf8, hdecode]
  rfl

/-- The body of a request, where a string is given for it. -/
def encodeBody (text : JsString) : Bytes := encodeUtf8 (scalars text)

/-- What a server takes for the text of the body. -/
def decodeBody (body : Bytes) : Option JsString :=
  (decodeUtf8 body).map fun cs => cs.flatMap codeUnits

lemma decodeBody_encodeBody {text : JsString} (h : OfChars text) :
    decodeBody (encodeBody text) = some text := by
  rw [decodeBody, encodeBody, decodeUtf8_encodeUtf8]
  exact congrArg some (toWellFormed_eq_iff.mpr (isWellFormed_iff.mpr h))

/-! ## Hexadecimal digits -/

/-- The character code of a digit; the letters begin with `a`, or with `A`. -/
def hexCode (a d : ℕ) : ℕ := if d < 10 then 0x30 + d else a + (d - 10)

def hexValue (code : ℕ) : Option ℕ :=
  if 0x30 ≤ code ∧ code ≤ 0x39 then some (code - 0x30)
  else if 0x41 ≤ code ∧ code ≤ 0x46 then some (code - 0x41 + 10)
  else if 0x61 ≤ code ∧ code ≤ 0x66 then some (code - 0x61 + 10)
  else none

lemma hexValue_hexCode {a d : ℕ} (ha : a = 0x41 ∨ a = 0x61) (hd : d < 16) :
    hexValue (hexCode a d) = some d := by
  rw [hexCode, hexValue]
  rcases ha with rfl | rfl
  all_goals
    split_ifs
    all_goals first
      | omega
      | exact congrArg some (by omega)

lemma hexCode_lt {a d : ℕ} (ha : a = 0x41 ∨ a = 0x61) (hd : d < 16) : hexCode a d < 0x80 := by
  rw [hexCode]
  split_ifs <;> omega

end Core.EcmaScript
