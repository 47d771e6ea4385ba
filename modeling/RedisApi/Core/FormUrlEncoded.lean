import RedisApi.Core.Unicode

/-!
# `application/x-www-form-urlencoded`

What `URLSearchParams` writes and what a server reads from it: pairs of a name and a value, with
`&` between the pairs, `=` inside them, and every byte that could be mistaken for something else
behind a `%`.

* `serializeForm`, `parseForm` — pairs to bytes and back.
* `percentDecode_encodeBytes` — the bytes of a name or a value, written and read.
* `parseForm_serializeForm` — a server reads the pairs that were written, and no others.
-/

namespace Core.EcmaScript

/-! ## Writing -/

/-- A byte that stays as it is: an ASCII letter, a digit, or one of `*-._`. -/
def isPlain (b : UInt8) : Bool :=
  (0x30 ≤ b.toNat && b.toNat ≤ 0x39) || (0x41 ≤ b.toNat && b.toNat ≤ 0x5A) ||
    (0x61 ≤ b.toNat && b.toNat ≤ 0x7A) || b == 0x2A || b == 0x2D || b == 0x2E || b == 0x5F

/-- The byte of an upper-case hexadecimal digit. -/
def hexByte (d : ℕ) : UInt8 := UInt8.ofNat (hexCode 0x41 d)

/-- A space is written as a plus sign. -/
def encodeByte (b : UInt8) : Bytes :=
  if b = 0x20 then [0x2B]
  else if isPlain b then [b]
  else [0x25, hexByte (b.toNat / 16), hexByte (b.toNat % 16)]

/-- A name or a value. -/
def encodeComponent (cs : List Char) : Bytes := (encodeUtf8 cs).flatMap encodeByte

def encodePair (pair : List Char × List Char) : Bytes :=
  encodeComponent pair.1 ++ 0x3D :: encodeComponent pair.2

/-- `new URLSearchParams(…).toString()`, which is ASCII: its code units are these bytes. -/
def serializeForm (pairs : List (List Char × List Char)) : Bytes :=
  [0x26].intercalate (pairs.map encodePair)

example : serializeForm [("username".toList, "a&b=c d".toList)] =
    "username=a%26b%3Dc+d".toList.map fun c => UInt8.ofNat c.toNat := by
  decide +kernel

/-! ## Reading -/

def plusToSpace (b : UInt8) : UInt8 := if b = 0x2B then 0x20 else b

/-- A percent sign that no two digits follow stands for itself. -/
def percentDecode : Bytes → Bytes
  | b :: c :: d :: bytes =>
      if b = 0x25 then
        match hexValue c.toNat, hexValue d.toNat with
        | some x, some y => UInt8.ofNat (16 * x + y) :: percentDecode bytes
        | _, _ => b :: percentDecode (c :: d :: bytes)
      else b :: percentDecode (c :: d :: bytes)
  | bytes => bytes

/-- A name or a value, if it is text. -/
def decodeComponent (bytes : Bytes) : Option (List Char) :=
  decodeUtf8 (percentDecode (bytes.map plusToSpace))

/-- What stands before the first equals sign, and behind it. -/
def decodePair (part : Bytes) : Option (List Char × List Char) := do
  let name ← decodeComponent (part.takeWhile (· ≠ 0x3D))
  let value ← decodeComponent ((part.dropWhile (· ≠ 0x3D)).drop 1)
  return (name, value)

def parseForm (bytes : Bytes) : Option (List (List Char × List Char)) :=
  ((bytes.splitOn 0x26).filter (· ≠ [])).mapM decodePair

/-! ## Bytes -/

lemma ne_of_isPlain {b : UInt8} (h : isPlain b = true) :
    b ≠ 0x25 ∧ b ≠ 0x26 ∧ b ≠ 0x2B ∧ b ≠ 0x3D := by
  refine ⟨?_, ?_, ?_, ?_⟩ <;>
    · rintro rfl
      exact absurd h (by decide)

lemma toNat_hexByte {d : ℕ} (hd : d < 16) : (hexByte d).toNat = hexCode 0x41 d :=
  UInt8.toNat_ofNat_of_lt' ((hexCode_lt (Or.inl rfl) hd).trans (by decide))

/-- A digit is none of the bytes that mean something. -/
lemma hexByte_ne {d : ℕ} (hd : d < 16) :
    hexByte d ≠ 0x26 ∧ hexByte d ≠ 0x2B ∧ hexByte d ≠ 0x3D := by
  revert d
  decide

/-- What is written for a byte can be mistaken neither for the end of a name nor for that of a
value. -/
lemma mem_encodeByte {b x : UInt8} (hx : x ∈ encodeByte b) : x ≠ 0x26 ∧ x ≠ 0x3D := by
  have hb := b.toNat_lt
  rw [encodeByte] at hx
  split_ifs at hx with hspace hplain
  · rw [List.mem_singleton.mp hx]
    decide
  · rw [List.mem_singleton.mp hx]
    exact ⟨(ne_of_isPlain hplain).2.1, (ne_of_isPlain hplain).2.2.2⟩
  · simp only [List.mem_cons, List.not_mem_nil, or_false] at hx
    rcases hx with rfl | rfl | rfl
    · decide
    · have hne := @hexByte_ne (b.toNat / 16) (by omega)
      exact ⟨hne.1, hne.2.2⟩
    · have hne := @hexByte_ne (b.toNat % 16) (by omega)
      exact ⟨hne.1, hne.2.2⟩

lemma mem_encodeComponent {cs : List Char} {x : UInt8} (hx : x ∈ encodeComponent cs) :
    x ≠ 0x26 ∧ x ≠ 0x3D := by
  rcases List.mem_flatMap.mp hx with ⟨b, -, hb⟩
  exact mem_encodeByte hb

/-- A byte that is no percent sign stands for itself. -/
lemma percentDecode_cons {b : UInt8} (hb : b ≠ 0x25) (bytes : Bytes) :
    percentDecode (b :: bytes) = b :: percentDecode bytes := by
  match bytes with
  | [] => rfl
  | [c] => rfl
  | c :: d :: bytes => rw [percentDecode, if_neg hb]

/-- **A byte, written and read.** -/
lemma percentDecode_encodeByte (b : UInt8) (bytes : Bytes) :
    percentDecode ((encodeByte b).map plusToSpace ++ bytes) = b :: percentDecode bytes := by
  have hb := b.toNat_lt
  rw [encodeByte]
  split_ifs with hspace hplain
  · rw [hspace]
    exact percentDecode_cons (by decide) bytes
  · rw [List.map_singleton, plusToSpace, if_neg (ne_of_isPlain hplain).2.2.1]
    exact percentDecode_cons (ne_of_isPlain hplain).1 bytes
  · have hkeep : ∀ d, d < 16 → plusToSpace (hexByte d) = hexByte d := by
      intro d hd
      rw [plusToSpace, if_neg (hexByte_ne hd).2.1]
    have hvalue : ∀ d, d < 16 → hexValue (hexByte d).toNat = some d := by
      intro d hd
      rw [toNat_hexByte hd, hexValue_hexCode (Or.inl rfl) hd]
    have hback : 16 * (b.toNat / 16) + b.toNat % 16 = b.toNat := by omega
    simp only [List.map_cons, List.map_nil, hkeep _ (show b.toNat / 16 < 16 by omega),
      hkeep _ (show b.toNat % 16 < 16 by omega), List.cons_append, List.nil_append]
    rw [show plusToSpace 0x25 = 0x25 from rfl, percentDecode, if_pos rfl,
      hvalue _ (by omega), hvalue _ (by omega)]
    dsimp only
    rw [hback, UInt8.ofNat_toNat]

lemma percentDecode_encodeBytes (bytes : Bytes) :
    percentDecode ((bytes.flatMap encodeByte).map plusToSpace) = bytes := by
  induction bytes with
  | nil => rfl
  | cons b bytes ih =>
      rw [List.flatMap_cons, List.map_append, percentDecode_encodeByte, ih]

/-! ## Names and values -/

lemma decodeComponent_encodeComponent (cs : List Char) :
    decodeComponent (encodeComponent cs) = some cs := by
  rw [decodeComponent, encodeComponent, percentDecode_encodeBytes, decodeUtf8_encodeUtf8]

lemma decodePair_encodePair (pair : List Char × List Char) :
    decodePair (encodePair pair) = some pair := by
  have hname : ∀ b ∈ encodeComponent pair.1, decide (b ≠ 0x3D) = true :=
    fun b hb => decide_eq_true (mem_encodeComponent hb).2
  rw [decodePair, encodePair, List.takeWhile_append_of_pos hname,
    List.dropWhile_append_of_pos hname, List.takeWhile_cons_of_neg (by decide),
    List.dropWhile_cons_of_neg (by decide), List.append_nil, List.drop_one, List.tail_cons,
    decodeComponent_encodeComponent, decodeComponent_encodeComponent]
  rfl

lemma mapM_decodePair (pairs : List (List Char × List Char)) :
    (pairs.map encodePair).mapM decodePair = some pairs := by
  induction pairs with
  | nil => rfl
  | cons pair pairs ih =>
      rw [List.map_cons, List.mapM_cons, decodePair_encodePair, ih]
      rfl

/-- No pair is empty or has a separator inside. -/
lemma encodePair_spec (pair : List Char × List Char) :
    encodePair pair ≠ [] ∧ 0x26 ∉ encodePair pair := by
  constructor
  · rw [encodePair]
    exact List.append_ne_nil_of_right_ne_nil _ (List.cons_ne_nil _ _)
  · intro hmem
    rcases List.mem_append.mp hmem with hname | hmem
    · exact (mem_encodeComponent hname).1 rfl
    · rcases List.mem_cons.mp hmem with heq | hvalue
      · exact absurd heq (by decide)
      · exact (mem_encodeComponent hvalue).1 rfl

/-- **A server reads the pairs that were written**, whatever characters are in them. -/
theorem parseForm_serializeForm (pairs : List (List Char × List Char)) :
    parseForm (serializeForm pairs) = some pairs := by
  have hparts : ((serializeForm pairs).splitOn 0x26).filter (· ≠ []) = pairs.map encodePair := by
    cases pairs with
    | nil => rfl
    | cons pair pairs =>
        rw [serializeForm, List.splitOn_intercalate]
        · refine List.filter_eq_self.mpr ?_
          intro part hpart
          rcases List.mem_map.mp hpart with ⟨p, -, rfl⟩
          exact decide_eq_true (encodePair_spec p).1
        · intro part hpart
          rcases List.mem_map.mp hpart with ⟨p, -, rfl⟩
          exact (encodePair_spec p).2
        · exact List.cons_ne_nil _ _
  rw [parseForm, hparts, mapM_decodePair]

end Core.EcmaScript
