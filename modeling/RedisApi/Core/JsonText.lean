import RedisApi.Core.Json
import RedisApi.Core.Unicode
import Mathlib.Data.List.Forall2
import Mathlib.Data.List.TakeWhile
import Mathlib.Data.Rat.Lemmas

/-!
# JSON text

What `JSON.stringify` writes and what a server reads from it.  Of the numbers, the text of integers
up to 2 ^ 53 is known; for others `stringify` gives nothing.

* `quote` — a string with its escapes; lone surrogates are among what is escaped.
* `stringify`, `parse` — a value to its text and back.
* `parseString_quote`, `readNumber_decimal`, `parseItems_of_reads` — the parts, written and read.
* `parse_stringify` — a server reads the value that was written.
* `readBody` — a body that is expected to hold a value of some type.
-/

namespace Core.EcmaScript

/-! ## Writing -/

/-- The characters with an escape of their own, and what stands behind the backslash. -/
def escapes : List (ℕ × UInt16) :=
  [(0x08, 0x62), (0x09, 0x74), (0x0A, 0x6E), (0x0C, 0x66), (0x0D, 0x72), (0x22, 0x22),
    (0x5C, 0x5C)]

/-- The code unit of a lower-case hexadecimal digit. -/
def hexUnit (d : ℕ) : UInt16 := UInt16.ofNat (hexCode 0x61 d)

/-- `UnicodeEscape` -/
def unicodeEscape (u : UInt16) : JsString :=
  [0x5C, 0x75, hexUnit (u.toNat / 0x1000), hexUnit (u.toNat / 0x100 % 0x10),
    hexUnit (u.toNat / 0x10 % 0x10), hexUnit (u.toNat % 0x10)]

def quotePoint : CodePoint → JsString
  | .surrogate u => unicodeEscape u
  | .char c =>
      match escapes.lookup c.toNat with
      | some e => [0x5C, e]
      | none => if c.toNat < 0x20 then unicodeEscape (UInt16.ofNat c.toNat) else codeUnits c

/-- `QuoteJSONString` -/
def quote (s : JsString) : JsString := 0x22 :: ((codePoints s).flatMap quotePoint ++ [0x22])

def numberText (q : ℚ) : Option JsString :=
  if q.den = 1 ∧ q.num.natAbs ≤ 2 ^ 53 then some ((decimal q.num).map UInt8.toUInt16) else none

/-- Items between brackets. -/
def enclose (opening closing : UInt16) (items : List JsString) : JsString :=
  opening :: ([0x2C].intercalate items ++ [closing])

mutual

/-- `JSON.stringify(value)` -/
def stringify : Json → Option JsString
  | .null => some (js "null")
  | .bool value => some (js (if value then "true" else "false"))
  | .number value => numberText value
  | .string value => some (quote value)
  | .array elements => (stringifyElements elements).map (enclose 0x5B 0x5D)
  | .object members => (stringifyMembers members).map (enclose 0x7B 0x7D)

def stringifyElements : List Json → Option (List JsString)
  | [] => some []
  | value :: values => do
      let text ← stringify value
      let texts ← stringifyElements values
      return text :: texts

def stringifyMembers : List (JsString × Json) → Option (List JsString)
  | [] => some []
  | (key, value) :: members => do
      let text ← stringify value
      let texts ← stringifyMembers members
      return (quote key ++ 0x3A :: text) :: texts

end

example : stringify (.array [.string (js "say \"hi\"\n"), .number (-7), .bool true]) =
    some (js "[\"say \\\"hi\\\"\\n\",-7,true]") := by
  decide +kernel

/-! ## Reading -/

def isBlank (u : UInt16) : Bool := u == 0x20 || u == 0x09 || u == 0x0A || u == 0x0D

def skipBlanks (s : JsString) : JsString := s.dropWhile isBlank

/-- What the letter behind a backslash stands for. -/
def escaped : List (UInt16 × UInt16) :=
  [(0x22, 0x22), (0x5C, 0x5C), (0x2F, 0x2F), (0x62, 0x08), (0x66, 0x0C), (0x6E, 0x0A),
    (0x72, 0x0D), (0x74, 0x09)]

/-- Four hexadecimal digits. -/
def parseUnit (a b c d : UInt16) : Option UInt16 := do
  let a ← hexValue a.toNat
  let b ← hexValue b.toNat
  let c ← hexValue c.toNat
  let d ← hexValue d.toNat
  return UInt16.ofNat (0x1000 * a + 0x100 * b + 0x10 * c + d)

/-- One more code unit in front of what has been read. -/
def prepend (u : UInt16) (read : JsString × JsString) : JsString × JsString :=
  (u :: read.1, read.2)

/-- A string, behind its quotation mark, and what follows it. -/
def parseString : JsString → Option (JsString × JsString)
  | [] => none
  | u :: s =>
      if u = 0x22 then some ([], s)
      else if u.toNat < 0x20 then none
      else if u = 0x5C then
        match s with
        | [] => none
        | e :: s =>
            if e = 0x75 then
              match s with
              | a :: b :: c :: d :: s =>
                  (parseUnit a b c d).bind fun u => (parseString s).map (prepend u)
              | _ => none
            else (escaped.lookup e).bind fun u => (parseString s).map (prepend u)
      else (parseString s).map (prepend u)

def isNumeral (u : UInt16) : Bool :=
  (0x30 ≤ u.toNat && u.toNat ≤ 0x39) || u == 0x2B || u == 0x2D || u == 0x2E || u == 0x45 ||
    u == 0x65

/-- Digits, at least one. -/
def readDigits (bytes : Bytes) : Option ℕ :=
  match bytes.mapM digitOf with
  | none | some [] => none
  | some digits => some (Nat.ofDigits 10 digits.reverse)

/-- The exponent, behind its letter. -/
def readExponent (bytes : Bytes) : Option ℤ :=
  match bytes with
  | [] => none
  | b :: rest =>
      if b = 0x2D then (readDigits rest).map fun n => -n
      else if b = 0x2B then (readDigits rest).map Int.ofNat
      else (readDigits bytes).map Int.ofNat

def isExponent (b : UInt8) : Bool := b == 0x65 || b == 0x45

/-- An integer without leading zeros, a fraction and an exponent. -/
def readUnsigned (bytes : Bytes) : Option ℚ := do
  let mantissa := bytes.takeWhile fun b => !isExponent b
  let n ← parseNat (mantissa.takeWhile (· ≠ 0x2E))
  let fraction ← match mantissa.dropWhile (· ≠ 0x2E) with
    | [] => some 0
    | _ :: digits => (readDigits digits).map fun n => (n : ℚ) / 10 ^ digits.length
  let exponent ← match bytes.dropWhile fun b => !isExponent b with
    | [] => some 0
    | _ :: rest => readExponent rest
  return (n + fraction) * 10 ^ exponent

def readNumber : Bytes → Option ℚ
  | [] => none
  | b :: bytes =>
      if b = 0x2D then (readUnsigned bytes).map fun q => -q else readUnsigned (b :: bytes)

def parseNumber (s : JsString) : Option (Json × JsString) :=
  (readNumber ((s.takeWhile isNumeral).map UInt16.toUInt8)).map fun q =>
    (.number q, s.dropWhile isNumeral)

def parseLiteral (s : JsString) : Option (Json × JsString) :=
  if (js "null").isPrefixOf s then some (.null, s.drop 4)
  else if (js "true").isPrefixOf s then some (.bool true, s.drop 4)
  else if (js "false").isPrefixOf s then some (.bool false, s.drop 5)
  else none

section items

variable {α : Type}

/-- Items behind one another, with commas between them, up to the closing bracket. -/
def parseItems (item : JsString → Option (α × JsString)) (closing : UInt16) :
    ℕ → JsString → Option (List α × JsString)
  | 0, _ => none
  | n + 1, s => do
      let (value, s) ← item s
      match skipBlanks s with
      | [] => none
      | u :: s =>
          if u = 0x2C then
            (parseItems item closing n s).map fun read => (value :: read.1, read.2)
          else if u = closing then some ([value], s)
          else none

/-- What is between brackets, behind the opening one. -/
def parseEnclosed (item : JsString → Option (α × JsString)) (closing : UInt16) (n : ℕ)
    (s : JsString) : Option (List α × JsString) :=
  if (skipBlanks s).head? = some closing then some ([], (skipBlanks s).tail)
  else parseItems item closing n s

end items

/-- A key and a value. -/
def parseMember (item : JsString → Option (Json × JsString)) (s : JsString) :
    Option ((JsString × Json) × JsString) :=
  match skipBlanks s with
  | [] => none
  | u :: s =>
      if u = 0x22 then do
        let (key, s) ← parseString s
        match skipBlanks s with
        | [] => none
        | v :: s =>
            if v = 0x3A then (item s).map fun read => ((key, read.1), read.2) else none
      else none

/-- A value, and what follows it. -/
def parseValue : ℕ → JsString → Option (Json × JsString)
  | 0, _ => none
  | n + 1, s =>
      match skipBlanks s with
      | [] => none
      | u :: s =>
          if u = 0x22 then (parseString s).map fun read => (.string read.1, read.2)
          else if u = 0x5B then
            (parseEnclosed (parseValue n) 0x5D n s).map fun read => (.array read.1, read.2)
          else if u = 0x7B then
            (parseEnclosed (parseMember (parseValue n)) 0x7D n s).map
              fun read => (.object read.1, read.2)
          else if isNumeral u then parseNumber (u :: s)
          else parseLiteral (u :: s)

/-- `JSON.parse(text)`; every value takes a code unit at least. -/
def parse (text : JsString) : Option Json :=
  match parseValue (text.length + 1) text with
  | some (value, rest) => if skipBlanks rest = [] then some value else none
  | none => none

/-! ## Strings -/

lemma toNat_hexUnit {d : ℕ} (hd : d < 16) : (hexUnit d).toNat = hexCode 0x61 d :=
  UInt16.toNat_ofNat_of_lt' ((hexCode_lt (Or.inr rfl) hd).trans (by decide))

lemma hexValue_hexUnit {d : ℕ} (hd : d < 16) : hexValue (hexUnit d).toNat = some d := by
  rw [toNat_hexUnit hd, hexValue_hexCode (Or.inr rfl) hd]

/-- A code unit that needs no escape. -/
def Plain (u : UInt16) : Prop := 0x20 ≤ u.toNat ∧ u ≠ 0x22 ∧ u ≠ 0x5C

lemma plain_codeUnits {c : Char} (hlow : 0x20 ≤ c.toNat) (hquote : c.toNat ≠ 0x22)
    (hslash : c.toNat ≠ 0x5C) : ∀ u ∈ codeUnits c, Plain u := by
  have hplain : ∀ n, n < 0x10000 → 0x20 ≤ n → n ≠ 0x22 → n ≠ 0x5C → Plain (UInt16.ofNat n) := by
    intro n hn hlow hquote hslash
    have hunit := toNat_ofNat_unit hn
    refine ⟨by omega, ?_, ?_⟩
    · intro heq
      rw [heq] at hunit
      exact hquote hunit.symm
    · intro heq
      rw [heq] at hunit
      exact hslash hunit.symm
  have hvalid : c.toNat < 0x110000 := by
    rcases char_cases c with hc | ⟨-, hc⟩ | ⟨n, hn, hc⟩ <;> omega
  intro u hu
  rw [codeUnits] at hu
  split_ifs at hu with hplane
  · rw [List.mem_singleton.mp hu]
    exact hplain _ hplane hlow hquote hslash
  · simp only [List.mem_cons, List.not_mem_nil, or_false] at hu
    rcases hu with rfl | rfl
    · exact hplain _ (by omega) (by omega) (by omega) (by omega)
    · exact hplain _ (by omega) (by omega) (by omega) (by omega)

/-- What is read of a code point. -/
def prependAll (units : JsString) (read : JsString × JsString) : JsString × JsString :=
  (units ++ read.1, read.2)

/-- Code units without escapes are read as they stand. -/
lemma parseString_append {units : JsString} (h : ∀ u ∈ units, Plain u) (s : JsString) :
    parseString (units ++ s) = (parseString s).map (prependAll units) := by
  induction units with
  | nil =>
      show parseString s = _
      cases parseString s <;> rfl
  | cons u units ih =>
      rcases h u List.mem_cons_self with ⟨hlow, hquote, hslash⟩
      rw [List.cons_append, parseString.eq_def]
      dsimp only
      rw [if_neg hquote, if_neg (by omega), if_neg hslash,
        ih fun v hv => h v (List.mem_cons_of_mem u hv), Option.map_map]
      rfl

/-- A backslash and what it escapes. -/
lemma parseString_backslash (e : UInt16) (s : JsString) :
    parseString (0x5C :: e :: s) =
      if e = 0x75 then
        match s with
        | a :: b :: c :: d :: s =>
            (parseUnit a b c d).bind fun u => (parseString s).map (prepend u)
        | _ => none
      else (escaped.lookup e).bind fun u => (parseString s).map (prepend u) := by
  rw [parseString.eq_def]
  rfl

lemma parseString_unicodeEscape (u : UInt16) (s : JsString) :
    parseString (unicodeEscape u ++ s) = (parseString s).map (prepend u) := by
  have hu := u.toNat_lt
  have hunit : parseUnit (hexUnit (u.toNat / 0x1000)) (hexUnit (u.toNat / 0x100 % 0x10))
      (hexUnit (u.toNat / 0x10 % 0x10)) (hexUnit (u.toNat % 0x10)) = some u := by
    rw [parseUnit, hexValue_hexUnit (by omega), hexValue_hexUnit (by omega),
      hexValue_hexUnit (by omega), hexValue_hexUnit (by omega)]
    have hback : 0x1000 * (u.toNat / 0x1000) + 0x100 * (u.toNat / 0x100 % 0x10) +
        0x10 * (u.toNat / 0x10 % 0x10) + u.toNat % 0x10 = u.toNat := by
      omega
    show some (UInt16.ofNat _) = some u
    rw [hback, UInt16.ofNat_toNat]
  rw [unicodeEscape]
  simp only [List.cons_append, List.nil_append]
  rw [parseString_backslash, if_pos rfl]
  dsimp only
  rw [hunit, Option.bind_some]

lemma lookup_escapes {n : ℕ} {e : UInt16} (h : escapes.lookup n = some e) :
    e ≠ 0x75 ∧ escaped.lookup e = some (UInt16.ofNat n) ∧ n < 0x10000 := by
  have hall : ∀ p ∈ escapes,
      p.2 ≠ 0x75 ∧ escaped.lookup p.2 = some (UInt16.ofNat p.1) ∧ p.1 < 0x10000 := by
    decide
  rcases List.lookup_eq_some_iff.mp h with ⟨before, after, heq, -⟩
  exact hall (n, e) (heq ▸ List.mem_append_right before List.mem_cons_self)

/-- **A code point, written and read.** -/
lemma parseString_quotePoint (p : CodePoint) (s : JsString) :
    parseString (quotePoint p ++ s) = (parseString s).map (prependAll p.units) := by
  cases p with
  | surrogate u => exact parseString_unicodeEscape u s
  | char c =>
      rw [quotePoint]
      cases hlookup : escapes.lookup c.toNat with
      | some e =>
          rcases lookup_escapes hlookup with ⟨hu, he, hplane⟩
          show parseString (0x5C :: e :: s) = _
          rw [parseString_backslash, if_neg hu, he, Option.bind_some, CodePoint.units, codeUnits,
            if_pos hplane]
          rfl
      | none =>
          have hquote : c.toNat ≠ 0x22 := by
            intro hc
            rw [hc] at hlookup
            exact absurd hlookup (by decide)
          have hslash : c.toNat ≠ 0x5C := by
            intro hc
            rw [hc] at hlookup
            exact absurd hlookup (by decide)
          dsimp only
          split_ifs with hlow
          · rw [parseString_unicodeEscape, CodePoint.units, codeUnits, if_pos (by omega)]
            rfl
          · exact parseString_append (plain_codeUnits (by omega) hquote hslash) s

/-- **A string, written and read.** -/
lemma parseString_quote (s rest : JsString) :
    parseString ((codePoints s).flatMap quotePoint ++ 0x22 :: rest) = some (s, rest) := by
  have hpoints : ∀ ps : List CodePoint, parseString (ps.flatMap quotePoint ++ 0x22 :: rest) =
      some (ps.flatMap CodePoint.units, rest) := by
    intro ps
    induction ps with
    | nil =>
        show parseString (0x22 :: rest) = some ([], rest)
        rw [parseString.eq_def]
        rfl
    | cons p ps ih =>
        rw [List.flatMap_cons, List.append_assoc, parseString_quotePoint, ih, List.flatMap_cons]
        rfl
  rw [hpoints, units_codePoints]

/-! ## Numbers -/

/-- A numeral has neither a fraction nor an exponent. -/
lemma readUnsigned_numeral (n : ℕ) : readUnsigned ((numeral n).map digit) = some (n : ℚ) := by
  have hbytes : ∀ b ∈ (numeral n).map digit, (!isExponent b) = true ∧ decide (b ≠ 0x2E) = true := by
    intro b hb
    rcases List.mem_map.mp hb with ⟨d, hd, rfl⟩
    have hletter : ∀ c : UInt8, 0x39 < c.toNat → digit d ≠ c := by
      rintro c hc rfl
      have hlt := numeral_lt hd
      rw [toNat_digit hlt] at hc
      omega
    constructor
    · simp [isExponent, hletter 0x65 (by decide), hletter 0x45 (by decide)]
    · exact decide_eq_true (digit_ne (numeral_lt hd) (by decide))
  have hmantissa := List.takeWhile_eq_self_iff.mpr fun b hb => (hbytes b hb).1
  have hexponent := List.dropWhile_eq_nil_iff.mpr fun b hb => (hbytes b hb).1
  have hinteger := List.takeWhile_eq_self_iff.mpr fun b hb => (hbytes b hb).2
  have hfraction := List.dropWhile_eq_nil_iff.mpr fun b hb => (hbytes b hb).2
  rw [readUnsigned]
  dsimp only
  rw [hmantissa, hexponent, hinteger, hfraction, parseNat_numeral]
  show some (((n : ℚ) + 0) * 10 ^ (0 : ℤ)) = some (n : ℚ)
  simp

lemma readNumber_decimal (n : ℤ) : readNumber (decimal n) = some (n : ℚ) := by
  cases n with
  | ofNat n =>
      have hread := readUnsigned_numeral n
      rcases numeral_eq n with ⟨d, ds, hds, -⟩
      have hd : d < 10 := numeral_lt (hds ▸ List.mem_cons_self)
      rw [decimal]
      rw [hds, List.map_cons] at hread ⊢
      rw [readNumber, if_neg (digit_ne hd (by decide)), hread]
      rfl
  | negSucc n =>
      rw [decimal, readNumber, if_pos rfl, readUnsigned_numeral]
      exact congrArg some (by push_cast; ring)

/-- The text of a number consists of what numbers are written with. -/
lemma numberText_eq_some {q : ℚ} {text : JsString} (h : numberText q = some text) :
    (∀ u ∈ text, isNumeral u = true) ∧ readNumber (text.map UInt16.toUInt8) = some q := by
  rw [numberText] at h
  split_ifs at h with hq
  have htext := Option.some.inj h
  subst htext
  constructor
  · intro u hu
    rcases List.mem_map.mp hu with ⟨b, hb, rfl⟩
    rcases mem_decimal hb with rfl | hdigit
    · decide
    · have hunit : (b.toUInt16).toNat = b.toNat := b.toNat_toUInt16
      rw [isNumeral, hunit]
      simp [hdigit.1, hdigit.2]
  · have hbytes : UInt16.toUInt8 ∘ UInt8.toUInt16 = id := funext UInt8.toUInt8_toUInt16
    rw [List.map_map, hbytes, List.map_id, readNumber_decimal]
    exact congrArg some (Rat.coe_int_num_of_den_eq_one hq.1)

/-- What follows a value does not go on with it. -/
def Delimited (rest : JsString) : Prop := ∀ u, rest.head? = some u → isNumeral u = false

/-- A number, written and read. -/
lemma parseNumber_numberText {q : ℚ} {text rest : JsString} (h : numberText q = some text)
    (hrest : Delimited rest) : parseNumber (text ++ rest) = some (.number q, rest) := by
  rcases numberText_eq_some h with ⟨hnumeral, hread⟩
  have htake : rest.takeWhile isNumeral = [] ∧ rest.dropWhile isNumeral = rest := by
    cases rest with
    | nil => exact ⟨rfl, rfl⟩
    | cons u rest =>
        have hu : ¬ isNumeral u = true := Bool.eq_false_iff.mp (hrest u rfl)
        exact ⟨List.takeWhile_cons_of_neg hu, List.dropWhile_cons_of_neg hu⟩
  rw [parseNumber, List.takeWhile_append_of_pos hnumeral, List.dropWhile_append_of_pos hnumeral,
    htake.1, htake.2, List.append_nil, hread]
  rfl

/-! ## Items -/

/-- The text of an item begins where an item may begin. -/
def Begins (text : JsString) : Prop :=
  ∃ u s, text = u :: s ∧ isBlank u = false ∧ u ≠ 0x5D ∧ u ≠ 0x7D

section items

variable {α : Type} {item : JsString → Option (α × JsString)} {closing : UInt16}

/-- The item is read from its text, whatever follows. -/
structure Reads (item : JsString → Option (α × JsString)) (text : JsString) (value : α) :
    Prop where
  begins : Begins text
  read : ∀ rest, Delimited rest → item (text ++ rest) = some (value, rest)

lemma skipBlanks_cons {u : UInt16} (hu : isBlank u = false) (s : JsString) :
    skipBlanks (u :: s) = u :: s :=
  List.dropWhile_cons_of_neg (Bool.eq_false_iff.mp hu)

lemma delimited_cons {u : UInt16} (hu : isNumeral u = false) (s : JsString) :
    Delimited (u :: s) := by
  intro v hv
  rw [← Option.some.inj hv]
  exact hu

/-- The bracket at the end of an array, or of an object. -/
def Closing (closing : UInt16) : Prop := closing = 0x5D ∨ closing = 0x7D

lemma Closing.spec (h : Closing closing) :
    isNumeral closing = false ∧ isBlank closing = false ∧ closing ≠ 0x2C := by
  rcases h with rfl | rfl <;> decide

/-- **Items, written and read.** -/
lemma parseItems_of_reads (hclosing : Closing closing) {texts : List JsString} {values : List α}
    (h : List.Forall₂ (Reads item) texts values) (hne : texts ≠ []) {n : ℕ}
    (hn : texts.length ≤ n) (rest : JsString) :
    parseItems item closing n ([0x2C].intercalate texts ++ closing :: rest) =
      some (values, rest) := by
  induction h generalizing n with
  | nil => exact absurd rfl hne
  | @cons text value texts values hitem htail ih =>
      cases n with
      | zero => exact absurd hn (by simp)
      | succ n =>
          cases htail with
          | nil =>
              rw [List.intercalate_singleton, parseItems,
                hitem.read _ (delimited_cons hclosing.spec.1 rest), Option.bind_eq_bind,
                Option.bind_some]
              dsimp only
              rw [skipBlanks_cons hclosing.spec.2.1]
              dsimp only
              rw [if_neg hclosing.spec.2.2, if_pos rfl]
          | @cons text' _ texts =>
              have hcomma : [0x2C].intercalate (text :: text' :: texts) ++ closing :: rest =
                  text ++ 0x2C :: ([0x2C].intercalate (text' :: texts) ++ closing :: rest) := by
                rw [List.intercalate_cons_cons]
                simp
              rw [List.length_cons] at hn
              rw [hcomma, parseItems, hitem.read _ (delimited_cons (by decide) _),
                Option.bind_eq_bind, Option.bind_some]
              dsimp only
              rw [skipBlanks_cons (by decide)]
              dsimp only
              rw [if_pos rfl, ih (List.cons_ne_nil _ _) (by omega)]
              rfl

/-- What is between brackets, written and read. -/
lemma parseEnclosed_of_reads (hclosing : Closing closing) {texts : List JsString}
    {values : List α} (h : List.Forall₂ (Reads item) texts values) {n : ℕ}
    (hn : texts.length ≤ n) (rest : JsString) :
    parseEnclosed item closing n ([0x2C].intercalate texts ++ closing :: rest) =
      some (values, rest) := by
  cases h with
  | nil =>
      show parseEnclosed item closing n (closing :: rest) = _
      rw [parseEnclosed, skipBlanks_cons hclosing.spec.2.1]
      exact if_pos rfl
  | @cons text value texts values hitem htail =>
      have hfirst : ∃ u s, [0x2C].intercalate (text :: texts) = u :: s ∧ isBlank u = false ∧
          u ≠ closing := by
        rcases hitem.begins with ⟨u, s, rfl, hu, harray, hobject⟩
        refine ⟨u, _, List.intercalate_cons_cons_left, hu, ?_⟩
        rcases hclosing with rfl | rfl
        · exact harray
        · exact hobject
      have hitems := parseItems_of_reads hclosing (.cons hitem htail) (List.cons_ne_nil _ _) hn rest
      rcases hfirst with ⟨u, s, htext, hu, hne⟩
      rw [htext] at hitems ⊢
      rw [parseEnclosed, List.cons_append, skipBlanks_cons hu, List.head?_cons,
        if_neg fun hc => hne (Option.some.inj hc)]
      exact hitems

end items

/-! ## Values -/

/-- No text of a number begins as another value does, or ends one. -/
lemma ne_of_isNumeral {u : UInt16} (h : isNumeral u = true) :
    isBlank u = false ∧ u ≠ 0x22 ∧ u ≠ 0x5B ∧ u ≠ 0x5D ∧ u ≠ 0x7B ∧ u ≠ 0x7D := by
  have hne : ∀ v, isNumeral v = false → u ≠ v := by
    rintro v hv rfl
    exact absurd (hv.symm.trans h) (by decide)
  refine ⟨?_, ?_, ?_, ?_, ?_, ?_⟩
  · simp [isBlank, hne 0x20 (by decide), hne 0x09 (by decide), hne 0x0A (by decide),
      hne 0x0D (by decide)]
  all_goals exact hne _ (by decide)

lemma numberText_ne_nil {q : ℚ} {text : JsString} (h : numberText q = some text) : text ≠ [] := by
  rw [numberText] at h
  split_ifs at h with hq
  have htext := Option.some.inj h
  subst htext
  intro hnil
  have hempty := List.map_eq_nil_iff.mp hnil
  have hread := parseInt_decimal q.num
  rw [hempty] at hread
  exact absurd hread (by simp [parseInt])

lemma begins_stringify {value : Json} {text : JsString} (h : stringify value = some text) :
    Begins text := by
  cases value with
  | null =>
      rw [stringify] at h
      rw [← Option.some.inj h]
      exact ⟨0x6E, _, rfl, by decide⟩
  | bool value =>
      rw [stringify] at h
      rw [← Option.some.inj h]
      cases value with
      | false => exact ⟨0x66, _, rfl, by decide⟩
      | true => exact ⟨0x74, _, rfl, by decide⟩
  | number q =>
      rw [stringify] at h
      rcases List.exists_cons_of_ne_nil (numberText_ne_nil h) with ⟨u, s, rfl⟩
      rcases ne_of_isNumeral ((numberText_eq_some h).1 u List.mem_cons_self)
        with ⟨hblank, -, -, harray, -, hobject⟩
      exact ⟨u, s, rfl, hblank, harray, hobject⟩
  | string value =>
      rw [stringify] at h
      rw [← Option.some.inj h]
      exact ⟨0x22, _, rfl, by decide⟩
  | array elements =>
      rw [stringify] at h
      rcases Option.map_eq_some_iff.mp h with ⟨texts, -, rfl⟩
      exact ⟨0x5B, _, rfl, by decide⟩
  | object members =>
      rw [stringify] at h
      rcases Option.map_eq_some_iff.mp h with ⟨texts, -, rfl⟩
      exact ⟨0x7B, _, rfl, by decide⟩

/-- No item is longer than all of them together, and there are not many more items than code units.
-/
lemma length_intercalate {texts : List JsString} :
    texts.length ≤ ([0x2C].intercalate texts).length + 1 ∧
      ∀ text ∈ texts, text.length ≤ ([0x2C].intercalate texts).length := by
  induction texts with
  | nil => simp
  | cons text texts ih =>
      cases texts with
      | nil => simp
      | cons text' texts =>
          rw [List.intercalate_cons_cons, List.length_append, List.length_append]
          refine ⟨?_, ?_⟩
          · have hcount := ih.1
            simp only [List.length_cons, List.length_nil] at hcount ⊢
            omega
          · intro t ht
            rcases List.mem_cons.mp ht with rfl | ht
            · omega
            · have hlength := ih.2 t ht
              omega

lemma enclose_append (opening closing : UInt16) (texts : List JsString) (rest : JsString) :
    enclose opening closing texts ++ rest =
      opening :: ([0x2C].intercalate texts ++ closing :: rest) := by
  simp [enclose]

/-- Every item of a text that is short enough is, and there are not too many of them. -/
lemma length_lt_of_enclose {opening closing : UInt16} {texts : List JsString} {n : ℕ}
    (hn : (enclose opening closing texts).length < n + 1) :
    texts.length ≤ n ∧ ∀ text ∈ texts, text.length < n := by
  rcases @length_intercalate texts with ⟨hcount, hlength⟩
  rw [enclose, List.length_cons, List.length_append, List.length_singleton] at hn
  refine ⟨by omega, fun text htext => ?_⟩
  have hle := hlength text htext
  omega

/-- A key and its value, written and read. -/
lemma reads_member {item : JsString → Option (Json × JsString)} (key : JsString) {text : JsString}
    {value : Json} (h : Reads item text value) :
    Reads (parseMember item) (quote key ++ 0x3A :: text) (key, value) := by
  refine ⟨⟨0x22, _, rfl, by decide⟩, fun rest hrest => ?_⟩
  have htext : quote key ++ 0x3A :: text ++ rest =
      0x22 :: ((codePoints key).flatMap quotePoint ++ 0x22 :: 0x3A :: (text ++ rest)) := by
    simp [quote]
  rw [htext, parseMember, skipBlanks_cons (by decide)]
  dsimp only
  rw [if_pos rfl, parseString_quote, Option.bind_eq_bind, Option.bind_some]
  dsimp only
  rw [skipBlanks_cons (by decide)]
  dsimp only
  rw [if_pos rfl, h.read rest hrest]
  rfl

mutual

/-- **A value, written and read.** -/
theorem reads_stringify (value : Json) {text : JsString} (h : stringify value = some text) {n : ℕ}
    (hn : text.length < n) : Reads (parseValue n) text value := by
  refine ⟨begins_stringify h, fun rest hrest => ?_⟩
  cases n with
  | zero => exact absurd hn (Nat.not_lt_zero _)
  | succ n =>
      match value with
      | .null =>
          rw [stringify] at h
          rw [← Option.some.inj h]
          rfl
      | .bool true =>
          rw [stringify] at h
          rw [← Option.some.inj h]
          rfl
      | .bool false =>
          rw [stringify] at h
          rw [← Option.some.inj h]
          rfl
      | .number q =>
          rw [stringify] at h
          have hparse := parseNumber_numberText h hrest
          rcases List.exists_cons_of_ne_nil (numberText_ne_nil h) with ⟨u, s, rfl⟩
          have hu := (numberText_eq_some h).1 u List.mem_cons_self
          rcases ne_of_isNumeral hu with ⟨hblank, hquote, harray, -, hobject, -⟩
          rw [List.cons_append] at hparse ⊢
          rw [parseValue, skipBlanks_cons hblank]
          dsimp only
          rw [if_neg hquote, if_neg harray, if_neg hobject, if_pos hu]
          exact hparse
      | .string s =>
          rw [stringify] at h
          rw [← Option.some.inj h, quote, List.cons_append, List.append_assoc, parseValue,
            skipBlanks_cons (by decide)]
          dsimp only
          rw [if_pos rfl, List.singleton_append, parseString_quote]
          rfl
      | .array elements =>
          rw [stringify] at h
          rcases Option.map_eq_some_iff.mp h with ⟨texts, htexts, rfl⟩
          rcases length_lt_of_enclose hn with ⟨hcount, hlength⟩
          rw [enclose_append, parseValue, skipBlanks_cons (by decide)]
          dsimp only
          rw [if_neg (by decide), if_pos rfl, parseEnclosed_of_reads (Or.inl rfl)
            (reads_stringifyElements elements htexts hlength) hcount]
          rfl
      | .object members =>
          rw [stringify] at h
          rcases Option.map_eq_some_iff.mp h with ⟨texts, htexts, rfl⟩
          rcases length_lt_of_enclose hn with ⟨hcount, hlength⟩
          rw [enclose_append, parseValue, skipBlanks_cons (by decide)]
          dsimp only
          rw [if_neg (by decide), if_neg (by decide), if_pos rfl, parseEnclosed_of_reads
            (Or.inr rfl) (reads_stringifyMembers members htexts hlength) hcount]
          rfl

theorem reads_stringifyElements (values : List Json) {texts : List JsString}
    (h : stringifyElements values = some texts) {n : ℕ} (hn : ∀ text ∈ texts, text.length < n) :
    List.Forall₂ (Reads (parseValue n)) texts values := by
  match values with
  | [] =>
      rw [stringifyElements] at h
      rw [← Option.some.inj h]
      exact .nil
  | value :: values =>
      rw [stringifyElements] at h
      rcases Option.bind_eq_some_iff.mp h with ⟨text, htext, h⟩
      rcases Option.bind_eq_some_iff.mp h with ⟨texts, htexts, h⟩
      rw [← Option.some.inj h] at hn ⊢
      exact .cons (reads_stringify value htext (hn text List.mem_cons_self))
        (reads_stringifyElements values htexts fun t ht => hn t (List.mem_cons_of_mem text ht))

theorem reads_stringifyMembers (members : List (JsString × Json)) {texts : List JsString}
    (h : stringifyMembers members = some texts) {n : ℕ} (hn : ∀ text ∈ texts, text.length < n) :
    List.Forall₂ (Reads (parseMember (parseValue n))) texts members := by
  match members with
  | [] =>
      rw [stringifyMembers] at h
      rw [← Option.some.inj h]
      exact .nil
  | (key, value) :: members =>
      rw [stringifyMembers] at h
      rcases Option.bind_eq_some_iff.mp h with ⟨text, htext, h⟩
      rcases Option.bind_eq_some_iff.mp h with ⟨texts, htexts, h⟩
      rw [← Option.some.inj h] at hn ⊢
      have hlength := hn _ List.mem_cons_self
      rw [List.length_append, List.length_cons] at hlength
      exact .cons (reads_member key (reads_stringify value htext (by omega)))
        (reads_stringifyMembers members htexts fun t ht => hn t (List.mem_cons_of_mem _ ht))

end

/-! ## Text -/

lemma ofChars_unicodeEscape (u : UInt16) : OfChars (unicodeEscape u) := by
  have hu := u.toNat_lt
  have hdigit : ∀ d, d < 16 → (hexUnit d).toNat < 0xD800 := by
    intro d hd
    rw [toNat_hexUnit hd]
    exact (hexCode_lt (Or.inr rfl) hd).trans (by decide)
  refine ofChars_of_lt fun v hv => ?_
  simp only [unicodeEscape, List.mem_cons, List.not_mem_nil, or_false] at hv
  rcases hv with rfl | rfl | rfl | rfl | rfl | rfl
  · decide
  · decide
  all_goals exact hdigit _ (by omega)

lemma ofChars_singleton {u : UInt16} (hu : u.toNat < 0xD800) : OfChars [u] :=
  ofChars_of_lt fun v hv => by rwa [List.mem_singleton.mp hv]

lemma ofChars_quotePoint (p : CodePoint) : OfChars (quotePoint p) := by
  cases p with
  | surrogate u => exact ofChars_unicodeEscape u
  | char c =>
      rw [quotePoint]
      cases hlookup : escapes.lookup c.toNat with
      | none =>
          dsimp only
          split_ifs
          · exact ofChars_unicodeEscape _
          · exact ofChars_codeUnits c
      | some e =>
          have hall : ∀ p ∈ escapes, p.2.toNat < 0xD800 := by decide
          rcases List.lookup_eq_some_iff.mp hlookup with ⟨before, after, heq, -⟩
          have he := hall (_, e) (heq ▸ List.mem_append_right before List.mem_cons_self)
          exact (ofChars_singleton (u := 0x5C) (by decide)).append (ofChars_singleton he)

/-- Whatever is in a string, its quotation is well formed. -/
lemma ofChars_quote (s : JsString) : OfChars (quote s) := by
  have hpoints : ∀ ps : List CodePoint, OfChars (ps.flatMap quotePoint) := by
    intro ps
    induction ps with
    | nil => exact ofChars_nil
    | cons p ps ih =>
        rw [List.flatMap_cons]
        exact (ofChars_quotePoint p).append ih
  exact (ofChars_singleton (u := 0x22) (by decide)).append
    ((hpoints _).append (ofChars_singleton (by decide)))

lemma ofChars_enclose {opening closing : UInt16} {texts : List JsString}
    (hopening : opening.toNat < 0xD800) (hclosing : closing.toNat < 0xD800)
    (h : ∀ text ∈ texts, OfChars text) : OfChars (enclose opening closing texts) := by
  have hitems : OfChars ([0x2C].intercalate texts) := by
    induction texts with
    | nil => exact ofChars_nil
    | cons text texts ih =>
        have htext := h text List.mem_cons_self
        cases texts with
        | nil => rwa [List.intercalate_singleton]
        | cons text' texts =>
            rw [List.intercalate_cons_cons]
            exact (htext.append (ofChars_singleton (by decide))).append
              (ih fun t ht => h t (List.mem_cons_of_mem text ht))
  exact (ofChars_singleton hopening).append (hitems.append (ofChars_singleton hclosing))

lemma toNat_lt_of_isNumeral {u : UInt16} (h : isNumeral u = true) : u.toNat < 0x80 := by
  simp only [isNumeral, Bool.or_eq_true, Bool.and_eq_true, decide_eq_true_iff, beq_iff_eq] at h
  rcases h with ((((⟨-, h⟩ | rfl) | rfl) | rfl) | rfl) | rfl
  · omega
  all_goals decide

mutual

/-- **The text is well formed**, whatever is in the strings of the value. -/
theorem ofChars_stringify (value : Json) {text : JsString} (h : stringify value = some text) :
    OfChars text := by
  match value with
  | .null | .bool _ =>
      rw [stringify] at h
      rw [← Option.some.inj h]
      exact ⟨_, rfl⟩
  | .number q =>
      rw [stringify] at h
      refine ofChars_of_lt fun u hu => ?_
      exact (toNat_lt_of_isNumeral ((numberText_eq_some h).1 u hu)).trans (by decide)
  | .string s =>
      rw [stringify] at h
      rw [← Option.some.inj h]
      exact ofChars_quote s
  | .array elements =>
      rw [stringify] at h
      rcases Option.map_eq_some_iff.mp h with ⟨texts, htexts, rfl⟩
      exact ofChars_enclose (by decide) (by decide) (ofChars_stringifyElements elements htexts)
  | .object members =>
      rw [stringify] at h
      rcases Option.map_eq_some_iff.mp h with ⟨texts, htexts, rfl⟩
      exact ofChars_enclose (by decide) (by decide) (ofChars_stringifyMembers members htexts)

theorem ofChars_stringifyElements (values : List Json) {texts : List JsString}
    (h : stringifyElements values = some texts) : ∀ text ∈ texts, OfChars text := by
  match values with
  | [] =>
      rw [stringifyElements] at h
      rw [← Option.some.inj h]
      intro text htext
      exact absurd htext List.not_mem_nil
  | value :: values =>
      rw [stringifyElements] at h
      rcases Option.bind_eq_some_iff.mp h with ⟨text, htext, h⟩
      rcases Option.bind_eq_some_iff.mp h with ⟨texts, htexts, h⟩
      rw [← Option.some.inj h]
      intro t ht
      rcases List.mem_cons.mp ht with rfl | ht
      · exact ofChars_stringify value htext
      · exact ofChars_stringifyElements values htexts t ht

theorem ofChars_stringifyMembers (members : List (JsString × Json)) {texts : List JsString}
    (h : stringifyMembers members = some texts) : ∀ text ∈ texts, OfChars text := by
  match members with
  | [] =>
      rw [stringifyMembers] at h
      rw [← Option.some.inj h]
      intro text htext
      exact absurd htext List.not_mem_nil
  | (key, value) :: members =>
      rw [stringifyMembers] at h
      rcases Option.bind_eq_some_iff.mp h with ⟨text, htext, h⟩
      rcases Option.bind_eq_some_iff.mp h with ⟨texts, htexts, h⟩
      rw [← Option.some.inj h]
      intro t ht
      rcases List.mem_cons.mp ht with rfl | ht
      · exact (ofChars_quote key).append
          ((ofChars_singleton (u := 0x3A) (by decide)).append (ofChars_stringify value htext))
      · exact ofChars_stringifyMembers members htexts t ht

end

/-- **A server reads the value that was written**, whatever is in its strings. -/
theorem parse_stringify {value : Json} {text : JsString} (h : stringify value = some text) :
    (decodeBody (encodeBody text)).bind parse = some value := by
  have hread := (reads_stringify value h (Nat.lt_succ_self _)).read [] fun u hu => by simp at hu
  rw [List.append_nil] at hread
  rw [decodeBody_encodeBody (ofChars_stringify value h), Option.bind_some, parse, hread]
  rfl

/-- An object has a text if its values have. -/
lemma exists_stringify_object {members : List (JsString × Json)}
    (h : ∀ m ∈ members, ∃ text, stringify m.2 = some text) :
    ∃ text, stringify (.object members) = some text := by
  have hmembers : ∃ texts, stringifyMembers members = some texts := by
    induction members with
    | nil => exact ⟨[], rfl⟩
    | cons m members ih =>
        rcases m with ⟨key, value⟩
        rcases h _ List.mem_cons_self with ⟨text, htext⟩
        rcases ih fun m hm => h m (List.mem_cons_of_mem _ hm) with ⟨texts, htexts⟩
        refine ⟨(quote key ++ 0x3A :: text) :: texts, ?_⟩
        rw [stringifyMembers, htext, htexts]
        rfl
  rcases hmembers with ⟨texts, htexts⟩
  exact ⟨enclose 0x7B 0x7D texts, by rw [stringify, htexts, Option.map_some]⟩

/-! ## Typed values -/

def readString : Json → Option JsString
  | .string s => some s
  | _ => none

def readBool : Json → Option Bool
  | .bool b => some b
  | _ => none

def readArray {α : Type} (element : Json → Option α) : Json → Option (List α)
  | .array elements => elements.mapM element
  | _ => none

/-- A member of an object. -/
def readMember {α : Type} (member : Json → Option α) (key : JsString) (value : Json) : Option α :=
  (optionalGet (some value) key).bind member

/-- What a body of JSON text holds. -/
def readBody {α : Type} (read : Json → Option α) (body : Bytes) : Option α :=
  ((decodeBody body).bind parse).bind read

/-- Elements that are read as they were written. -/
lemma mapM_map_of_inverse {α : Type} {write : α → Json} {read : Json → Option α}
    (h : ∀ a, read (write a) = some a) (as : List α) : (as.map write).mapM read = some as := by
  induction as with
  | nil => rfl
  | cons a as ih =>
      rw [List.map_cons, List.mapM_cons, h a, ih]
      rfl

lemma readBody_encodeBody {α : Type} (read : Json → Option α) {value : Json} {text : JsString}
    (h : stringify value = some text) : readBody read (encodeBody text) = read value := by
  rw [readBody, parse_stringify h, Option.bind_some]

end Core.EcmaScript
