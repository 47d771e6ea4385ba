import Mathlib.Algebra.Group.Int.Defs
import Mathlib.Algebra.Group.Nat.Defs
import Mathlib.Data.Int.Notation
import Mathlib.Data.Int.Order.Basic
import Mathlib.Tactic.Common

/-!
# Strings and numbers of ECMAScript

A string is a sequence of UTF-16 code units, of any kind.  The numbers here are integers; the
bitwise operators go through 32 bits and come back as signed or unsigned integers, depending on the
operator.

* `word` — the 32 bits behind a number, which the operators act on whatever its sign, and
  `toUint32_eq`, how they read as an unsigned number in the end.
-/

namespace Core.EcmaScript

/-- A string: its UTF-16 code units. -/
abbrev JsString := List UInt16

/-- The code units of a character; those outside the first plane have two. -/
def codeUnits (c : Char) : List UInt16 :=
  if c.toNat < 0x10000 then [UInt16.ofNat c.toNat]
  else [UInt16.ofNat (0xD800 + (c.toNat - 0x10000) / 0x400),
    UInt16.ofNat (0xDC00 + (c.toNat - 0x10000) % 0x400)]

/-- A string literal. -/
def js (s : String) : JsString := s.toList.flatMap codeUnits

/-- `s.split(separator).pop()`: what stands behind the last separator. -/
def lastSegment (separator : UInt16) (s : JsString) : JsString :=
  (s.reverse.takeWhile (· ≠ separator)).reverse

/-- `x ^ y`, a signed 32-bit integer. -/
def bitXor (x y : ℤ) : ℤ := (BitVec.ofInt 32 x ^^^ BitVec.ofInt 32 y).toInt

/-- `Math.imul(x, y)`, a signed 32-bit integer. -/
def imul (x y : ℤ) : ℤ := (BitVec.ofInt 32 x * BitVec.ofInt 32 y).toInt

/-- `x >>> 0`, an unsigned 32-bit integer. -/
def toUint32 (x : ℤ) : ℤ := (BitVec.ofInt 32 x).toNat

/-- `x % y`, with the sign of `x`. -/
def remainder (x y : ℤ) : ℤ := x.tmod y

lemma remainder_of_nonneg {x : ℤ} (y : ℤ) (hx : 0 ≤ x) : remainder x y = x % y :=
  Int.tmod_eq_emod_of_nonneg hx

/-! ## The bits behind a number -/

/-- The 32 bits of a number: its residue modulo `2 ^ 32`. -/
def word (x : ℤ) : BitVec 32 := BitVec.ofInt 32 x

@[simp] lemma word_natCast (n : ℕ) : word n = BitVec.ofNat 32 n := BitVec.ofInt_natCast 32 n

@[simp] lemma word_bitXor (x y : ℤ) : word (bitXor x y) = word x ^^^ word y := BitVec.ofInt_toInt

@[simp] lemma word_imul (x y : ℤ) : word (imul x y) = word x * word y := BitVec.ofInt_toInt

/-- `>>> 0` reads the bits as an unsigned number. -/
lemma toUint32_eq (x : ℤ) : toUint32 x = (word x).toNat := rfl

/-- An unsigned 32-bit integer. -/
def IsUint32 (x : ℤ) : Prop := 0 ≤ x ∧ x < 2 ^ 32

lemma isUint32_natCast {n : ℕ} (h : n < 2 ^ 32) : IsUint32 n :=
  ⟨Int.natCast_nonneg n, Int.ofNat_lt.mpr h⟩

end Core.EcmaScript
