import Mathlib.Data.Nat.Bitwise
import Mathlib.Tactic.Common

/-!
# Single bits of machine words

A bit-packing loop tests a bit of one word with a shift and a mask, and sets a bit of
another with a shift and an or. These are the same two steps in every language, over the
words the language has:

* unsigned words of 8 and 32 bits, with the shift count checked (`shr`, `shl`);
* the numbers of JavaScript, whose bit operators see 32 bits of an integer and give
  signed results, except for `>>>` (`Js`).

The lemmas say in each case which bit is tested or set, as bits of a natural number.
-/

namespace ProtoEmb.Lib

/-! ## Unsigned words -/

/-- `a >> b` on 32 bits. A count of 32 or more has no result: it is undefined in C, and
a panic in Rust. -/
def shr (a b : UInt32) : Option UInt32 := if b.toNat < 32 then some (a >>> b) else none

/-- `a << b` on 32 bits. -/
def shl (a b : UInt32) : Option UInt32 := if b.toNat < 32 then some (a <<< b) else none

/-- A shift and a mask test one bit. -/
theorem shiftRight_and_one_eq_zero (n i : Nat) : n >>> i &&& 1 = 0 ↔ n.testBit i = false := by
  rw [Nat.testBit, Nat.and_comm, bne_eq_false_iff_eq]

/-- A one shifted inside its word is a power of two. -/
theorem one_shiftLeft_mod {i w : Nat} (h : i < w) : 1 <<< i % 2 ^ w = 2 ^ i := by
  rw [Nat.one_shiftLeft]
  exact Nat.mod_eq_of_lt (Nat.pow_lt_pow_right (by decide) h)

section Word

variable {a i : UInt32}

/-- Shifting down and masking tests a bit of a 32-bit word. -/
theorem testBit_shr (h : i.toNat < 32) : a >>> i &&& 1 ≠ 0 ↔ a.toNat.testBit i.toNat = true := by
  have hzero : a >>> i &&& 1 = 0 ↔ a.toNat.testBit i.toNat = false := by
    rw [← UInt32.toNat_inj, UInt32.toNat_and, UInt32.toNat_shiftRight, Nat.mod_eq_of_lt h]
    exact shiftRight_and_one_eq_zero a.toNat i.toNat
  rw [ne_eq, hzero, Bool.not_eq_false]

/-- Shifting a one up is a power of two. -/
theorem toNat_one_shl (h : i.toNat < 32) : ((1 : UInt32) <<< i).toNat = 2 ^ i.toNat := by
  rw [UInt32.toNat_shiftLeft, Nat.mod_eq_of_lt h]
  exact one_shiftLeft_mod h

/-- Setting a bit in a byte that is promoted to 32 bits and cut again. -/
theorem promoted_or_one_shl (b : UInt8) (h : i.toNat < 8) :
    (b.toUInt32 ||| 1 <<< i).toUInt8 = b ||| UInt8.ofNat (2 ^ i.toNat) := by
  rw [← UInt8.toNat_inj, UInt32.toNat_toUInt8, UInt32.toNat_or, UInt8.toNat_toUInt32,
    toNat_one_shl (by omega), UInt8.toNat_or, UInt8.toNat_ofNat', Nat.or_mod_two_pow,
    Nat.mod_eq_of_lt b.toNat_lt]

end Word

section Byte

variable {b i : UInt8}

/-- The test on a byte. -/
theorem testBit_shr8 (h : i.toNat < 8) : b >>> i &&& 1 ≠ 0 ↔ b.toNat.testBit i.toNat = true := by
  have hzero : b >>> i &&& 1 = 0 ↔ b.toNat.testBit i.toNat = false := by
    rw [← UInt8.toNat_inj, UInt8.toNat_and, UInt8.toNat_shiftRight, Nat.mod_eq_of_lt h]
    exact shiftRight_and_one_eq_zero b.toNat i.toNat
  rw [ne_eq, hzero, Bool.not_eq_false]

/-- The mask on a byte. -/
theorem one_shl8 (h : i.toNat < 8) : (1 : UInt8) <<< i = UInt8.ofNat (2 ^ i.toNat) := by
  rw [← UInt8.toNat_inj, UInt8.toNat_shiftLeft, Nat.mod_eq_of_lt h, UInt8.toNat_ofNat',
    Nat.mod_eq_of_lt (Nat.pow_lt_pow_right (by decide) h)]
  exact one_shiftLeft_mod h

end Byte

/-! ## JavaScript -/

namespace Js

/-- The 32 bits a bit operator sees of an integer. -/
def word (x : Int) : BitVec 32 := BitVec.ofInt 32 x

/-- The shift count: five bits of the right operand. -/
def count (x : Int) : Nat := (word x).toNat % 32

/-- `a << b`. -/
def shl (a b : Int) : Int := (word a <<< count b).toInt

/-- `a >>> b`, the one operator with an unsigned result. -/
def shr (a b : Int) : Int := (word a >>> count b).toNat

/-- `a & b`. -/
def bitAnd (a b : Int) : Int := (word a &&& word b).toInt

/-- `a | b`. -/
def bitOr (a b : Int) : Int := (word a ||| word b).toInt

theorem word_toInt (w : BitVec 32) : word w.toInt = w := BitVec.ofInt_toInt

/-- A JavaScript shift is a shift of the word, by the count modulo 32. -/
theorem word_shl (a b : Int) : word (shl a b) = word a <<< count b := word_toInt _

theorem word_shr (a b : Int) : word (shr a b) = word a >>> count b := by
  rw [word, shr, BitVec.ofInt_natCast, BitVec.ofNat_toNat, BitVec.setWidth_eq]

/-- An or is one of the words; the sign of the result does not matter. -/
theorem word_bitOr (a b : Int) : word (bitOr a b) = word a ||| word b := word_toInt _

/-- A count that is a natural number is taken modulo 32. -/
theorem count_natCast (i : Nat) : count i = i % 32 := by
  rw [count, word, BitVec.ofInt_natCast, BitVec.toNat_ofNat]
  omega

/-- An and is zero if the words have no bit in common. -/
theorem bitAnd_eq_zero (a b : Int) : bitAnd a b = 0 ↔ word a &&& word b = 0#32 := by
  rw [bitAnd, ← BitVec.toInt_inj, BitVec.toInt_zero]

/-- Shifting down and masking tests a bit of the word. -/
theorem testBit_shr (x : Int) (i : Nat) :
    bitAnd (shr x i) 1 ≠ 0 ↔ (word x).toNat.testBit (i % 32) = true := by
  have hzero : bitAnd (shr x i) 1 = 0 ↔ (word x).toNat.testBit (i % 32) = false := by
    rw [bitAnd_eq_zero, word_shr, count_natCast, ← BitVec.toNat_inj, BitVec.toNat_and,
      BitVec.toNat_ushiftRight]
    exact shiftRight_and_one_eq_zero _ _
  rw [ne_eq, hzero, Bool.not_eq_false]

/-- Shifting a one up is a power of two, by the count modulo 32. -/
theorem word_one_shl (i : Nat) : (word (shl 1 i)).toNat = 2 ^ (i % 32) := by
  rw [word_shl, count_natCast, BitVec.toNat_shiftLeft]
  exact one_shiftLeft_mod (Nat.mod_lt i (by decide))

/-- A byte stored from a number: its low eight bits. -/
theorem ofInt_toInt (w : BitVec 32) : UInt8.ofInt w.toInt = UInt8.ofNat w.toNat := by
  rw [← UInt8.toNat_inj, UInt8.ofInt, UInt8.toNat_ofNat', UInt8.toNat_ofNat',
    BitVec.toInt_eq_toNat_cond]
  split <;> omega

end Js

end ProtoEmb.Lib
