import Mathlib.Data.Nat.Bitwise
import Mathlib.Tactic.Common

/-!
# Little-endian words

Splitting a machine word into bytes, least significant first, and putting it
back together. Two spellings occur in wire code and are related here:

* the register form, `lo ||| (hi <<< 8)` on `UInt16` (`u16OfLe`), the way a
  streaming parser assembles a length field;
* the list form, `leBytes k n`, the way a serializer lays out a `k`-byte word.

Both are characterised by their value as a natural number, so callers never
reason about shifts.
-/

namespace ProtoEmb.Lib

/-- A 16-bit word from its two bytes, low byte first. -/
def u16OfLe (lo hi : UInt8) : UInt16 := lo.toUInt16 ||| (hi.toUInt16 <<< 8)

theorem u16OfLe_toNat (lo hi : UInt8) :
    (u16OfLe lo hi).toNat = lo.toNat + 256 * hi.toNat := by
  have hlo : lo.toNat < 2 ^ 8 := lo.toNat_lt
  have hhi : hi.toNat < 2 ^ 8 := hi.toNat_lt
  have hshift : (hi.toUInt16 <<< 8).toNat = 2 ^ 8 * hi.toNat := by
    rw [UInt16.toNat_shiftLeft, UInt8.toNat_toUInt16, Nat.shiftLeft_eq]
    simp only [UInt16.reduceToNat, Nat.reduceMod]
    omega
  rw [u16OfLe, UInt16.toNat_or, UInt8.toNat_toUInt16, hshift, Nat.lor_comm,
    ← Nat.two_pow_add_eq_or_of_lt hlo]
  omega

/-- The low byte of a 16-bit word. -/
def loByte (n : UInt16) : UInt8 := n.toUInt8

/-- The high byte of a 16-bit word. -/
def hiByte (n : UInt16) : UInt8 := (n >>> 8).toUInt8

theorem loByte_toNat (n : UInt16) : (loByte n).toNat = n.toNat % 256 := by
  rw [loByte, UInt16.toNat_toUInt8]

theorem hiByte_toNat (n : UInt16) : (hiByte n).toNat = n.toNat / 256 := by
  have hn : n.toNat < 2 ^ 16 := n.toNat_lt
  rw [hiByte, UInt16.toNat_toUInt8, UInt16.toNat_shiftRight, Nat.shiftRight_eq_div_pow]
  simp only [UInt16.reduceToNat, Nat.reduceMod]
  omega

/-- Splitting a word and reassembling it gives the word back. -/
theorem u16OfLe_split (n : UInt16) : u16OfLe (loByte n) (hiByte n) = n := by
  apply UInt16.toNat_inj.mp
  rw [u16OfLe_toNat, loByte_toNat, hiByte_toNat]
  omega

/-- The `k` little-endian bytes of `n` (modulo `256 ^ k`). -/
def leBytes : Nat → Nat → List UInt8
  | 0, _ => []
  | k + 1, n => UInt8.ofNat n :: leBytes k (n / 256)

/-- The number a little-endian byte list stands for. -/
def ofLeBytes : List UInt8 → Nat
  | [] => 0
  | b :: bs => b.toNat + 256 * ofLeBytes bs

@[simp] theorem leBytes_length (k n : Nat) : (leBytes k n).length = k := by
  induction k generalizing n with
  | zero => rfl
  | succ k ih => simp [leBytes, ih]

/-- Reading back `k` little-endian bytes loses exactly what does not fit them. -/
theorem ofLeBytes_lt (bs : List UInt8) : ofLeBytes bs < 256 ^ bs.length := by
  induction bs with
  | nil => decide
  | cons b bs ih =>
    have hb := b.toNat_lt
    rw [ofLeBytes, List.length_cons, Nat.pow_succ]
    omega

theorem ofLeBytes_leBytes (k n : Nat) : ofLeBytes (leBytes k n) = n % 256 ^ k := by
  induction k generalizing n with
  | zero => simp [leBytes, ofLeBytes, Nat.mod_one]
  | succ k ih =>
    have hbyte : (UInt8.ofNat n).toNat = n % 256 := UInt8.toNat_ofNat'
    rw [leBytes, ofLeBytes, ih, hbyte, Nat.pow_succ, Nat.mul_comm (256 ^ k) 256, Nat.mod_mul]

end ProtoEmb.Lib
