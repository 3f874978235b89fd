import Mathlib.Data.List.Basic
import Mathlib.Tactic.Common

/-!
# Byte strings in a byte buffer

A byte-oriented serializer stores one string after another into a zeroed buffer. The
buffer is best seen as `pre ++ mid ++ post`: a store at `pre.length` replaces the front
of `mid` and leaves the rest alone (`store_append`), so a serializer that works its way
through a zeroed `mid` turns it into the concatenation of what it stores.

`HoldsBytes buf base bs` says that a string can be loaded at an offset; it splits along
concatenation (`HoldsBytes.append`).
-/

namespace ProtoEmb.Lib

/-- `memcpy(&buf[off], bs)`; `none` if it leaves the buffer. -/
def store (buf : List UInt8) (off : Nat) (bs : List UInt8) : Option (List UInt8) :=
  if off + bs.length ≤ buf.length then
    some (buf.take off ++ bs ++ buf.drop (off + bs.length))
  else none

/-- `memcpy(.., &buf[off], n)`; `none` if it leaves the buffer. -/
def load (buf : List UInt8) (off n : Nat) : Option (List UInt8) :=
  if off + n ≤ buf.length then some ((buf.drop off).take n) else none

/-- `n` zero bytes. -/
def zeros (n : Nat) : List UInt8 := List.replicate n 0

@[simp] theorem zeros_length (n : Nat) : (zeros n).length = n := List.length_replicate

/-- Zeros in a row. -/
theorem zeros_add (m n : Nat) : zeros (m + n) = zeros m ++ zeros n :=
  List.replicate_add m n 0

/-- A string, followed by zeros up to `n` bytes. -/
def padTo (n : Nat) (bs : List UInt8) : List UInt8 := bs ++ zeros (n - bs.length)

/-- Padding fills the room if the bytes fit it. -/
theorem padTo_length {n : Nat} {bs : List UInt8} (h : bs.length ≤ n) : (padTo n bs).length = n := by
  rw [padTo, List.length_append, zeros_length]
  omega

/-- Bytes that fill the room are not padded. -/
theorem padTo_of_length {n : Nat} {bs : List UInt8} (h : bs.length = n) : padTo n bs = bs := by
  rw [padTo, h, Nat.sub_self]
  exact List.append_nil bs

/-- **A store into the front of a zeroed part.** -/
theorem store_append {pre post bs : List UInt8} {n : Nat} (h : bs.length ≤ n) :
    store (pre ++ zeros n ++ post) pre.length bs = some (pre ++ padTo n bs ++ post) := by
  obtain ⟨k, rfl⟩ : ∃ k, n = bs.length + k := ⟨n - bs.length, by omega⟩
  have hfits : pre.length + bs.length ≤ (pre ++ zeros (bs.length + k) ++ post).length := by
    simp only [List.length_append, zeros_length]
    omega
  have hdrop : (pre ++ zeros (bs.length + k) ++ post).drop (pre.length + bs.length)
      = zeros k ++ post := by
    rw [zeros_add, ← List.append_assoc, List.append_assoc, List.drop_left']
    rw [List.length_append, zeros_length]
  have htake : (pre ++ zeros (bs.length + k) ++ post).take pre.length = pre := by
    rw [List.append_assoc, List.take_left']
    rfl
  rw [store, if_pos hfits, htake, hdrop, padTo, Nat.add_sub_cancel_left]
  simp only [List.append_assoc]

/-- The string stands in the buffer at offset `base`. -/
def HoldsBytes (buf : List UInt8) (base : Nat) (bs : List UInt8) : Prop :=
  ∃ pre post, buf = pre ++ bs ++ post ∧ pre.length = base

/-- A buffer that holds two strings in a row holds each of them. -/
theorem HoldsBytes.append {buf : List UInt8} {base : Nat} {xs ys : List UInt8}
    (h : HoldsBytes buf base (xs ++ ys)) :
    HoldsBytes buf base xs ∧ HoldsBytes buf (base + xs.length) ys := by
  obtain ⟨pre, post, rfl, rfl⟩ := h
  exact ⟨⟨pre, ys ++ post, by simp, rfl⟩, pre ++ xs, post, by simp, by simp⟩

/-- What is held can be loaded. -/
theorem HoldsBytes.load {buf : List UInt8} {base n : Nat} {bs : List UInt8}
    (h : HoldsBytes buf base bs) (hn : bs.length = n) : load buf base n = some bs := by
  obtain ⟨pre, post, rfl, rfl⟩ := h
  subst hn
  have hfits : pre.length + bs.length ≤ (pre ++ bs ++ post).length := by simp
  rw [Lib.load, if_pos hfits, List.append_assoc, List.drop_left' rfl, List.take_left' rfl]

end ProtoEmb.Lib
