import ProtoEmb.Codec.Helpers

/-!
# What the bit helpers do

`pack_bits` ors the low bits of a value into a range of the buffer and leaves the rest
alone, `unpack_bits` reads a range back, `sign_extend` undoes the cut to a width, and the
helpers of `protocol.c.j2`, `protocol.rs.j2` and `protocol.ts.j2` compute the same
(`bit_helpers`).

Bit offsets are 32-bit words in C and Rust, so a range that ends past bit `2 ^ 32` of a
longer buffer is out of their reach: C comes round to the first byte.
-/

namespace ProtoEmb.Codec.Helpers

open ProtoEmb.Lib

/-- `out` is `buf` with the low `n` bits of `v` or-ed in from bit `off` on. -/
structure Ored (buf : List UInt8) (off n v : Nat) (out : List UInt8) : Prop where
  length : out.length = buf.length
  outside : ∀ p, p < off ∨ off + n ≤ p → bitAt out p = bitAt buf p
  inside : ∀ i < n, bitAt out (off + i) = (bitAt buf (off + i) || v.testBit i)

/-- No bit of the range is set. -/
def Clear (buf : List UInt8) (off n : Nat) : Prop := ∀ i < n, bitAt buf (off + i) = false

instance (buf : List UInt8) (off n : Nat) : Decidable (Clear buf off n) :=
  inferInstanceAs (Decidable (∀ i < n, bitAt buf (off + i) = false))

/-- Each `pack_bits` makes `out` of `buf`. TypeScript may hold the value as any number with
that bit pattern, signed or not. -/
def PackTo (buf : List UInt8) (off n v : UInt32) (out : List UInt8) : Prop :=
  C.packBits buf off n v = some out ∧ Rust.packBits buf off n v = some out ∧
    ∀ x : Int, toU32 x = v.toNat → TypeScript.packBits buf off.toNat n.toNat x = out

/-- Each `unpack_bits` returns `u`. -/
def UnpackTo (buf : List UInt8) (off n u : UInt32) : Prop :=
  C.unpackBits buf off n = some u ∧ Rust.unpackBits buf off n = some u ∧
    TypeScript.unpackBits buf off.toNat n.toNat = u.toNat

theorem ored_orBits {buf : List UInt8} {off n : Nat} (h : off + n ≤ 8 * buf.length) (v : Nat) :
    Ored buf off n v (orBits buf off (natBits n v)) := by
  have hin : off + (natBits n v).length ≤ 8 * buf.length := by
    rw [natBits_length]
    exact h
  have hat := bitAt_orBits hin
  refine ⟨orBits_length .., fun p hp => ?_, fun i hi => ?_⟩
  · rw [hat]
    rcases hp with hlt | hge
    · rw [decide_eq_false (by omega), Bool.false_and, Bool.or_false]
    · have hout : (natBits n v).length ≤ p - off := by
        rw [natBits_length]
        omega
      rw [List.getD_eq_getElem?_getD, List.getElem?_eq_none hout, Option.getD_none,
        Bool.and_false, Bool.or_false]
  · rw [hat, decide_eq_true (Nat.le_add_right off i), Bool.true_and, Nat.add_sub_cancel_left,
      natBits_eq_map, List.getD_eq_getElem?_getD, List.getElem?_map, List.getElem?_range hi]
    rfl

section Range

variable {buf : List UInt8} {off n : UInt32}

theorem packTo_orBits (hn : n.toNat ≤ 32) (hbuf : off.toNat + n.toNat ≤ 8 * buf.length)
    (hlim : off.toNat + n.toNat ≤ 4294967296) (v : UInt32) :
    PackTo buf off n v (orBits buf off.toNat (natBits n.toNat v.toNat)) := by
  refine ⟨?_, ?_, fun x hx => ?_⟩
  · rw [C.packBits_eq, Codec.C.packBits_eq _ hn hlim hbuf]
  · rw [Rust.packBits_eq, Codec.Rust.packBits_eq _ hn hlim hbuf]
  · have h := TypeScript.packBits_eq buf off.toNat n.toNat x
    rw [hx, Codec.TypeScript.packBits_eq _ hn] at h
    exact Option.some.inj h

theorem unpackTo_bitsAt (hn : n.toNat ≤ 32) (hbuf : off.toNat + n.toNat ≤ 8 * buf.length)
    (hlim : off.toNat + n.toNat ≤ 4294967296) :
    ∃ u : UInt32, UnpackTo buf off n u ∧ u.toNat = ofBits (bitsAt buf off.toNat n.toNat) := by
  have hC := C.unpackBits_eq buf off n
  have hRust := Rust.unpackBits_eq buf off n
  obtain ⟨w, hw, hTs⟩ := TypeScript.unpackBits_eq buf off.toNat n.toNat
  rw [Codec.C.unpackBits_eq hn hlim hbuf, Option.map_eq_some_iff] at hC
  rw [Codec.Rust.unpackBits_eq hn hlim hbuf, Option.map_eq_some_iff] at hRust
  rw [Codec.TypeScript.unpackBits_eq hn, Option.some.injEq] at hTs
  obtain ⟨u, hu, hval⟩ := hC
  obtain ⟨u', hu', hval'⟩ := hRust
  have hsame : u' = u := UInt32.toNat_inj.mp (hval'.trans hval.symm)
  refine ⟨u, ⟨hu, hsame ▸ hu', ?_⟩, hval⟩
  rw [hw, hval, hTs]

end Range

theorem C.signExtend_mod {n : UInt32} (h1 : 1 ≤ n.toNat) (hn : n.toNat ≤ 32) {s : Int}
    (hs : -2 ^ (n.toNat - 1) ≤ s ∧ s < 2 ^ (n.toNat - 1)) :
    (C.signExtend (UInt32.ofInt (s % 2 ^ n.toNat)) n).map Int32.toInt = some s := by
  have hcut : (UInt32.ofInt (s % 2 ^ n.toNat)).toNat = toU32 s % 2 ^ n.toNat := by
    have hlt : toU32 s % 2 ^ n.toNat < 4294967296 :=
      lt_of_le_of_lt (Nat.mod_le _ _) (toU32_lt s)
    rw [← toU32_mod_cast hn, UInt32.ofInt, UInt32.toNat_ofNat']
    omega
  rw [C.signExtend_eq, hcut, Codec.C.signExtend_eq h1 hn hs]

/-- **The bit helpers.** For every range of at most 32 bits inside the buffer that ends at
bit `2 ^ 32` or before: packing ors the low bits of the value into the range and changes
nothing else, unpacking a range that was clear returns the value modulo `2 ^ n`, the three
languages agree, and `sign_extend` undoes the cut of a signed value. -/
theorem bit_helpers (buf : List UInt8) (off n v : UInt32) (hn : n.toNat ≤ 32)
    (hbuf : off.toNat + n.toNat ≤ 8 * buf.length) (hlim : off.toNat + n.toNat ≤ 4294967296) :
    (∃ u, UnpackTo buf off n u) ∧
      (∃ out, PackTo buf off n v out ∧ Ored buf off.toNat n.toNat v.toNat out ∧
        (Clear buf off.toNat n.toNat →
          ∃ u, UnpackTo out off n u ∧ u.toNat = v.toNat % 2 ^ n.toNat)) ∧
      ∀ s : Int, 1 ≤ n.toNat → -2 ^ (n.toNat - 1) ≤ s → s < 2 ^ (n.toNat - 1) →
        (C.signExtend (UInt32.ofInt (s % 2 ^ n.toNat)) n).map Int32.toInt = some s := by
  refine ⟨?_, ⟨_, packTo_orBits hn hbuf hlim v, ored_orBits hbuf v.toNat, fun hclear => ?_⟩,
    fun s h1 hlo hhi => C.signExtend_mod h1 hn ⟨hlo, hhi⟩⟩
  · obtain ⟨u, hu, -⟩ := unpackTo_bitsAt hn hbuf hlim
    exact ⟨u, hu⟩
  · have hin : off.toNat + (natBits n.toNat v.toNat).length ≤ 8 * buf.length := by
      rw [natBits_length]
      exact hbuf
    have hbits := bitsAt_of_holds (holds_orBits_clear hin fun i hi => hclear i (by
      rwa [natBits_length] at hi))
    rw [natBits_length] at hbits
    have hlen : off.toNat + n.toNat
        ≤ 8 * (orBits buf off.toNat (natBits n.toNat v.toNat)).length := by
      rw [orBits_length]
      exact hbuf
    obtain ⟨u, hu, hval⟩ := unpackTo_bitsAt hn hlen hlim
    exact ⟨u, hu, by rw [hval, hbits, ofBits_natBits]⟩

/-- Ten bits across three bytes, from bit 7 on. -/
theorem bit_helpers_ten :
    ∃ out, PackTo [1, 0, 0] 7 10 0x2FF out ∧ UnpackTo out 7 10 0x2FF := by
  obtain ⟨-, ⟨out, hpack, -, hback⟩, -⟩ :=
    bit_helpers [1, 0, 0] 7 10 0x2FF (by decide) (by decide) (by decide)
  obtain ⟨u, hu, hval⟩ := hback (by decide)
  have h : u = 0x2FF := UInt32.toNat_inj.mp hval
  exact ⟨out, hpack, h ▸ hu⟩

/-- A two-bit range from the last bit a word can address: C sets the first bit of the
buffer instead of the bit after the range's first, Rust stops at the overflow. -/
theorem packBits_last {buf : List UInt8} (h : 0 < buf.length) :
    C.packBits buf 4294967295 2 2 = some (setBit buf 0) ∧
      Rust.packBits buf 4294967295 2 2 = none := by
  have hrange : List.range (2 : UInt32).toNat = [0, 1] := rfl
  have hbit : Nat.testBit 2 1 = true := by decide
  rw [C.packBits_eq, Rust.packBits_eq, Codec.C.packBits, Codec.Rust.packBits, hrange]
  simp [Codec.C.packBit, Codec.Rust.packBit, Codec.Rust.addU32, hbit, h]

/-- In a buffer of `2 ^ 32 + 8` bits the helpers do not or the value into the range. -/
theorem bit_helpers_wrap :
    (4294967295 : UInt32).toNat + (2 : UInt32).toNat
        ≤ 8 * (List.replicate 536870913 (0 : UInt8)).length ∧
      (∃ out, C.packBits (List.replicate 536870913 0) 4294967295 2 2 = some out ∧
        ¬ Ored (List.replicate 536870913 0) 4294967295 2 2 out) ∧
      ¬ ∃ out, PackTo (List.replicate 536870913 0) 4294967295 2 2 out := by
  have hlen : (List.replicate 536870913 (0 : UInt8)).length = 536870913 :=
    List.length_replicate
  have hpos : 0 < (List.replicate 536870913 (0 : UInt8)).length := by
    rw [hlen]
    omega
  obtain ⟨hC, hRust⟩ := packBits_last hpos
  refine ⟨?_, ⟨_, hC, fun hored => ?_⟩, fun ⟨out, hpack⟩ => ?_⟩
  · rw [hlen]
    decide
  · have h0 := hored.outside 0 (Or.inl (by decide))
    rw [bitAt_setBit (by rw [hlen]; decide), bitAt_zeros] at h0
    exact absurd h0 (by decide)
  · rw [hpack.2.1] at hRust
    exact absurd hRust (by simp)

end ProtoEmb.Codec.Helpers
