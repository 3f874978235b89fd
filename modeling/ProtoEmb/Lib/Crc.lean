/-!
# Reflected CRC-8

The bit-serial, least-significant-bit-first CRC register: each input bit is
mixed with the low bit of the register, the register shifts right, and the
polynomial is folded in when the mixed bit is set. The polynomial is a
parameter.
-/

namespace ProtoEmb.Lib

/-- Clock `n` bits of `inbyte` into the register, least significant first. -/
def crcBits (poly : UInt8) : Nat → UInt8 → UInt8 → UInt8
  | 0, crc, _ => crc
  | n + 1, crc, inbyte =>
    let mix := (crc ^^^ inbyte) &&& 0x01
    let shifted := crc >>> 1
    crcBits poly n (if mix != 0 then shifted ^^^ poly else shifted) (inbyte >>> 1)

/-- Clock one byte into the register. -/
def crcByte (poly crc byte : UInt8) : UInt8 := crcBits poly 8 crc byte

/-- The CRC of a byte string, from a zero register. -/
def crcBytes (poly : UInt8) (data : List UInt8) : UInt8 := data.foldl (crcByte poly) 0

/-- An indexed loop over the first `len` bytes of a buffer computes the CRC of
that prefix, as long as it stays inside the buffer. -/
theorem crc_indexed (poly : UInt8) (data : List UInt8) :
    ∀ {len : Nat}, len ≤ data.length →
      (List.range len).foldl (fun crc i => crcByte poly crc (data.getD i 0)) 0
        = crcBytes poly (data.take len) := by
  intro len
  induction len with
  | zero => intro _; rfl
  | succ len ih =>
    intro hlen
    have hget : data.getD len 0 = data[len] := by
      rw [List.getD_eq_getElem?_getD, List.getElem?_eq_getElem (by omega)]
      rfl
    rw [List.range_succ, List.foldl_append, ih (by omega), List.foldl_cons, List.foldl_nil, hget,
      List.take_succ_eq_append_getElem (by omega)]
    simp only [crcBytes, List.foldl_append, List.foldl_cons, List.foldl_nil]

end ProtoEmb.Lib
