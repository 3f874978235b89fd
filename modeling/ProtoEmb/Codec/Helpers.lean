import ProtoEmb.Codec.C
import ProtoEmb.Codec.Rust
import ProtoEmb.Codec.TypeScript
import ProtoEmb.Lib.Result
import ProtoEmb.Lib.Words

/-!
# The bit helpers, operator by operator

`pack_bits`, `unpack_bits` and `sign_extend` as the three templates spell them, over the
words of each language: `uint32_t` and `u32` for everything but the bytes, and the numbers
of JavaScript. A shift by 32 or more, an access outside the buffer and, in Rust, an
addition that overflows are `none`.

The codec modules have these helpers over natural numbers. The two are the same functions
for all arguments (`C.packBits_eq` and so on), so what is proved of the codecs is proved
of the helpers as they are written.
-/

namespace ProtoEmb.Codec.Helpers

open ProtoEmb.Lib

/-- `for (i = 0; i < bits; i++)`, the loop variable being a 32-bit word. -/
def forBits {σ : Type} (bits : UInt32) (turn : σ → UInt32 → Option σ) (s : σ) : Option σ :=
  (List.range bits.toNat).foldlM (fun s i => turn s (UInt32.ofNat i)) s

/-- A loop over words is the loop over numbers, if each turn is. -/
theorem forBits_map {σ τ : Type} {f : σ → τ} {bits : UInt32} {turn : σ → UInt32 → Option σ}
    {step : τ → Nat → Option τ} (h : ∀ s i, (turn s i).map f = step (f s) i.toNat) (s : σ) :
    (forBits bits turn s).map f = (List.range bits.toNat).foldlM step (f s) := by
  refine foldlM_map _ s fun i hi s => ?_
  have hlt := bits.toNat_lt
  have hi := List.mem_range.mp hi
  rw [h, UInt32.toNat_ofNat', Nat.mod_eq_of_lt (by omega)]

/-! ## C -/

namespace C

/-- The body of the loop in `pack_bits`. -/
def packTurn (bitOff value : UInt32) (buf : List UInt8) (i : UInt32) : Option (List UInt8) := do
  let byteIdx := (bitOff + i) / 8
  let bitIdx := (bitOff + i) % 8
  let shifted ← shr value i
  if shifted &&& 1 ≠ 0 then do
    let byte ← buf[byteIdx.toNat]?
    let bit ← shl 1 bitIdx
    return buf.set byteIdx.toNat (byte.toUInt32 ||| bit).toUInt8
  else return buf

/-- `pack_bits` in C. -/
def packBits (buf : List UInt8) (bitOff bits value : UInt32) : Option (List UInt8) :=
  forBits bits (packTurn bitOff value) buf

/-- The body of the loop in `unpack_bits`. -/
def unpackTurn (buf : List UInt8) (bitOff : UInt32) (value i : UInt32) : Option UInt32 := do
  let byteIdx := (bitOff + i) / 8
  let bitIdx := (bitOff + i) % 8
  let byte ← buf[byteIdx.toNat]?
  let shifted ← shr byte.toUInt32 bitIdx
  if shifted &&& 1 ≠ 0 then do
    let bit ← shl 1 i
    return value ||| bit
  else return value

/-- `unpack_bits` in C. -/
def unpackBits (buf : List UInt8) (bitOff bits : UInt32) : Option UInt32 :=
  forBits bits (unpackTurn buf bitOff) 0

/-- `sign_extend`; a width of 32 and more leaves the value alone. -/
def signExtend (value bits : UInt32) : Option Int32 :=
  if 32 ≤ bits then some value.toInt32
  else do
    let signBit ← shl 1 (bits - 1)
    if value &&& signBit ≠ 0 then do
      let top ← shl 1 bits
      return (value ||| ~~~(top - 1)).toInt32
    else return value.toInt32

end C

/-! ## Rust -/

namespace Rust

/-- `a + b` with overflow checks. -/
def add (a b : UInt32) : Option UInt32 :=
  if a.toNat + b.toNat < 4294967296 then some (a + b) else none

/-- The body of the loop in `pack_bits`. -/
def packTurn (bitOff value : UInt32) (buf : List UInt8) (i : UInt32) : Option (List UInt8) := do
  let p ← add bitOff i
  let byteIdx := p / 8
  let bitIdx := p % 8
  let shifted ← shr value i
  if shifted &&& 1 ≠ 0 then do
    let byte ← buf[byteIdx.toNat]?
    -- a `u8` shifted by less than eight
    return buf.set byteIdx.toNat (byte ||| 1 <<< bitIdx.toUInt8)
  else return buf

/-- `pack_bits` in Rust. -/
def packBits (buf : List UInt8) (bitOff bits value : UInt32) : Option (List UInt8) :=
  forBits bits (packTurn bitOff value) buf

/-- The body of the loop in `unpack_bits`. -/
def unpackTurn (buf : List UInt8) (bitOff : UInt32) (value i : UInt32) : Option UInt32 := do
  let p ← add bitOff i
  let byteIdx := p / 8
  let bitIdx := p % 8
  let byte ← buf[byteIdx.toNat]?
  if byte >>> bitIdx.toUInt8 &&& 1 ≠ 0 then do
    let bit ← shl 1 i
    return value ||| bit
  else return value

/-- `unpack_bits` in Rust. -/
def unpackBits (buf : List UInt8) (bitOff bits : UInt32) : Option UInt32 :=
  forBits bits (unpackTurn buf bitOff) 0

end Rust

/-! ## TypeScript -/

namespace TypeScript

/-- `buf[i]` under a bit operator: outside the array it is `undefined`, which counts as 0. -/
def get (buf : List UInt8) (i : Nat) : Int := (buf.getD i 0).toNat

/-- `buf[i] = x`: the low eight bits, and nothing outside the array. -/
def set (buf : List UInt8) (i : Nat) (x : Int) : List UInt8 := buf.set i (UInt8.ofInt x)

/-- The body of the loop in `packBits`. Offsets are doubles, exact below `2 ^ 53`, and
`Math.floor` of an eighth is the integer quotient. -/
def packTurn (bitOff : Nat) (value : Int) (buf : List UInt8) (i : Nat) : List UInt8 :=
  let byteIdx := (bitOff + i) / 8
  let bitIdx := (bitOff + i) % 8
  if Js.bitAnd (Js.shr value i) 1 ≠ 0 then
    set buf byteIdx (Js.bitOr (get buf byteIdx) (Js.shl 1 bitIdx))
  else buf

/-- `packBits` in TypeScript. -/
def packBits (buf : List UInt8) (bitOff bits : Nat) (value : Int) : List UInt8 :=
  (List.range bits).foldl (packTurn bitOff value) buf

/-- The body of the loop in `unpackBits`; `value` is negative once bit 31 is set. -/
def unpackTurn (buf : List UInt8) (bitOff : Nat) (value : Int) (i : Nat) : Int :=
  let byteIdx := (bitOff + i) / 8
  let bitIdx := (bitOff + i) % 8
  if Js.bitAnd (Js.shr (get buf byteIdx) bitIdx) 1 ≠ 0 then Js.bitOr value (Js.shl 1 i)
  else value

/-- `unpackBits` in TypeScript. -/
def unpackBits (buf : List UInt8) (bitOff bits : Nat) : Int :=
  -- ensure unsigned
  Js.shr ((List.range bits).foldl (unpackTurn buf bitOff) 0) 0

end TypeScript

/-! ## The same over natural numbers -/

section Model

variable {buf : List UInt8} {bitOff value i p : UInt32} {byte : UInt8}

theorem toNat_div_eight (p : UInt32) : (p / 8).toNat = p.toNat / 8 := UInt32.toNat_div ..

theorem toNat_mod_eight (p : UInt32) : (p % 8).toNat = p.toNat % 8 := UInt32.toNat_mod ..

theorem toNat_mod_eight_lt (p : UInt32) : (p % 8).toNat < 8 := by
  rw [toNat_mod_eight]
  exact Nat.mod_lt _ (by decide)

/-- The byte of a bit, if it is in the buffer. -/
theorem byte_cases (buf : List UInt8) (p : UInt32) :
    (buf.length ≤ p.toNat / 8 ∧ buf[(p / 8).toNat]? = none) ∨
      ∃ byte, p.toNat / 8 < buf.length ∧ buf[(p / 8).toNat]? = some byte := by
  rw [toNat_div_eight]
  rcases Nat.lt_or_ge (p.toNat / 8) buf.length with h | h
  · exact Or.inr ⟨_, h, List.getElem?_eq_getElem h⟩
  · exact Or.inl ⟨h, List.getElem?_eq_none h⟩

/-- A bit of the buffer is a bit of the byte it is in. -/
theorem bitAt_byte (h : buf[(p / 8).toNat]? = some byte) :
    bitAt buf p.toNat = byte.toNat.testBit (p % 8).toNat := by
  rw [bitAt, ← toNat_div_eight, ← toNat_mod_eight, List.getD_eq_getElem?_getD, h,
    Option.getD_some]

/-- Setting it is an or into that byte. -/
theorem setBit_byte (h : buf[(p / 8).toNat]? = some byte) :
    setBit buf p.toNat = buf.set (p / 8).toNat (byte ||| UInt8.ofNat (2 ^ (p % 8).toNat)) := by
  rw [setBit, ← toNat_div_eight, ← toNat_mod_eight, List.getD_eq_getElem?_getD, h,
    Option.getD_some]

theorem shl_one (h : i.toNat < 32) : shl 1 i = some (1 <<< i) := if_pos h

/-- `value |= 1 << i` -/
theorem or_shl_one (value i : UInt32) :
    ((shl 1 i).bind fun bit => some (value ||| bit)).map UInt32.toNat
      = if 32 ≤ i.toNat then none else some (value.toNat ||| 2 ^ i.toNat) := by
  unfold shl
  by_cases hi : i.toNat < 32
  · rw [if_pos hi, if_neg (by omega), Option.bind_some, Option.map_some, UInt32.toNat_or,
      toNat_one_shl hi]
  · rw [if_neg hi, if_pos (by omega)]
    rfl

/-! ### C -/

/-- A turn of the loop in C is that of the codec. -/
theorem C.packTurn_eq (buf : List UInt8) (i : UInt32) :
    C.packTurn bitOff value buf i = Codec.C.packBit bitOff.toNat value.toNat buf i.toNat := by
  have hp : (bitOff + i).toNat = (bitOff.toNat + i.toNat) % 4294967296 := UInt32.toNat_add ..
  have h8 := toNat_mod_eight_lt (bitOff + i)
  unfold C.packTurn Codec.C.packBit shr
  by_cases hi : i.toNat < 32
  · rw [if_pos hi, if_neg (by omega), ← hp]
    simp only [Option.bind_eq_bind, Option.bind_some, testBit_shr hi]
    by_cases hbit : value.toNat.testBit i.toNat = true
    · rw [if_pos hbit, if_pos hbit, shl_one (by omega)]
      rcases byte_cases buf (bitOff + i) with ⟨hout, hnone⟩ | ⟨byte, hin, hsome⟩
      · rw [hnone, if_neg (by omega)]
        rfl
      · rw [hsome, if_pos hin, setBit_byte hsome]
        exact congrArg (fun b => some (buf.set _ b)) (promoted_or_one_shl byte h8)
    · rw [if_neg hbit, if_neg hbit]
      rfl
  · rw [if_neg hi, if_pos (by omega)]
    rfl

/-- Reading a bit likewise. -/
theorem C.unpackTurn_eq (buf : List UInt8) (value i : UInt32) :
    (C.unpackTurn buf bitOff value i).map UInt32.toNat
      = Codec.C.unpackBit buf bitOff.toNat value.toNat i.toNat := by
  have hp : (bitOff + i).toNat = (bitOff.toNat + i.toNat) % 4294967296 := UInt32.toNat_add ..
  have h8 := toNat_mod_eight_lt (bitOff + i)
  have h32 : ((bitOff + i) % 8).toNat < 32 := by omega
  unfold C.unpackTurn Codec.C.unpackBit shr
  simp only [← hp]
  rcases byte_cases buf (bitOff + i) with ⟨hout, hnone⟩ | ⟨byte, hin, hsome⟩
  · rw [hnone, if_neg (by omega)]
    rfl
  · rw [hsome, if_pos hin, bitAt_byte hsome]
    simp only [Option.bind_eq_bind, Option.bind_some, if_pos h32, testBit_shr h32,
      UInt8.toNat_toUInt32]
    split
    · exact or_shl_one value i
    · rfl

/-- **`pack_bits` of C**, for all arguments. -/
theorem C.packBits_eq (buf : List UInt8) (bitOff bits value : UInt32) :
    C.packBits buf bitOff bits value
      = Codec.C.packBits buf bitOff.toNat bits.toNat value.toNat := by
  have hturn : ∀ (s : List UInt8) (i : UInt32), (C.packTurn bitOff value s i).map id
      = Codec.C.packBit bitOff.toNat value.toNat (id s) i.toNat := fun s i => by
    rw [Option.map_id_fun, id, C.packTurn_eq]
    rfl
  have h := @forBits_map _ _ _ bits _ _ hturn buf
  rw [Option.map_id_fun] at h
  exact h

/-- `unpack_bits` is that of the codec, for all arguments. -/
theorem C.unpackBits_eq (buf : List UInt8) (bitOff bits : UInt32) :
    (C.unpackBits buf bitOff bits).map UInt32.toNat
      = Codec.C.unpackBits buf bitOff.toNat bits.toNat :=
  forBits_map (C.unpackTurn_eq buf) 0

/-! ### Rust -/

/-- A checked `u32` addition is that of the codec. -/
theorem Rust.add_eq (a b : UInt32) :
    (Rust.add a b).map UInt32.toNat = Codec.Rust.addU32 a.toNat b.toNat := by
  unfold Rust.add Codec.Rust.addU32
  split
  next h =>
    rw [Option.map_some, UInt32.toNat_add]
    exact congrArg some (Nat.mod_eq_of_lt h)
  next => rfl

/-- The shift count of a byte. -/
theorem toNat_count8 (p : UInt32) : (p % 8).toUInt8.toNat = (p % 8).toNat := by
  have h8 := toNat_mod_eight_lt p
  rw [UInt32.toNat_toUInt8]
  omega

/-- A turn of the loop in Rust, which checks the offset, is that of the codec. -/
theorem Rust.packTurn_eq (buf : List UInt8) (i : UInt32) :
    Rust.packTurn bitOff value buf i
      = Codec.Rust.packBit bitOff.toNat value.toNat buf i.toNat := by
  unfold Rust.packTurn Codec.Rust.packBit
  rw [← Rust.add_eq]
  cases Rust.add bitOff i with
  | none => rfl
  | some p =>
    have h8 := toNat_mod_eight_lt p
    have hcount := toNat_count8 p
    simp only [Option.map_some, Option.bind_eq_bind, Option.bind_some, shr]
    by_cases hi : i.toNat < 32
    · simp only [if_pos hi, if_neg (show ¬ 32 ≤ i.toNat by omega), Option.bind_some,
        testBit_shr hi]
      by_cases hbit : value.toNat.testBit i.toNat = true
      · rw [if_pos hbit, if_pos hbit]
        rcases byte_cases buf p with ⟨hout, hnone⟩ | ⟨byte, hin, hsome⟩
        · rw [hnone, if_neg (by omega)]
          rfl
        · rw [hsome, if_pos hin, setBit_byte hsome, Option.bind_some, one_shl8 (by omega), hcount]
          rfl
      · rw [if_neg hbit, if_neg hbit]
        rfl
    · rw [if_neg hi, if_pos (by omega)]
      rfl

/-- Reading a bit likewise. -/
theorem Rust.unpackTurn_eq (buf : List UInt8) (value i : UInt32) :
    (Rust.unpackTurn buf bitOff value i).map UInt32.toNat
      = Codec.Rust.unpackBit buf bitOff.toNat value.toNat i.toNat := by
  unfold Rust.unpackTurn Codec.Rust.unpackBit
  rw [← Rust.add_eq]
  cases Rust.add bitOff i with
  | none => rfl
  | some p =>
    have h8 := toNat_mod_eight_lt p
    have hcount := toNat_count8 p
    simp only [Option.map_some, Option.bind_eq_bind, Option.bind_some]
    rcases byte_cases buf p with ⟨hout, hnone⟩ | ⟨byte, hin, hsome⟩
    · rw [hnone, if_neg (by omega)]
      rfl
    · rw [hsome, if_pos hin, bitAt_byte hsome, ← hcount, Option.bind_some]
      simp only [testBit_shr8 (hcount ▸ h8)]
      split
      · exact or_shl_one value i
      · rfl

/-- `pack_bits` is that of the codec, for all arguments. -/
theorem Rust.packBits_eq (buf : List UInt8) (bitOff bits value : UInt32) :
    Rust.packBits buf bitOff bits value
      = Codec.Rust.packBits buf bitOff.toNat bits.toNat value.toNat := by
  have hturn : ∀ (s : List UInt8) (i : UInt32), (Rust.packTurn bitOff value s i).map id
      = Codec.Rust.packBit bitOff.toNat value.toNat (id s) i.toNat := fun s i => by
    rw [Option.map_id_fun, id, Rust.packTurn_eq]
    rfl
  have h := @forBits_map _ _ _ bits _ _ hturn buf
  rw [Option.map_id_fun] at h
  exact h

/-- `unpack_bits` likewise. -/
theorem Rust.unpackBits_eq (buf : List UInt8) (bitOff bits : UInt32) :
    (Rust.unpackBits buf bitOff bits).map UInt32.toNat
      = Codec.Rust.unpackBits buf bitOff.toNat bits.toNat :=
  forBits_map (Rust.unpackTurn_eq buf) 0

/-! ### Sign extension -/

theorem toInt_toInt32 (w : UInt32) : w.toInt32.toInt = wrapS 32 w.toNat := by
  have hlt := w.toNat_lt
  have hint : w.toInt32.toInt = w.toBitVec.toInt := rfl
  rw [hint, BitVec.toInt_eq_toNat_cond, UInt32.toNat_toBitVec]
  unfold wrapS
  simp only [Nat.reduceSub, Int.reducePow]
  split <;> split <;> omega

/-- `~((1U << bits) - 1)`: the bits from `bits` on. -/
theorem toNat_not_mask {bits : UInt32} (h : bits.toNat < 32) :
    (~~~((1 <<< bits) - 1 : UInt32)).toNat = 4294967296 - 2 ^ bits.toNat := by
  have hpos : 0 < 2 ^ bits.toNat := Nat.two_pow_pos _
  have hlt : 2 ^ bits.toNat < 2 ^ 32 := Nat.pow_lt_pow_right (by decide) h
  have hone : (1 : UInt32) ≤ 1 <<< bits := by
    rw [UInt32.le_iff_toNat_le, toNat_one_shl h]
    exact hpos
  rw [UInt32.toNat_not, UInt32.toNat_sub_of_le _ _ hone, toNat_one_shl h]
  show 4294967296 - 1 - (2 ^ bits.toNat - 1) = _
  omega

/-- **`sign_extend` of C**, for all arguments. -/
theorem C.signExtend_eq (value bits : UInt32) :
    (C.signExtend value bits).map Int32.toInt
      = Codec.C.signExtend value.toNat bits.toNat := by
  unfold C.signExtend Codec.C.signExtend
  have hle : 32 ≤ bits ↔ 32 ≤ bits.toNat := UInt32.le_iff_toNat_le
  by_cases h32 : 32 ≤ bits.toNat
  · rw [if_pos (hle.mpr h32), if_pos h32, Option.map_some, toInt_toInt32]
  rw [if_neg (fun h => h32 (hle.mp h)), if_neg h32]
  by_cases h0 : bits.toNat = 0
  · -- the count `bits - 1` wraps
    have hbits : bits = 0 := UInt32.toNat_inj.mp h0
    rw [if_pos h0, hbits]
    rfl
  rw [if_neg h0]
  have hone : (1 : UInt32) ≤ bits := by
    rw [UInt32.le_iff_toNat_le]
    show 1 ≤ bits.toNat
    omega
  have hpred : (bits - 1).toNat = bits.toNat - 1 := UInt32.toNat_sub_of_le _ _ hone
  have hsign : value &&& 1 <<< (bits - 1) ≠ 0 ↔ value.toNat &&& 2 ^ (bits.toNat - 1) ≠ 0 := by
    rw [ne_eq, ← UInt32.toNat_inj, UInt32.toNat_and, toNat_one_shl (by omega), hpred]
    rfl
  rw [shl_one (by omega), shl_one (by omega)]
  simp only [Option.bind_eq_bind, Option.bind_some, hsign]
  split
  · rw [Option.pure_def, Option.map_some, toInt_toInt32, UInt32.toNat_or,
      toNat_not_mask (by omega)]
  · rw [Option.pure_def, Option.map_some, toInt_toInt32]

/-! ### TypeScript -/

/-- The word of a number is its remainder. -/
theorem toNat_word (x : Int) : (Js.word x).toNat = toU32 x := BitVec.toNat_ofInt x

theorem toNat_word_get (buf : List UInt8) (i : Nat) :
    (Js.word (TypeScript.get buf i)).toNat = (buf.getD i 0).toNat := by
  have hlt := (buf.getD i 0).toNat_lt
  rw [toNat_word, TypeScript.get, toU32_natCast (by omega)]

/-- An assignment to a typed array sets the bit, or does nothing behind its end. -/
theorem TypeScript.set_bit (buf : List UInt8) (p : Nat) :
    TypeScript.set buf (p / 8) (Js.bitOr (TypeScript.get buf (p / 8)) (Js.shl 1 ↑(p % 8)))
      = setBit buf p := by
  have h8 : p % 8 < 8 := Nat.mod_lt p (by decide)
  rw [TypeScript.set, setBit, Js.bitOr, Js.ofInt_toInt, BitVec.toNat_or, toNat_word_get,
    Js.word_one_shl, Nat.mod_eq_of_lt (show p % 8 < 32 by omega), UInt8.ofNat_or,
    UInt8.ofNat_toNat]

/-- A turn of the loop in TypeScript is that of the codec. -/
theorem TypeScript.packTurn_eq (off : Nat) (x : Int) (buf : List UInt8) (i : Nat) :
    some (TypeScript.packTurn off x buf i) = Codec.TypeScript.packBit off (toU32 x) buf i := by
  unfold TypeScript.packTurn Codec.TypeScript.packBit
  simp only [Js.testBit_shr, toNat_word, TypeScript.set_bit]
  split <;> rfl

/-- Reading a bit likewise, up to the sign that the or may give. -/
theorem TypeScript.unpackTurn_eq (buf : List UInt8) (off : Nat) (x : Int) (i : Nat) :
    some (Js.word (TypeScript.unpackTurn buf off x i)).toNat
      = Codec.TypeScript.unpackBit buf off (Js.word x).toNat i := by
  have h8 : (off + i) % 8 < 8 := Nat.mod_lt _ (by decide)
  unfold TypeScript.unpackTurn Codec.TypeScript.unpackBit bitAt
  simp only [Js.testBit_shr, toNat_word_get, Nat.mod_eq_of_lt (show (off + i) % 8 < 32 by omega)]
  split
  · rw [Js.word_bitOr, BitVec.toNat_or, Js.word_one_shl]
  · rfl

/-- A loop whose turns always succeed. -/
theorem foldlM_some {σ α : Type} {step : σ → α → Option σ} {turn : σ → α → σ}
    (h : ∀ s a, some (turn s a) = step s a) (l : List α) (s : σ) :
    l.foldlM step s = some (l.foldl turn s) := by
  have hstep : step = fun s a => pure (turn s a) := by
    funext s a
    exact (h s a).symm
  rw [hstep]
  exact List.foldlM_pure

/-- **`packBits` of TypeScript**, for all arguments. -/
theorem TypeScript.packBits_eq (buf : List UInt8) (off bits : Nat) (x : Int) :
    some (TypeScript.packBits buf off bits x)
      = Codec.TypeScript.packBits buf off bits (toU32 x) :=
  (foldlM_some (TypeScript.packTurn_eq off x) _ buf).symm

/-- `>>> 0` takes the sign away again. -/
theorem TypeScript.unpackBits_eq (buf : List UInt8) (off bits : Nat) :
    ∃ u : Nat, TypeScript.unpackBits buf off bits = u ∧
      Codec.TypeScript.unpackBits buf off bits = some u := by
  refine ⟨(Js.word ((List.range bits).foldl (TypeScript.unpackTurn buf off) 0)).toNat, ?_, ?_⟩
  · -- `>>> 0` makes it unsigned
    rw [TypeScript.unpackBits, Js.shr, ← Nat.cast_zero, Js.count_natCast]
    rfl
  · have h := foldlM_map (f := fun x => (Js.word x).toNat)
      (F := fun x i => some (TypeScript.unpackTurn buf off x i))
      (G := Codec.TypeScript.unpackBit buf off) (List.range bits) 0
      fun i _ x => TypeScript.unpackTurn_eq buf off x i
    rw [foldlM_some (fun _ _ => rfl)] at h
    exact h.symm

end Model

end ProtoEmb.Codec.Helpers
