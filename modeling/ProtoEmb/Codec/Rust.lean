import ProtoEmb.Codec.Packed
import ProtoEmb.Codec.Step

/-!
# The packed codec in Rust

`pack_bits`, `unpack_bits` and the leaf expressions of `protocol.rs.j2`. A signed number
is an `i32`, every other one a `u32`. With overflow checks on, `+`, `-` and `<<` panic
when they overflow, as an index outside a slice and a division by zero do; `wrapping_*`
wrap. A literal that does not fit its type does not compile. All of these are `none`.

The scalar decoder of an unsigned field with `min` and `scale` differs from the one for
elements: it lacks the parentheses around the quotient, and a method call binds more
tightly than `/`, so it divides by `scale.wrapping_add(min)`.

Expressions on `f32` are evaluated by the parameter `fl`.
-/

namespace ProtoEmb.Codec.Rust

open ProtoEmb.Lib ProtoEmb.Schema

/-! ## Helpers -/

/-- `u32` addition with overflow checks. -/
def addU32 (a b : Nat) : Option Nat := if a + b < 4294967296 then some (a + b) else none

/-- One iteration of `pack_bits`. -/
def packBit (off value : Nat) (buf : List UInt8) (i : Nat) : Option (List UInt8) := do
  let p ← addU32 off i
  if 32 ≤ i then none
  else if value.testBit i then if p / 8 < buf.length then some (setBit buf p) else none
  else some buf

def packBits (buf : List UInt8) (off bits value : Nat) : Option (List UInt8) :=
  (List.range bits).foldlM (packBit off value) buf

/-- One iteration of `unpack_bits`. -/
def unpackBit (buf : List UInt8) (off : Nat) (value i : Nat) : Option Nat := do
  let p ← addU32 off i
  if p / 8 < buf.length then
    if bitAt buf p then if 32 ≤ i then none else some (value ||| 2 ^ i) else some value
  else none

def unpackBits (buf : List UInt8) (off bits : Nat) : Option Nat :=
  (List.range bits).foldlM (unpackBit buf off) 0

/-! ## Integers -/

/-- A literal with a type suffix: `i32`, or `u32` if `u`. -/
def lit (u : Bool) (n : Int) : Option Int := if Fits u n then some n else none

/-- `+` and `-` with overflow checks. -/
def checked (u : Bool) (n : Int) : Option Int := if Fits u n then some n else none

/-- `wrapping_add`, `wrapping_sub`, `wrapping_mul`. -/
def wrapping (u : Bool) (n : Int) : Int := if u then wrapU 32 n else wrapS 32 n

/-- `a / b`; a zero divisor and the overflow of `i32::MIN / -1` panic. -/
def div (u : Bool) (a b : Int) : Option Int := if b = 0 then none else checked u (a.tdiv b)

/-- The scale literal; only an integer one compiles. -/
def scaleLit (u : Bool) (e : Elem) : Option Int :=
  match e.scale with
  | .int k => lit u k
  | .float _ => none

/-- `.wrapping_mul(scale)`, printed only if the scale is not 1. -/
def mulScale (u : Bool) (e : Elem) (n : Int) : Option Int :=
  if e.hasScale then do
    let k ← scaleLit u e
    return wrapping u (n * k)
  else some n

/-- `/ scale`, printed only if the scale is not 1. -/
def divScale (u : Bool) (e : Elem) (n : Int) : Option Int :=
  if e.hasScale then do
    let k ← scaleLit u e
    div u n k
  else some n

/-! ## Enums -/

/-- `to_wire`, on the variant with index `i`. A `repr(u8)` enum has at most 256
variants. -/
def toWire (t : Enum) (i : Int) : Option Nat :=
  if t.count ≤ 256 ∧ 0 ≤ i ∧ i < t.count then some i.toNat else none

/-- `from_wire(u as u8).unwrap_or_default()`; the default is the first variant. -/
def fromWire (t : Enum) (u : Nat) : Option Int :=
  if t.count ≤ 256 then some (if u % 256 < t.count then ↑(u % 256) else 0) else none

/-! ## Leaves -/

/-- Expressions on `f32`. -/
structure FloatExprs where
  step : Elem → Value → Option Nat
  unstep : Elem → Nat → Option Value

/-- For a schema without such expressions. -/
def noFloats : FloatExprs := ⟨fun _ _ => none, fun _ _ => none⟩

variable (fl : FloatExprs)

/-- The value argument of `pack_bits` for an `i32`. -/
def stepSigned (e : Elem) (n : Int) : Option Nat :=
  if e.rawStorage then
    match e.minWire with
    | some m => do
      let d ← checked false (n - (← lit false m))
      return toU32 d
    | none => return toU32 n
  else
    match e.min with
    -- the difference is checked, the product wraps
    | some m => do
      let d ← checked false (n - (← lit false m.toInt))
      let s ← mulScale false e d
      return toU32 s
    | none => do
      let s ← mulScale false e n
      return toU32 s

/-- The value argument of `pack_bits` for a `u32`. -/
def stepUnsigned (e : Elem) (n : Int) : Option Nat :=
  if e.rawStorage then
    match e.minWire with
    | some m => do
      -- `wrapping_sub` never panics
      let d := wrapping true (n - (← lit true m))
      return toU32 d
    | none => return toU32 n
  else
    match e.packedMin with
    | some m => do
      let d := wrapping true (n - (← lit true m.toInt))
      let s ← mulScale true e d
      return toU32 s
    | none => do
      let s ← mulScale true e n
      return toU32 s

/-- The value argument of `pack_bits`: `rs_pack_leaf`, and the same expressions inline. -/
def step (_scalar : Bool) (e : Elem) (v : Value) : Option Nat :=
  if e.isBool then
    match v with
    | .bool b => some (if b then 1 else 0)
    | _ => none
  else if e.isEnum then
    match v, e.enum with
    | .enum i, some t => toWire t i
    | _, _ => none
  else if e.isFloat then fl.step e v
  else if e.isString then none
  else
    match v with
    | .int n =>
      -- the argument is an `i32` or a `u32`
      if Fits (!e.isSigned) n then
        if e.isSigned then stepSigned e n else stepUnsigned e n
      else none
    | _ => none

/-- The decoded `i32`. -/
def unstepSigned (e : Elem) (u : Nat) : Option Int :=
  let w := wrapS 32 u
  if e.rawStorage then
    match e.minWire with
    | some m => do checked false (w + (← lit false m))
    | none => some w
  else
    match e.min with
    | some m => do
      let q ← divScale false e w
      checked false (q + (← lit false m.toInt))
    | none => divScale false e w

/-- The decoded `u32`. -/
def unstepUnsigned (scalar : Bool) (e : Elem) (u : Nat) : Option Int :=
  if e.rawStorage then
    match e.minWire with
    | some m => do return wrapping true (u + (← lit true m))
    | none => some u
  else
    match e.packedMin with
    | some m => do
      let b ← lit true m.toInt
      if scalar then
        -- no parentheses: `unpack_bits(..) / scale.wrapping_add(min)`
        if e.hasScale then do
          let k ← scaleLit true e
          div true u (wrapping true (k + b))
        else return wrapping true (u + b)
      else do
        let q ← divScale true e u
        return wrapping true (q + b)
    | none => divScale true e u

/-- The leaf, from the result of `unpack_bits`. -/
def unstep (scalar : Bool) (e : Elem) (u : Nat) : Option Value :=
  if e.isBool then some (.bool (u ≠ 0))
  else if e.isEnum then
    match e.enum with
    | some t => (fromWire t u).map .enum
    | none => none
  else if e.isFloat then fl.unstep e u
  else if e.isString then none
  else if e.isSigned then (unstepSigned e u).map .int
  else (unstepUnsigned scalar e u).map .int

/-- `Default::default()` of a variant's payload. -/
def defaultLeaf (e : Elem) : Value :=
  if e.isEnum then .enum 0
  else if e.isBool then .bool false
  else if e.isFloat then .float 0
  else .int 0

/-- The packed codec of `protocol.rs.j2`. A tag without a variant decodes to the default,
the first variant with a default payload. -/
def lang : PackLang where
  literal off := addU32 0 off
  add := addU32
  packBits := packBits
  unpackBits := unpackBits
  step := step fl
  unstep := unstep fl
  unknownTag u _ := u.variants[0]?.map fun v => .union 0 (defaultLeaf v.elem)

/-- `T::decode(buf)`: `some none` if the slice is too short. -/
def decode (scope : Scope) (name : String) (buf : List UInt8) : Option (Option Value) := do
  let t ← scope.lookup name
  if buf.length < t.wireSize then return none
  else do
    let v ← (lang fl).decode scope name buf
    return some v

variable {fl}

theorem addU32_eq {a b : Nat} (h : a + b < 4294967296) : addU32 a b = some (a + b) := if_pos h

theorem packBits_eq {buf : List UInt8} {off bits : Nat} (x : Nat) (hbits : bits ≤ 32)
    (hlim : off + bits ≤ 4294967296) (hbuf : off + bits ≤ 8 * buf.length) :
    packBits buf off bits x = some (orBits buf off (natBits bits x)) := by
  refine packLoop_eq bits fun buf' i hi hlen => ?_
  have hin : (off + i) / 8 < buf'.length := by omega
  unfold packBit
  rw [addU32_eq (by omega), Option.bind_eq_bind, Option.bind_some, if_neg (by omega), if_pos hin]
  split <;> rfl

theorem unpackBits_eq {buf : List UInt8} {off bits : Nat} (hbits : bits ≤ 32)
    (hlim : off + bits ≤ 4294967296) (hbuf : off + bits ≤ 8 * buf.length) :
    unpackBits buf off bits = some (ofBits (bitsAt buf off bits)) := by
  refine unpackLoop_eq bits fun v i hi => ?_
  have hin : (off + i) / 8 < buf.length := by omega
  have hi32 : ¬ 32 ≤ i := by omega
  unfold unpackBit
  rw [addU32_eq (by omega), Option.bind_eq_bind, Option.bind_some, if_pos hin, if_neg hi32]
  split <;> rfl

theorem lang_lawful : (lang fl).Lawful where
  literal_eq _ := rfl
  add_eq h := addU32_eq h
  packBits_eq x hbits hlim hbuf := packBits_eq x hbits hlim.le hbuf
  unpackBits_eq hbits hlim hbuf := unpackBits_eq hbits hlim.le hbuf

/-! ## Integer leaves -/

section Int

variable {e : Elem} {n : Int} {u : Bool}

theorem lit_eq (h : Fits u n) : lit u n = some n := if_pos h

theorem checked_eq (h : Fits u n) : checked u n = some n := if_pos h

theorem wrapping_eq (h : Fits u n) : wrapping u n = n := by
  cases u with
  | false =>
    rw [fits_signed] at h
    simp only [wrapping, wrapS, Bool.false_eq_true, if_false, Nat.reduceSub, Int.reducePow]
    omega
  | true =>
    rw [fits_unsigned] at h
    exact Int.emod_eq_of_lt h.1 h.2

/-- The scale that is left out is 1. -/
theorem factor_of_not_hasScale (h : e.Integral) (hscale : e.hasScale = true ↔ e.scale.toRat ≠ 1)
    (hraw : e.rawStorage = false) (hs : ¬ e.hasScale = true) : e.factor = 1 := by
  obtain ⟨k, hk, _⟩ := h.scale_int
  rw [hscale, not_not, hk] at hs
  have hrat : (k : Rat) = 1 := hs
  have hone : k = 1 := by exact_mod_cast hrat
  rw [Elem.factor, hraw, hk, hone]
  rfl

theorem scaleLit_eq (h : e.Integral) (hraw : e.rawStorage = false) (hk : Fits u e.factor) :
    scaleLit u e = some e.factor := by
  obtain ⟨k, hscale, _⟩ := h.scale_int
  have hfac : e.factor = k := by rw [Elem.factor, hraw, hscale]; rfl
  rw [scaleLit, hscale, hfac]
  exact lit_eq (hfac ▸ hk)

theorem mulScale_eq (h : e.Integral) (hscale : e.hasScale = true ↔ e.scale.toRat ≠ 1)
    (hraw : e.rawStorage = false) (hk : Fits u e.factor) (hp : Fits u (n * e.factor)) :
    mulScale u e n = some (n * e.factor) := by
  unfold mulScale
  split
  next =>
    rw [scaleLit_eq h hraw hk, Option.bind_eq_bind, Option.bind_some, wrapping_eq hp]
    rfl
  next hs => rw [factor_of_not_hasScale h hscale hraw hs, Int.mul_one]

theorem divScale_eq (h : e.Integral) (hscale : e.hasScale = true ↔ e.scale.toRat ≠ 1)
    (hraw : e.rawStorage = false) (hk : Fits u e.factor) (hn : Fits u n) :
    divScale u e n = some (n.tdiv e.factor) := by
  have hpos := h.factor_pos
  unfold divScale
  split
  next =>
    rw [scaleLit_eq h hraw hk, Option.bind_eq_bind, Option.bind_some, div, if_neg (by omega),
      checked_eq (fits_tdiv hn hpos)]
  next hs => rw [factor_of_not_hasScale h hscale hraw hs, Int.tdiv_one]

/-- The `min_wire` of a raw leaf. -/
theorem minWire_cases (hraw : e.rawStorage = true) :
    (e.minWire = none ∧ e.base = 0) ∨ ∃ m, e.minWire = some m ∧ e.base = m := by
  rw [Elem.base, if_pos hraw]
  cases e.minWire with
  | none => exact Or.inl ⟨rfl, rfl⟩
  | some m => exact Or.inr ⟨m, rfl, rfl⟩

theorem wireStep_raw (hraw : e.rawStorage = true) : e.wireStep n = n - e.base := by
  rw [Elem.wireStep, Elem.factor, if_pos hraw, Int.mul_one]

theorem stepSigned_eq (h : e.Integral) (hscale : e.hasScale = true ↔ e.scale.toRat ≠ 1)
    (hsg : e.isSigned = true) (hno : e.NoOverflow false n) :
    stepSigned e n = some (toU32 (e.wireStep n)) := by
  unfold stepSigned
  by_cases hraw : e.rawStorage = true
  · rw [if_pos hraw, wireStep_raw hraw]
    rcases minWire_cases hraw with ⟨hm, hb⟩ | ⟨m, hm, hb⟩
    · rw [hm, hb, Int.sub_zero]
      rfl
    · have hlit := hno.base
      have hdiff := hno.diff
      rw [hb] at hlit hdiff ⊢
      simp only [hm, lit_eq hlit, checked_eq hdiff, Option.bind_eq_bind, Option.bind_some,
        Option.pure_def]
  · rw [if_neg hraw]
    have hraw' : e.rawStorage = false := by simpa using hraw
    have hpm : e.packedMin = e.min := if_pos hsg
    have hmul := mulScale_eq h hscale hraw' hno.factor
      (show Fits false (e.wireStep n) from hno.step)
    rcases h.packedMin_cases hraw' with ⟨hp, hb⟩ | ⟨m, hp, hb⟩
    · rw [hb, Int.sub_zero] at hmul
      rw [hpm] at hp
      simp only [hp, hmul, Option.bind_eq_bind, Option.bind_some, Option.pure_def, Elem.wireStep,
        hb, Int.sub_zero]
    · have hlit := hno.base
      have hdiff := hno.diff
      rw [hb] at hlit hdiff hmul
      rw [hpm] at hp
      simp only [hp, Num.toInt, lit_eq hlit, checked_eq hdiff, hmul, Option.bind_eq_bind,
        Option.bind_some, Option.pure_def, Elem.wireStep, hb]

theorem stepUnsigned_eq (h : e.Integral) (hscale : e.hasScale = true ↔ e.scale.toRat ≠ 1)
    (hno : e.NoOverflow true n) : stepUnsigned e n = some (toU32 (e.wireStep n)) := by
  unfold stepUnsigned
  by_cases hraw : e.rawStorage = true
  · rw [if_pos hraw, wireStep_raw hraw]
    rcases minWire_cases hraw with ⟨hm, hb⟩ | ⟨m, hm, hb⟩
    · rw [hm, hb, Int.sub_zero]
      rfl
    · have hlit := hno.base
      have hdiff := hno.diff
      rw [hb] at hlit hdiff ⊢
      simp only [hm, lit_eq hlit, wrapping_eq hdiff, Option.bind_eq_bind, Option.bind_some,
        Option.pure_def]
  · rw [if_neg hraw]
    have hraw' : e.rawStorage = false := by simpa using hraw
    have hmul := mulScale_eq h hscale hraw' hno.factor (show Fits true (e.wireStep n) from hno.step)
    rcases h.packedMin_cases hraw' with ⟨hp, hb⟩ | ⟨m, hp, hb⟩
    · rw [hb, Int.sub_zero] at hmul
      simp only [hp, hmul, Option.bind_eq_bind, Option.bind_some, Option.pure_def, Elem.wireStep,
        hb, Int.sub_zero]
    · have hlit := hno.base
      have hdiff := hno.diff
      rw [hb] at hlit hdiff hmul
      simp only [hp, Num.toInt, lit_eq hlit, wrapping_eq hdiff, hmul, Option.bind_eq_bind,
        Option.bind_some, Option.pure_def, Elem.wireStep, hb]

/-- The step is computed exactly. -/
theorem step_int (s : Bool) (h : e.Integral) (hscale : e.hasScale = true ↔ e.scale.toRat ≠ 1)
    (hno : e.NoOverflow (!e.isSigned) n) :
    step fl s e (.int n) = some (toU32 (e.wireStep n)) := by
  unfold step
  rw [h.not_bool, h.not_enum, h.not_float, h.not_string]
  simp only [Bool.false_eq_true, if_false, if_pos hno.value]
  by_cases hsg : e.isSigned = true
  · rw [hsg] at hno
    rw [if_pos hsg]
    exact stepSigned_eq h hscale hsg hno
  · have hsg' : e.isSigned = false := by simpa using hsg
    rw [hsg'] at hno
    rw [if_neg hsg]
    exact stepUnsigned_eq h hscale hno

end Int

/-! ## Reading integers back -/

section ReadBack

variable {e : Elem} {n : Int}

/-- The scalar expression that divides by `scale.wrapping_add(min)`. -/
def isMisparsed (scalar : Bool) (e : Elem) : Bool :=
  scalar && !e.rawStorage && !e.isSigned && e.hasScale && e.packedMin.isSome

/-- The condition under which the decoder returns the value that was encoded: a negative
number in two's complement is not sign-extended, a step that does not fit its bits is
cut, and a quotient by `scale.wrapping_add(min)` is the value only by coincidence, if
that sum wraps. -/
structure ReadsBack (scalar : Bool) (e : Elem) (n : Int) : Prop where
  nonneg : e.isTwos = true → 0 ≤ n ∨ e.size = 32
  fits : e.isTwos = false → isMisparsed scalar e = false → e.wireStep n < 2 ^ e.size
  misparsed : isMisparsed scalar e = true →
    4294967296 < e.factor + e.base ∧
      e.wireStep n % 2 ^ e.size / (e.factor + e.base - 4294967296) = n

instance (scalar : Bool) (e : Elem) (n : Int) : Decidable (ReadsBack scalar e n) :=
  decidable_of_iff ((e.isTwos = true → 0 ≤ n ∨ e.size = 32) ∧
      (e.isTwos = false → isMisparsed scalar e = false → e.wireStep n < 2 ^ e.size) ∧
      (isMisparsed scalar e = true → 4294967296 < e.factor + e.base ∧
        e.wireStep n % 2 ^ e.size / (e.factor + e.base - 4294967296) = n))
    ⟨fun ⟨h₁, h₂, h₃⟩ => ⟨h₁, h₂, h₃⟩, fun h => ⟨h.nonneg, h.fits, h.misparsed⟩⟩

/-- The pattern of a two's complement leaf, read without sign extension. -/
theorem wrapS_trunc_iff {b : Nat} {t : Int} (h1 : 1 ≤ b) (h32 : b ≤ 32)
    (ht : -2 ^ (b - 1) ≤ t ∧ t < 2 ^ (b - 1)) :
    wrapS 32 (t % 2 ^ b) = t ↔ 0 ≤ t ∨ b = 32 := by
  obtain ⟨k, rfl⟩ : ∃ k, b = k + 1 := ⟨b - 1, by omega⟩
  rw [Nat.add_sub_cancel] at ht
  have hpow : (2 : Int) ^ (k + 1) = 2 * 2 ^ k := by rw [pow_succ]; ring
  have hk : (0 : Int) < 2 ^ k := Int.pow_pos (by decide)
  have hle := two_pow_le_word h32
  rcases Int.lt_or_le t 0 with hneg | h0
  · have hmod : t % 2 ^ (k + 1) = t + 2 ^ (k + 1) := by
      rw [← Int.add_emod_right, Int.emod_eq_of_lt (by omega) (by omega)]
    rw [hmod, wrapS32_eq (by omega) (by omega)]
    constructor
    · intro h
      right
      by_contra hne
      have hsmall : (2 : Int) ^ (k + 1) ≤ 2147483648 := by
        calc (2 : Int) ^ (k + 1) ≤ 2 ^ 31 := pow_le_pow_right₀ (by decide) (by omega)
          _ = 2147483648 := by decide
      split at h <;> omega
    · intro h
      have hb : k + 1 = 32 := by omega
      rw [hb] at hpow ⊢
      norm_num at hpow ⊢
      omega
  · have hhalf : (2 : Int) ^ k ≤ 2147483648 := by
      calc (2 : Int) ^ k ≤ 2 ^ 31 := pow_le_pow_right₀ (by decide) (by omega)
        _ = 2147483648 := by decide
    rw [Int.emod_eq_of_lt h0 (by omega), wrapS32_eq h0 (by omega), if_pos (by omega)]
    exact ⟨fun _ => Or.inl h0, fun _ => rfl⟩

/-- An `i32` with `min`, read back from a step of at least zero. -/
theorem wrapS_trunc {b : Nat} {t : Int} (h0 : 0 ≤ t) (ht : t < 2147483648) :
    wrapS 32 (t % 2 ^ b) = t % 2 ^ b ∧ 0 ≤ t % 2 ^ b ∧ t % 2 ^ b ≤ t := by
  obtain ⟨hnn, hle⟩ := emod_two_pow_bounds b h0
  refine ⟨?_, hnn, hle⟩
  rw [wrapS32_eq hnn (by omega), if_pos (by omega)]

theorem checked_eq_some_iff {u : Bool} {x y : Int} (hx : Fits u x) :
    checked u x = some y ↔ x = y := by
  rw [checked_eq hx, Option.some.injEq]

/-- The range of the values that are encoded: two's complement in the leaf's bits, or at
least `min`. -/
def StepRange (e : Elem) (n : Int) : Prop :=
  if e.isTwos then e.FitsBits (e.wireStep n) else 0 ≤ e.wireStep n

/-- The sign of the step is that of the difference. -/
theorem wireStep_nonneg_iff (h : e.Integral) : 0 ≤ e.wireStep n ↔ 0 ≤ n - e.base := by
  have hpos := h.factor_pos
  rw [Elem.wireStep]
  constructor
  · intro hs
    by_contra hneg
    have := Int.mul_neg_of_neg_of_pos (show n - e.base < 0 by omega) (show 0 < e.factor by omega)
    omega
  · intro hd
    exact Int.mul_nonneg hd (by omega)

/-- `wire / scale + min` on an `i32`, on any wire value. -/
theorem unstepSigned_offset (h : e.Integral) (hscale : e.hasScale = true ↔ e.scale.toRat ≠ 1)
    (hwire : e.minWire = none ↔ e.min = none) (hsg : e.isSigned = true) (htwos : e.isTwos = false)
    {u : Nat} (hu : Fits false u) (hk : Fits false e.factor) (hb : Fits false e.base)
    (hsum : Fits false (e.quotient u)) : unstepSigned e u = some (e.quotient u) := by
  have hmin : e.min ≠ none := by
    intro hnone
    simp [Elem.isTwos, hsg, hnone] at htwos
  have hword := hu
  rw [fits_signed] at hword
  unfold unstepSigned
  rw [wrapS32_eq (Int.natCast_nonneg u) (show (u : Int) < 4294967296 by omega), if_pos hword.2]
  cases hraw : e.rawStorage with
  | true =>
    have hone : e.factor = 1 := by rw [Elem.factor, if_pos hraw]
    rw [Elem.quotient, hone, Int.ediv_one] at hsum ⊢
    rcases minWire_cases hraw with ⟨hm, -⟩ | ⟨m, hm, hbm⟩
    · exact absurd (hwire.mp hm) hmin
    · rw [hbm] at hb hsum ⊢
      simp only [if_true, hm, lit_eq hb, Option.bind_eq_bind, Option.bind_some, checked_eq hsum]
  | false =>
    have hpm : e.packedMin = e.min := if_pos hsg
    rcases h.packedMin_cases hraw with ⟨hp, -⟩ | ⟨m, hp, hbm⟩
    · exact absurd (hpm ▸ hp) hmin
    · have hquot : (u : Int).tdiv e.factor + m = e.quotient u := by
        rw [Elem.quotient, hbm, Int.tdiv_eq_ediv_of_nonneg (Int.natCast_nonneg u)]
      rw [hpm] at hp
      simp only [Bool.false_eq_true, if_false, hp, Num.toInt, lit_eq (hbm ▸ hb),
        divScale_eq h hscale hraw hk hu, Option.bind_eq_bind, Option.bind_some, hquot,
        checked_eq hsum]

/-- `wire / scale` on an `i32`, in two's complement. -/
theorem unstepSigned_twos (h : e.Integral) (hscale : e.hasScale = true ↔ e.scale.toRat ≠ 1)
    (hwire : e.minWire = none ↔ e.min = none) (htwos : e.isTwos = true) {u : Nat}
    (hk : Fits false e.factor) (hu : Fits false (wrapS 32 (u : Int))) :
    unstepSigned e u = some ((wrapS 32 (u : Int)).tdiv e.factor) := by
  have hmin : e.min = none := by
    simp only [Elem.isTwos, Bool.and_eq_true, Option.isNone_iff_eq_none] at htwos
    exact htwos.2
  unfold unstepSigned
  cases hraw : e.rawStorage with
  | true =>
    have hone : e.factor = 1 := by rw [Elem.factor, if_pos hraw]
    simp only [if_true, hwire.mpr hmin, hone, Int.tdiv_one]
  | false =>
    simp only [Bool.false_eq_true, if_false, hmin, divScale_eq h hscale hraw hk hu]

/-- `wire / scale` and `wrapping_add(min)` on a `u32`, on any wire value. -/
theorem unstepUnsigned_quotient {s : Bool} (h : e.Integral)
    (hscale : e.hasScale = true ↔ e.scale.toRat ≠ 1) (hsg : e.isSigned = false)
    (hmis : isMisparsed s e = false) {u : Nat} (hu : Fits true u) (hk : Fits true e.factor)
    (hb : Fits true e.base) (hsum : Fits true (e.quotient u)) :
    unstepUnsigned s e u = some (e.quotient u) := by
  unfold unstepUnsigned
  cases hraw : e.rawStorage with
  | true =>
    have hone : e.factor = 1 := by rw [Elem.factor, if_pos hraw]
    rw [Elem.quotient, hone, Int.ediv_one] at hsum ⊢
    rw [if_pos rfl]
    rcases minWire_cases hraw with ⟨hm, hb0⟩ | ⟨m, hm, hbm⟩
    · simp only [hm, hb0, Int.add_zero]
    · rw [hbm] at hb hsum ⊢
      simp only [hm, lit_eq hb, Option.bind_eq_bind, Option.bind_some, Option.pure_def,
        wrapping_eq hsum]
  | false =>
    have hdiv : (u : Int).tdiv e.factor = u / e.factor :=
      Int.tdiv_eq_ediv_of_nonneg (Int.natCast_nonneg u)
    have hdivScale := divScale_eq h hscale hraw hk hu
    rw [hdiv] at hdivScale
    rw [if_neg Bool.false_ne_true]
    rcases h.packedMin_cases hraw with ⟨hp, hb0⟩ | ⟨m, hp, hbm⟩
    · simp only [hp, hdivScale, Elem.quotient, hb0, Int.add_zero]
    · have hquot : (u : Int) / e.factor + m = e.quotient u := by rw [Elem.quotient, hbm]
      simp only [hp, Num.toInt, lit_eq (hbm ▸ hb), hdivScale, Option.bind_eq_bind,
        Option.bind_some, Option.pure_def, hquot, wrapping_eq hsum]
      split
      next hscalar =>
        -- a scalar with a scale has the expression without parentheses
        have hnot : ¬ e.hasScale = true := by
          intro hhas
          simp [isMisparsed, hscalar, hhas, hraw, hsg, hp] at hmis
        have hone := factor_of_not_hasScale h hscale hraw hnot
        rw [if_neg hnot]
        rw [hone, Int.ediv_one] at hquot
        rw [hquot, wrapping_eq hsum]
      next => rfl

/-- The scalar expression without parentheses divides by `scale.wrapping_add(min)`. -/
theorem unstepUnsigned_misparsed {s : Bool} (h : e.Integral) (hmis : isMisparsed s e = true)
    {u : Nat} (hk : Fits true e.factor) (hb : Fits true e.base) :
    unstepUnsigned s e u = div true u (wrapping true (e.factor + e.base)) ∧ 0 < e.base := by
  simp only [isMisparsed, Bool.and_eq_true, Bool.not_eq_true', Option.isSome_iff_exists] at hmis
  obtain ⟨⟨⟨⟨rfl, hraw⟩, hsg⟩, hs⟩, m, hm⟩ := hmis
  rcases h.packedMin_cases hraw with ⟨hp, -⟩ | ⟨m, hp, hbm⟩
  · rw [hm] at hp
    cases hp
  · have hne : m ≠ 0 := by
      unfold Elem.packedMin at hp
      rw [hsg, if_neg Bool.false_ne_true] at hp
      have hprinted := (Option.filter_eq_some_iff.mp hp).2
      simp only [decide_eq_true_iff] at hprinted
      exact fun hm => hprinted (by rw [hm]; rfl)
    have hpos : 0 < e.base := by
      rw [fits_unsigned] at hb
      omega
    refine ⟨?_, hpos⟩
    unfold unstepUnsigned
    simp only [hraw, Bool.false_eq_true, if_false, hp, Num.toInt, lit_eq (hbm ▸ hb), if_true, hs,
      scaleLit_eq h hraw hk, Option.bind_eq_bind, Option.bind_some, hbm]

/-- Dividing by `scale.wrapping_add(min)`. Without the wrap the quotient is too small. -/
theorem div_misparsed_iff {x k m y : Int} (hk : Fits true k) (hk1 : 1 ≤ k) (hm : Fits true m)
    (hm0 : 0 < m) (hx : Fits true x) (hy : x / k < y) :
    div true x (wrapping true (k + m)) = some y ↔
      4294967296 < k + m ∧ x / (k + m - 4294967296) = y := by
  have hword := hx
  rw [fits_unsigned] at hk hm hword
  -- the sum of two words wraps once at most
  have hwrap : wrapping true (k + m)
      = if k + m < 4294967296 then k + m else k + m - 4294967296 := by
    simp only [wrapping, wrapU, if_true, Int.reducePow]
    split
    · rw [Int.emod_eq_of_lt (by omega) (by omega)]
    · omega
  rw [hwrap, div]
  by_cases hlt : k + m < 4294967296
  · rw [if_pos hlt, if_neg (by omega), checked_eq_some_iff (fits_tdiv hx (by omega)),
      Int.tdiv_eq_ediv_of_nonneg hword.1]
    have hsmall : x / (k + m) ≤ x / k :=
      Int.le_ediv_of_mul_le (by omega) (by
        calc x / (k + m) * k ≤ x / (k + m) * (k + m) :=
              Int.mul_le_mul_of_nonneg_left (by omega) (Int.ediv_nonneg hword.1 (by omega))
          _ ≤ x := Int.ediv_mul_le x (by omega))
    constructor
    · intro heq
      omega
    · rintro ⟨hgt, _⟩
      omega
  · rw [if_neg hlt]
    -- a sum of exactly `2 ^ 32` is a division by zero
    by_cases heq : k + m = 4294967296
    · rw [heq, Int.sub_self, if_pos rfl]
      constructor
      · intro h; cases h
      · rintro ⟨hgt, _⟩; omega
    · rw [if_neg (by omega), checked_eq_some_iff (fits_tdiv hx (by omega)),
        Int.tdiv_eq_ediv_of_nonneg hword.1]
      exact ⟨fun h => ⟨by omega, h⟩, fun h => h.2⟩

theorem unstepSigned_iff (h : e.Integral) (hscale : e.hasScale = true ↔ e.scale.toRat ≠ 1)
    (hwire : e.minWire = none ↔ e.min = none) (hsg : e.isSigned = true)
    (hno : e.NoOverflow false n) (h1 : 1 ≤ e.size) (h32 : e.size ≤ 32) (hr : StepRange e n) :
    unstepSigned e (toU32 (e.wireStep n) % 2 ^ e.size) = some n ↔
      (e.isTwos = true → 0 ≤ n ∨ e.size = 32) ∧
        (e.isTwos = false → e.wireStep n < 2 ^ e.size) := by
  have hpos := h.factor_pos
  cases ht : e.isTwos with
  | false =>
    have hstep := hno.step
    have hval := hno.value
    have hb := hno.base
    rw [StepRange, ht, if_neg Bool.false_ne_true] at hr
    obtain ⟨h0, hle⟩ := emod_two_pow_bounds e.size hr
    have hquot := h.quotient_bounds h0 hle
    rw [fits_signed] at hstep hval hb
    rw [unstepSigned_offset h hscale hwire hsg ht
      (by rw [toU32_mod_cast h32, fits_signed]; omega) hno.factor hno.base
      (by rw [toU32_mod_cast h32, fits_signed]; omega), toU32_mod_cast h32, Option.some.injEq]
    simp only [Bool.false_eq_true, false_implies, true_implies, true_and]
    exact h.quotient_wireBits_iff hr
  | true =>
    have hmin : e.min = none := by
      simp only [Elem.isTwos, Bool.and_eq_true, Option.isNone_iff_eq_none] at ht
      exact ht.2
    have hb0 : e.base = 0 := by
      rw [Elem.base, Elem.packedMin, if_pos hsg, hmin, hwire.mpr hmin]
      split <;> rfl
    have hsign : 0 ≤ e.wireStep n ↔ 0 ≤ n := by
      rw [wireStep_nonneg_iff h, hb0, Int.sub_zero]
    have hdiv := h.wireStep_div n
    rw [hb0, Int.sub_zero] at hdiv
    rw [StepRange, ht, if_pos rfl, Elem.FitsBits, ht, if_pos rfl] at hr
    have htrunc := wrapS_trunc_iff h1 h32 hr
    have hpow : (0 : Int) < 2 ^ e.size := Int.pow_pos (by decide)
    have hnn := Int.emod_nonneg (e.wireStep n) (show (2 : Int) ^ e.size ≠ 0 by omega)
    have hub := Int.emod_lt_of_pos (e.wireStep n) hpow
    have hword := two_pow_le_word h32
    have hwrap := wrapS32_eq hnn (by omega)
    rw [unstepSigned_twos h hscale hwire ht hno.factor
      (by rw [toU32_mod_cast h32, hwrap, fits_signed]; split <;> omega), toU32_mod_cast h32,
      Option.some.injEq]
    simp only [true_implies, Bool.true_eq_false, false_implies, and_true]
    rw [← hsign, ← htrunc]
    constructor
    · intro hq
      by_contra hne
      -- not sign-extended: the quotient is not negative, the value is
      have hneg : ¬ (0 ≤ e.wireStep n ∨ e.size = 32) := fun h => hne (htrunc.mpr h)
      rw [not_or] at hneg
      have hsmall : (2 : Int) ^ e.size ≤ 2147483648 := by
        calc (2 : Int) ^ e.size ≤ 2 ^ 31 := pow_le_pow_right₀ (by decide) (by omega)
          _ = 2147483648 := by decide
      rw [hwrap, if_pos (by omega)] at hq
      have := Int.tdiv_nonneg hnn (show 0 ≤ e.factor by omega)
      have hn0 : n < 0 := by
        have := hneg.1
        rw [hsign] at this
        omega
      omega
    · intro hw
      rw [hw, hdiv]

theorem unstepUnsigned_iff (s : Bool) (h : e.Integral)
    (hscale : e.hasScale = true ↔ e.scale.toRat ≠ 1) (hsg : e.isSigned = false)
    (hno : e.NoOverflow true n) (h32 : e.size ≤ 32) (h0 : 0 ≤ e.wireStep n) :
    unstepUnsigned s e (toU32 (e.wireStep n) % 2 ^ e.size) = some n ↔
      (isMisparsed s e = false → e.wireStep n < 2 ^ e.size) ∧
        (isMisparsed s e = true → 4294967296 < e.factor + e.base ∧
          e.wireStep n % 2 ^ e.size / (e.factor + e.base - 4294967296) = n) := by
  have hb := hno.base
  have hstep := hno.step
  have hval := hno.value
  -- the pattern is at most the step
  obtain ⟨hx0, hxt⟩ := emod_two_pow_bounds e.size h0
  have hquot := h.quotient_bounds hx0 hxt
  have hx : Fits true ((toU32 (e.wireStep n) % 2 ^ e.size : Nat) : Int) := by
    rw [toU32_mod_cast h32]
    rw [fits_unsigned] at hstep ⊢
    omega
  cases hmis : isMisparsed s e with
  | false =>
    have hsum : Fits true (e.quotient (toU32 (e.wireStep n) % 2 ^ e.size : Nat)) := by
      rw [toU32_mod_cast h32]
      rw [fits_unsigned] at hb hval ⊢
      omega
    rw [unstepUnsigned_quotient h hscale hsg hmis hx hno.factor hb hsum, toU32_mod_cast h32,
      Option.some.injEq]
    simp only [true_implies, Bool.false_eq_true, false_implies, and_true]
    exact h.quotient_wireBits_iff h0
  | true =>
    obtain ⟨hread, hpos⟩ := unstepUnsigned_misparsed h hmis
      (u := toU32 (e.wireStep n) % 2 ^ e.size) hno.factor hb
    rw [toU32_mod_cast h32] at hread hx
    simp only [true_implies, Bool.true_eq_false, false_implies, true_and]
    rw [hread]
    refine div_misparsed_iff hno.factor h.factor_pos hb hpos hx ?_
    unfold Elem.quotient at hquot
    omega

/-- **When an integer leaf is read back.** -/
theorem unstep_int_iff (s : Bool) (h : e.Integral)
    (hscale : e.hasScale = true ↔ e.scale.toRat ≠ 1) (hwire : e.minWire = none ↔ e.min = none)
    (hno : e.NoOverflow (!e.isSigned) n) (h1 : 1 ≤ e.size) (h32 : e.size ≤ 32)
    (hr : StepRange e n) :
    unstep fl s e (toU32 (e.wireStep n) % 2 ^ e.size) = some (.int n) ↔ ReadsBack s e n := by
  unfold unstep
  rw [h.not_bool, h.not_enum, h.not_float, h.not_string]
  simp only [Bool.false_eq_true, if_false]
  have hint : ∀ o : Option Int, o.map Value.int = some (.int n) ↔ o = some n := by
    intro o
    cases o <;> simp
  by_cases hsg : e.isSigned = true
  · have hmis : isMisparsed s e = false := by simp [isMisparsed, hsg]
    rw [hsg] at hno
    rw [if_pos hsg, hint, unstepSigned_iff h hscale hwire hsg hno h1 h32 hr]
    constructor
    · rintro ⟨hnn, hfit⟩
      exact ⟨hnn, fun ht _ => hfit ht, fun hm => absurd hm (by rw [hmis]; decide)⟩
    · intro hrb
      exact ⟨hrb.nonneg, fun ht => hrb.fits ht hmis⟩
  · have hsg' : e.isSigned = false := by simpa using hsg
    have ht : e.isTwos = false := by rw [Elem.isTwos, hsg', Bool.false_and]
    rw [hsg'] at hno
    rw [StepRange, ht, if_neg Bool.false_ne_true] at hr
    rw [if_neg hsg, hint, unstepUnsigned_iff s h hscale hsg' hno h32 hr]
    constructor
    · rintro ⟨hfit, hmis⟩
      exact ⟨fun htt => absurd htt (by rw [ht]; decide), fun _ => hfit, hmis⟩
    · intro hrb
      exact ⟨hrb.fits ht, hrb.misparsed⟩

end ReadBack

end ProtoEmb.Codec.Rust
