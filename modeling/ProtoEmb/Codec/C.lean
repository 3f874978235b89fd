import ProtoEmb.Codec.Packed
import ProtoEmb.Codec.Step

/-!
# The packed codec in C

`pack_bits`, `unpack_bits`, `sign_extend` and the leaf expressions of `protocol.c.j2`,
with the struct member types of `protocol.h.j2`. Bit offsets are `uint32_t` and wrap. A
shift by 32 or more, a signed overflow, a division by zero and an access outside an
array are undefined behaviour, `none`; so is an expression that does not compile, such
as a `char` array in arithmetic.

An expression with a `float` member or a floating-point literal is evaluated by the
parameter `fl`, about which nothing is assumed.

* `lang_lawful`: the helpers do what the generic codec needs.
* `step_int`: the value an integer is packed from.
* `unstep_int`: an integer that fits its bits is read back.
-/

namespace ProtoEmb.Codec.C

open ProtoEmb.Lib ProtoEmb.Schema

/-! ## Helpers -/

/-- One iteration of `pack_bits`. -/
def packBit (off value : Nat) (buf : List UInt8) (i : Nat) : Option (List UInt8) :=
  if 32 ≤ i then none
  else if value.testBit i then
    let p := (off + i) % 4294967296
    if p / 8 < buf.length then some (setBit buf p) else none
  else some buf

def packBits (buf : List UInt8) (off bits value : Nat) : Option (List UInt8) :=
  (List.range bits).foldlM (packBit off value) buf

/-- One iteration of `unpack_bits`. -/
def unpackBit (buf : List UInt8) (off : Nat) (value i : Nat) : Option Nat :=
  let p := (off + i) % 4294967296
  if p / 8 < buf.length then
    if bitAt buf p then if 32 ≤ i then none else some (value ||| 2 ^ i) else some value
  else none

def unpackBits (buf : List UInt8) (off bits : Nat) : Option Nat :=
  (List.range bits).foldlM (unpackBit buf off) 0

/-- The width that `pack_bits` and `unpack_bits` have for a number of the schema: their
parameter is a `uint32_t`. -/
def widthArg (bits : Int) : Nat := toU32 bits

/-- A negative width is a huge one. -/
theorem widthArg_negative {bits : Int} (hmin : -2147483648 ≤ bits) (h : bits < 0) :
    2147483648 ≤ widthArg bits := by
  unfold widthArg toU32
  omega

def signExtend (value bits : Nat) : Option Int :=
  if 32 ≤ bits then some (wrapS 32 value)
  else if bits = 0 then none
  else
    let signBit := 2 ^ (bits - 1)
    if value &&& signBit ≠ 0 then some (wrapS 32 ↑(value ||| (4294967296 - 2 ^ bits)))
    else some (wrapS 32 value)

/-! ## Members -/

/-- The width of a numeric member's type, and whether it is unsigned. -/
def memberType (type : String) : Nat × Bool :=
  if type = "uint8" then (8, true)
  else if type = "int8" then (8, false)
  else if type = "uint16" then (16, true)
  else if type = "int16" then (16, false)
  else if type = "uint32" then (32, true)
  else (32, false)

/-- The value is one of the member's type. -/
def MemberFits (type : String) (n : Int) : Prop :=
  if (memberType type).2 then 0 ≤ n ∧ n < 2 ^ (memberType type).1
  else -2 ^ ((memberType type).1 - 1) ≤ n ∧ n < 2 ^ ((memberType type).1 - 1)

instance (type : String) (n : Int) : Decidable (MemberFits type n) := by
  unfold MemberFits
  cases (memberType type).2 <;> infer_instance

/-- Assignment to the member. -/
def assign (type : String) (n : Int) : Int :=
  if (memberType type).2 then wrapU (memberType type).1 n else wrapS (memberType type).1 n

/-- Arithmetic on the member is done in `uint32_t` or, after promotion, in `int`. -/
def isUnsigned (type : String) : Bool := type = "uint32"

/-- The member as an operand. -/
def operand (type : String) (n : Int) : Option CInt :=
  if MemberFits type n then some ⟨if isUnsigned type then .uint else .int, n⟩ else none

/-! ## Leaves -/

/-- Expressions in floating-point arithmetic: the packed ones, and the scaled ones of the
aligned codec. -/
structure FloatExprs where
  step : Elem → Value → Option Nat
  unstep : Elem → Nat → Option Value
  scaled : Elem → Value → Option Nat
  unscaled : Elem → Nat → Option Value

/-- For a schema without such expressions. -/
def noFloats : FloatExprs :=
  ⟨fun _ _ => none, fun _ _ => none, fun _ _ => none, fun _ _ => none⟩

variable (fl : FloatExprs)

/-- `(uint32_t)(val - min_wire)`, `(uint32_t)((val - min) * scale)` and so on. -/
def stepInt (e : Elem) (n : Int) : Option Nat := do
  let val ← operand e.type n
  if e.rawStorage then
    match e.minWire with
    | some m => do
      let d ← CInt.op (· - ·) val (← CInt.lit m)
      return toU32 d.val
    | none => return toU32 n
  else
    match e.packedMin with
    -- `(val - min) * scale`, each operation in the type of the promoted operands
    | some m => do
      let d ← CInt.op (· - ·) val (← CInt.lit m.toInt)
      let s ← CInt.op (· * ·) d (← CInt.lit e.scale.toInt)
      return toU32 s.val
    -- the scale is printed even if it is 1
    | none => do
      let s ← CInt.op (· * ·) val (← CInt.lit e.scale.toInt)
      return toU32 s.val

/-- The value argument of `pack_bits`. Array elements, optional values and variants go
through `c_pack_leaf`, fields through the same expressions inline. -/
def step (_scalar : Bool) (e : Elem) (v : Value) : Option Nat :=
  if e.isBool then
    match v with
    | .bool b => some (if b then 1 else 0)
    | _ => none
  else if e.isEnum then
    match v, e.enum with
    -- a remap enum sends its index, any other enum its constant
    | .enum c, some t => if t.isRemap then valueToWire t c else some (toU32 c)
    | _, _ => none
  else if e.isString then none
  else if e.isFloatExpr then fl.step e v
  else
    match v with
    | .int n => stepInt e n
    | _ => none

/-- `(int32_t)wire + min_wire`, `(int32_t)wire / scale + min` and so on. -/
def unstepInt (e : Elem) (u : Nat) : Option Int := do
  if e.rawStorage then
    match e.minWire with
    | some m => do
      let r ← CInt.op (· + ·) ⟨.int, wrapS 32 u⟩ (← CInt.lit m)
      return assign e.type r.val
    | none => return assign e.type (wrapS 32 u)
  else if e.isSigned then
    match e.min with
    -- offset binary: the minimum makes the wire unsigned
    | some m => do
      let q ← CInt.div ⟨.int, wrapS 32 u⟩ (← CInt.lit e.scale.toInt)
      let r ← CInt.op (· + ·) q (← CInt.lit m.toInt)
      return assign e.type r.val
    -- two's complement
    | none => do
      let s ← signExtend u e.size
      let q ← CInt.div ⟨.int, s⟩ (← CInt.lit e.scale.toInt)
      return assign e.type q.val
  else
    let q ← CInt.div ⟨.uint, u⟩ (← CInt.lit e.scale.toInt)
    match e.packedMin with
    | some m => do
      let r ← CInt.op (· + ·) q (← CInt.lit m.toInt)
      return assign e.type r.val
    | none => return assign e.type q.val

/-- The leaf, from the result of `unpack_bits`. -/
def unstep (_scalar : Bool) (e : Elem) (u : Nat) : Option Value :=
  if e.isBool then some (.bool (u ≠ 0))
  else if e.isEnum then
    match e.enum with
    | some t => if t.isRemap then (wireToValue t u).map .enum else some (.enum u)
    | none => none
  else if e.isString then none
  else if e.isFloatExpr then fl.unstep e u
  else (unstepInt e u).map .int

/-- The packed codec of `protocol.c.j2`. A tag without a variant is kept, with no member
of the union set. -/
def lang : PackLang where
  literal off := some (off % 4294967296)
  add base off := some ((base + off % 4294967296) % 4294967296)
  packBits := packBits
  unpackBits := unpackBits
  step := step fl
  unstep := unstep fl
  unknownTag _ tag := some (.union tag .absent)

variable {fl}

theorem packBits_eq {buf : List UInt8} {off bits : Nat} (x : Nat) (hbits : bits ≤ 32)
    (hlim : off + bits ≤ 4294967296) (hbuf : off + bits ≤ 8 * buf.length) :
    packBits buf off bits x = some (orBits buf off (natBits bits x)) := by
  refine packLoop_eq bits fun buf' i hi hlen => ?_
  have hmod : (off + i) % 4294967296 = off + i := Nat.mod_eq_of_lt (by omega)
  have hin : (off + i) / 8 < buf'.length := by omega
  unfold packBit
  rw [if_neg (by omega)]
  split
  · simp only [hmod, if_pos hin]
  · rfl

theorem unpackBits_eq {buf : List UInt8} {off bits : Nat} (hbits : bits ≤ 32)
    (hlim : off + bits ≤ 4294967296) (hbuf : off + bits ≤ 8 * buf.length) :
    unpackBits buf off bits = some (ofBits (bitsAt buf off bits)) := by
  refine unpackLoop_eq bits fun v i hi => ?_
  have hmod : (off + i) % 4294967296 = off + i := Nat.mod_eq_of_lt (by omega)
  have hin : (off + i) / 8 < buf.length := by omega
  have hi32 : ¬ 32 ≤ i := by omega
  unfold unpackBit
  simp only [hmod, if_pos hin, if_neg hi32]
  split <;> rfl

theorem lang_lawful : (lang fl).Lawful where
  literal_eq off := by
    show some _ = some _
    rw [Nat.zero_add, Nat.mod_mod]
  add_eq {base off} h := by
    show some ((base + off % 4294967296) % 4294967296) = _
    rw [Nat.mod_eq_of_lt (show off < 4294967296 by omega), Nat.mod_eq_of_lt h]
  packBits_eq x hbits hlim hbuf := packBits_eq x hbits hlim.le hbuf
  unpackBits_eq hbits hlim hbuf := unpackBits_eq hbits hlim.le hbuf

/-! ## Integer leaves -/

section Int

variable {e : Elem} {n : Int}

theorem operand_is (hf : MemberFits e.type n) (hv : Fits (isUnsigned e.type) n) :
    ∃ a, operand e.type n = some a ∧ a.Is (isUnsigned e.type) n := by
  refine ⟨_, if_pos hf, rfl, hv, Or.inr ?_⟩
  cases isUnsigned e.type <;> rfl

/-- The step is computed exactly. -/
theorem stepInt_eq (h : e.Integral) (hf : MemberFits e.type n)
    (hno : e.NoOverflow (isUnsigned e.type) n) : stepInt e n = some (toU32 (e.wireStep n)) := by
  obtain ⟨val, hval, his⟩ := operand_is hf hno.value
  obtain ⟨k, hk, hpos⟩ := h.scale_int
  unfold stepInt
  rw [hval, Option.bind_eq_bind, Option.bind_some]
  by_cases hraw : e.rawStorage = true
  · rw [if_pos hraw]
    have hbase : e.base = e.minWire.getD 0 := if_pos hraw
    have hstep : e.wireStep n = n - e.minWire.getD 0 := by
      rw [Elem.wireStep, hbase, Elem.factor, if_pos hraw, Int.mul_one]
    cases hm : e.minWire with
    | none => simp [hstep, hm]
    | some m =>
      have hbm : e.base = m := by rw [hbase, hm]; rfl
      obtain ⟨b, hb, hlit⟩ := CInt.lit_is (hbm ▸ hno.base)
      obtain ⟨d, hd, hdis⟩ := CInt.op_exact (f := (· - ·)) his hlit (hbm ▸ hno.diff)
      simp only [hb, hd, Option.bind_some, Option.pure_def, hdis.1, hstep, hm, Option.getD_some]
  · rw [if_neg hraw]
    have hfac : e.factor = k := by rw [Elem.factor, if_neg hraw, hk]; rfl
    obtain ⟨c, hc, hclit⟩ := CInt.lit_is (hfac ▸ hno.factor)
    rcases h.packedMin_cases (by simpa using hraw) with ⟨hp, hb0⟩ | ⟨m, hp, hbm⟩
    · have hstep : e.wireStep n = n * k := by rw [Elem.wireStep, hb0, hfac, Int.sub_zero]
      obtain ⟨s, hs, hsis⟩ := CInt.op_exact (f := (· * ·)) his hclit (hstep ▸ hno.step)
      simp only [hp, hk, Num.toInt, hc, hs, Option.bind_some, Option.pure_def, hsis.1, hstep]
    · have hstep : e.wireStep n = (n - m) * k := by rw [Elem.wireStep, hbm, hfac]
      obtain ⟨b, hb, hlit⟩ := CInt.lit_is (hbm ▸ hno.base)
      obtain ⟨d, hd, hdis⟩ := CInt.op_exact (f := (· - ·)) his hlit (hbm ▸ hno.diff)
      obtain ⟨s, hs, hsis⟩ := CInt.op_exact (f := (· * ·)) hdis hclit (hstep ▸ hno.step)
      simp only [hp, hk, Num.toInt, hb, hd, hc, hs, Option.bind_some, Option.pure_def, hsis.1,
        hstep]

/-- A step that is defined at all is the exact one modulo `2 ^ 32`. -/
theorem stepInt_val {x : Nat} (h : stepInt e n = some x) : x = toU32 (e.wireStep n) := by
  have hsub : ∀ a b : Int, (a % 4294967296 - b % 4294967296) % 4294967296
      = (a - b) % 4294967296 := fun a b => (Int.sub_emod a b _).symm
  have hmul : ∀ a b : Int, a % 4294967296 * (b % 4294967296) % 4294967296
      = a * b % 4294967296 := fun a b => (Int.mul_emod a b _).symm
  simp only [stepInt, Option.bind_eq_bind, Option.bind_eq_some_iff] at h
  obtain ⟨val, hval, h⟩ := h
  have hv : val.val = n := by
    unfold operand at hval
    split at hval
    · cases hval
      rfl
    · cases hval
  unfold Elem.wireStep Elem.base Elem.factor
  split at h
  next hraw =>
    rw [if_pos hraw, if_pos hraw, Int.mul_one]
    split at h
    next m hm =>
      simp only [Option.bind_eq_some_iff, Option.pure_def, Option.some.injEq] at h
      obtain ⟨b, hb, d, hd, rfl⟩ := h
      have hdv := CInt.op_emod hsub hd
      rw [hv, CInt.lit_val hb] at hdv
      rw [hm]
      exact toU32_congr hdv
    next hm =>
      cases h
      rw [hm]
      simp
  next hraw =>
    rw [if_neg hraw, if_neg hraw]
    split at h
    next m hm =>
      simp only [Option.bind_eq_some_iff, Option.pure_def, Option.some.injEq] at h
      obtain ⟨b, hb, d, hd, k, hk, s, hs, rfl⟩ := h
      have hdv := CInt.op_emod hsub hd
      have hsv := CInt.op_emod hmul hs
      rw [hv, CInt.lit_val hb] at hdv
      rw [CInt.lit_val hk, Int.mul_emod, hdv, ← Int.mul_emod] at hsv
      rw [hm]
      exact toU32_congr hsv
    next hm =>
      simp only [Option.bind_eq_some_iff, Option.pure_def, Option.some.injEq] at h
      obtain ⟨k, hk, s, hs, rfl⟩ := h
      have hsv := CInt.op_emod hmul hs
      rw [hv, CInt.lit_val hk] at hsv
      rw [hm]
      simpa using toU32_congr hsv

theorem step_int (s : Bool) (h : e.Integral) (hf : MemberFits e.type n)
    (hno : e.NoOverflow (isUnsigned e.type) n) :
    step fl s e (.int n) = some (toU32 (e.wireStep n)) := by
  unfold step
  rw [h.not_bool, h.not_enum, h.not_string, h.not_floatExpr]
  exact stepInt_eq h hf hno

end Int

/-! ## Reading integers back -/

/-- `sign_extend` undoes the truncation of a number that fits its bits. -/
theorem signExtend_eq {s : Int} {bits : Nat} (h1 : 1 ≤ bits) (h32 : bits ≤ 32)
    (hs : -2 ^ (bits - 1) ≤ s ∧ s < 2 ^ (bits - 1)) :
    signExtend (toU32 s % 2 ^ bits) bits = some s := by
  unfold signExtend
  by_cases hfull : 32 ≤ bits
  · have hb : bits = 32 := by omega
    subst hb
    rw [if_pos hfull, Nat.mod_eq_of_lt (show toU32 s < 2 ^ 32 from toU32_lt s), wrapS_toU32 hs]
  · rw [if_neg hfull, if_neg (by omega)]
    obtain ⟨k, rfl⟩ : ∃ k, bits = k + 1 := ⟨bits - 1, by omega⟩
    rw [Nat.add_sub_cancel] at hs ⊢
    -- the pattern, and the pattern with its upper bits set
    have hpow : (2 : Int) ^ (k + 1) = 2 * 2 ^ k := by rw [pow_succ]; ring
    have hk : (0 : Int) < 2 ^ k := by positivity
    have hle : (2 : Int) ^ (k + 1) ≤ 2147483648 := by
      calc (2 : Int) ^ (k + 1) ≤ 2 ^ 31 := pow_le_pow_right₀ (by norm_num) (by omega)
        _ = 2147483648 := by norm_num
    set r := toU32 s % 2 ^ (k + 1) with hr
    have hrval : (r : Int) = s % 2 ^ (k + 1) := toU32_mod_cast h32 s
    have hrlt : r < 2 ^ (k + 1) := Nat.mod_lt _ (Nat.two_pow_pos _)
    have hbit := and_two_pow_ne_zero_iff hrlt
    have hcast : ((2 ^ k : Nat) : Int) = 2 ^ k := by push_cast; rfl
    by_cases hneg : s < 0
    · have hrs : (r : Int) = s + 2 ^ (k + 1) := by
        rw [hrval, ← Int.add_emod_right, Int.emod_eq_of_lt (by omega) (by omega)]
      have hge : 2 ^ k ≤ r := by
        have : ((2 ^ k : Nat) : Int) ≤ r := by rw [hcast, hrs, hpow]; omega
        exact_mod_cast this
      simp only
      rw [if_pos (hbit.mpr hge)]
      have hor : ((r ||| (4294967296 - 2 ^ (k + 1)) : Nat) : Int) = 4294967296 + s := by
        have hupper : 4294967296 - 2 ^ (k + 1) = 2 ^ (k + 1) * (2 ^ (31 - k) - 1) := by
          rw [Nat.mul_sub, ← Nat.pow_add, show k + 1 + (31 - k) = 32 by omega, Nat.mul_one]
        rw [Nat.lor_comm, hupper, ← Nat.two_pow_add_eq_or_of_lt hrlt, ← hupper]
        have hnat : (2 : Nat) ^ (k + 1) ≤ 4294967296 := by
          calc (2 : Nat) ^ (k + 1) ≤ 2 ^ 32 := Nat.pow_le_pow_right (by decide) (by omega)
            _ = 4294967296 := by norm_num
        have hc : ((2 ^ (k + 1) : Nat) : Int) = 2 ^ (k + 1) := by push_cast; rfl
        rw [Nat.cast_add, Nat.cast_sub hnat, hc, hrs]
        norm_num
      rw [hor, wrapS32_eq (by omega) (by omega), if_neg (by omega)]
      congr 1
      omega
    · have hrs : (r : Int) = s := by
        rw [hrval, Int.emod_eq_of_lt (by omega) (by omega)]
      have hlt : ¬ r &&& 2 ^ k ≠ 0 := by
        rw [hbit]
        intro hge
        have : ((2 ^ k : Nat) : Int) ≤ r := by exact_mod_cast hge
        rw [hcast, hrs] at this
        omega
      simp only
      rw [if_neg hlt, hrs, wrapS32_eq (by omega) (by omega), if_pos (by omega)]

/-- A number that fits its bits unsigned is not truncated. -/
theorem toU32_mod_of_fits {s : Int} {bits : Nat} (h32 : bits ≤ 32)
    (hs : 0 ≤ s ∧ s < 2 ^ bits) : ((toU32 s % 2 ^ bits : Nat) : Int) = s := by
  rw [toU32_mod_cast h32, Int.emod_eq_of_lt hs.1 hs.2]

theorem memberType_cases (type : String) : memberType type = (8, true) ∨
    memberType type = (8, false) ∨ memberType type = (16, true) ∨ memberType type = (16, false) ∨
      memberType type = (32, true) ∨ memberType type = (32, false) := by
  unfold memberType
  repeat' split
  all_goals simp

/-- Assignment sees a number modulo `2 ^ 32` at the most. -/
theorem assign_congr {type : String} {x y : Int} (h : x % 4294967296 = y % 4294967296) :
    assign type x = assign type y := by
  unfold assign
  rcases memberType_cases type with hm | hm | hm | hm | hm | hm <;> rw [hm] <;>
    simp only [Bool.false_eq_true, if_false, if_true, wrapU, wrapS,
      Nat.reduceSub, Int.reducePow] <;>
    omega

/-- Assignment keeps exactly the values of the member's type. -/
theorem assign_eq_self_iff {type : String} {n : Int} : assign type n = n ↔ MemberFits type n := by
  unfold assign MemberFits
  rcases memberType_cases type with hm | hm | hm | hm | hm | hm <;> rw [hm] <;>
    simp only [Bool.false_eq_true, if_false, if_true, wrapU, wrapS,
      Nat.reduceSub, Int.reducePow] <;>
    omega

/-- Assignment takes a value of the member's type from any number congruent to it. -/
theorem assign_eq {type : String} {x n : Int} (hf : MemberFits type n)
    (h : x % 4294967296 = n % 4294967296) : assign type x = n :=
  (assign_congr h).trans (assign_eq_self_iff.mpr hf)

section ReadBack

variable {e : Elem} {n : Int}

/-- No addition of the decoder overflows `int`: the stored integer of a raw leaf is
`(int32_t)wire + min_wire`. -/
def RawSumFits (e : Elem) (n : Int) : Prop :=
  e.rawStorage = true → Fits false e.base →
    Fits false (wrapS 32 (toU32 (e.wireStep n)) + e.base)

/-- A base that is a literal is a word, of either kind. -/
theorem base_word {u : Bool} (hb : Fits u e.base) :
    -4294967296 < e.base ∧ e.base < 4294967296 := by
  cases u with
  | false => rw [fits_signed] at hb; omega
  | true => rw [fits_unsigned] at hb; omega

/-- `(int32_t)wire + min_wire`: a wire value from `2 ^ 31` on turns negative, and the assignment
to the member brings the sum back. -/
theorem unstepInt_raw (hf : MemberFits e.type n) (hno : e.NoOverflow (isUnsigned e.type) n)
    (hraw : e.rawStorage = true) (hmin : e.min ≠ none) (hwire : e.minWire = none → e.min = none)
    (hsum : RawSumFits e n) (h32 : e.size ≤ 32) (hfit : e.FitsBits (e.wireStep n)) :
    unstepInt e (toU32 (e.wireStep n) % 2 ^ e.size) = some n := by
  have hbase := base_word hno.base
  unfold unstepInt
  have hsome : e.min.isSome = true := Option.isSome_iff_ne_none.mpr hmin
  have htwos : e.isTwos = false := by
    rw [Elem.isTwos, Option.isNone_eq_false_iff.mpr hsome, Bool.and_false]
  rw [Elem.FitsBits, htwos, if_neg Bool.false_ne_true] at hfit
  have hu := toU32_mod_of_fits h32 hfit
  have hstep : e.wireStep n = n - e.base := by
    rw [Elem.wireStep, Elem.factor, if_pos hraw, Int.mul_one]
  have hwrap : wrapS 32 ((toU32 (e.wireStep n) % 2 ^ e.size : Nat) : Int)
      = wrapS 32 (toU32 (e.wireStep n)) := by
    have hle := two_pow_le_word h32
    rw [hu, toU32_of_nonneg hfit.1 (by omega), Int.toNat_of_nonneg hfit.1]
  rw [if_pos hraw, hwrap]
  cases hm : e.minWire with
  | none => exact absurd (hwire hm) hmin
  | some m =>
    have hbm : e.base = m := by rw [Elem.base, if_pos hraw, hm]; rfl
    obtain ⟨b, hb, _⟩ := CInt.lit_is (hbm ▸ hno.base)
    have hx : Fits false (wrapS 32 (toU32 (e.wireStep n))) := by
      have := toU32_lt (e.wireStep n)
      rw [wrapS32_eq (by omega) (by omega), fits_signed]
      split <;> omega
    obtain ⟨c, hc, hcv⟩ := CInt.int_add hx hb (hbm ▸ hsum hraw) (hbm ▸ hbase)
    simp only [hb, hc, Option.bind_eq_bind, Option.bind_some, Option.pure_def, hcv]
    rw [assign_eq hf]
    have hlt := toU32_lt (e.wireStep n)
    have hcongr : (toU32 (e.wireStep n) : Int) = (n - m) % 4294967296 := by
      rw [toU32, Int.toNat_of_nonneg (by omega), hstep, hbm]
    rw [wrapS32_eq (by omega) (by omega)]
    split <;> omega

/-- `(int32_t)wire / scale + min` in offset binary, on any wire value. -/
theorem unstepInt_offset (h : e.Integral) (hsg : e.isSigned = true) (hraw : e.rawStorage = false)
    (htwos : e.isTwos = false) {u : Nat} (hu : Fits false u) (hk : Fits false e.factor)
    (hb : Fits false e.base) (hsum : Fits false (e.quotient u)) :
    unstepInt e u = some (assign e.type (e.quotient u)) := by
  obtain ⟨k, hscale, hpos⟩ := h.scale_int
  have hfac : e.factor = k := by rw [Elem.factor, hraw, if_neg Bool.false_ne_true, hscale]; rfl
  have hpm : e.packedMin = e.min := if_pos hsg
  rcases h.packedMin_cases hraw with ⟨hp, -⟩ | ⟨m, hp, hbm⟩
  · -- without a `min` the leaf is in two's complement
    rw [hpm] at hp
    simp [Elem.isTwos, hsg, hp] at htwos
  · rw [hpm] at hp
    have hquot : (u : Int).tdiv k + m = e.quotient u := by
      rw [Elem.quotient, hfac, hbm, Int.tdiv_eq_ediv_of_nonneg (Int.natCast_nonneg u)]
    have hword := hu
    rw [fits_signed] at hword
    obtain ⟨c, hc, hclit⟩ := CInt.lit_is (hfac ▸ hk)
    obtain ⟨b, hb, hblit⟩ := CInt.lit_is (hbm ▸ hb)
    obtain ⟨q, hq, hqis⟩ := CInt.div_exact (u := false) (a := ⟨.int, u⟩) ⟨rfl, hu, Or.inr rfl⟩
      hclit (by omega) (fits_tdiv hu hpos)
    obtain ⟨r, hr, hris⟩ := CInt.op_exact (f := (· + ·)) hqis hblit (by rw [hquot]; exact hsum)
    unfold unstepInt
    rw [hraw, if_neg Bool.false_ne_true, if_pos hsg, wrapS32_eq (by omega) (by omega),
      if_pos hword.2]
    simp only [hp, hscale, Num.toInt, hc, hq, hb, hr, Option.bind_eq_bind, Option.bind_some,
      Option.pure_def, hris.1, hquot]

/-- `sign_extend(wire) / scale` in two's complement, `(int32_t)wire / scale + min` in offset
binary. -/
theorem unstepInt_signed (h : e.Integral) (hsg : e.isSigned = true)
    (htype : isUnsigned e.type = false) (hf : MemberFits e.type n)
    (hno : e.NoOverflow (isUnsigned e.type) n) (hraw : e.rawStorage = false) (h1 : 1 ≤ e.size)
    (h32 : e.size ≤ 32) (hfit : e.FitsBits (e.wireStep n)) :
    unstepInt e (toU32 (e.wireStep n) % 2 ^ e.size) = some n := by
  rw [htype] at hno
  cases htwos : e.isTwos with
  | true =>
    obtain ⟨k, hk, hpos⟩ := h.scale_int
    have hfac : e.factor = k := by rw [Elem.factor, hraw, if_neg Bool.false_ne_true, hk]; rfl
    have hdiv := h.wireStep_div n
    rw [hfac] at hdiv
    have hp : e.min = none := by
      simpa [Elem.isTwos, hsg] using htwos
    have hb0 : e.base = 0 := by simp [Elem.base, hraw, Elem.packedMin, hsg, hp]
    rw [Elem.FitsBits, htwos, if_pos rfl] at hfit
    have hn : Fits false ((e.wireStep n).tdiv k) := by rw [hdiv]; exact hno.diff
    obtain ⟨c, hc, hclit⟩ := CInt.lit_is (hfac ▸ hno.factor)
    obtain ⟨q, hq, hqis⟩ := CInt.div_exact (u := false) (a := ⟨.int, e.wireStep n⟩)
      ⟨rfl, hno.step, Or.inr rfl⟩ hclit (by omega) hn
    unfold unstepInt
    rw [hraw, if_neg Bool.false_ne_true, if_pos hsg]
    simp only [hk, Num.toInt, hp, signExtend_eq h1 h32 hfit, hc, hq, Option.bind_eq_bind,
      Option.bind_some, Option.pure_def, hqis.1, hdiv, hb0, Int.sub_zero]
    rw [assign_eq hf rfl]
  | false =>
    rw [Elem.FitsBits, htwos, if_neg Bool.false_ne_true] at hfit
    have hu := toU32_mod_of_fits h32 hfit
    rw [unstepInt_offset h hsg hraw htwos (by rw [hu]; exact hno.step) hno.factor hno.base
      (by rw [hu, h.quotient_wireStep]; exact hno.value), hu, h.quotient_wireStep, assign_eq hf rfl]

/-- `wire / scale + min` in unsigned arithmetic, on any wire value; the sum may come round. -/
theorem unstepInt_unsigned (h : e.Integral) (hsg : e.isSigned = false)
    (hraw : e.rawStorage = false) {u : Nat} (hu : Fits true u) (hk : Fits true e.factor)
    {w : Bool} (hb : Fits w e.base) : unstepInt e u = some (assign e.type (e.quotient u)) := by
  obtain ⟨k, hscale, hpos⟩ := h.scale_int
  have hfac : e.factor = k := by rw [Elem.factor, hraw, if_neg Bool.false_ne_true, hscale]; rfl
  have hdiv : (u : Int).tdiv k = u / e.factor := by
    rw [hfac, Int.tdiv_eq_ediv_of_nonneg (Int.natCast_nonneg u)]
  obtain ⟨c, hc, hclit⟩ := CInt.lit_is (hfac ▸ hk)
  obtain ⟨q, hq, hqis⟩ := CInt.div_exact (u := true) (a := ⟨.uint, u⟩) ⟨rfl, hu, Or.inr rfl⟩
    hclit (by omega) (fits_tdiv hu hpos)
  unfold unstepInt
  rw [hraw, hsg, if_neg Bool.false_ne_true, if_neg Bool.false_ne_true]
  simp only [hscale, Num.toInt, hc, hq, Option.bind_eq_bind, Option.bind_some]
  rcases h.packedMin_cases hraw with ⟨hp, hb0⟩ | ⟨m, hp, hbm⟩
  · simp only [hp, Option.pure_def, hqis.1, hdiv, Elem.quotient, hb0, Int.add_zero]
  · obtain ⟨b, hlit, -⟩ := CInt.lit_is (hbm ▸ hb)
    obtain ⟨r, hr, hrv⟩ := CInt.add_mod hqis hlit (hbm ▸ base_word hb)
    rw [hdiv, ← hbm] at hrv
    simp only [hp, hlit, hr, Option.bind_some, Option.pure_def]
    rw [assign_congr hrv, Elem.quotient]

/-- **An integer leaf whose step fits its bits is read back.** -/
theorem unstepInt_eq (h : e.Integral) (htype : e.isSigned = true → isUnsigned e.type = false)
    (hf : MemberFits e.type n) (hno : e.NoOverflow (isUnsigned e.type) n)
    (hmin : e.rawStorage = true → e.min ≠ none) (hwire : e.minWire = none → e.min = none)
    (hsum : RawSumFits e n) (h1 : 1 ≤ e.size) (h32 : e.size ≤ 32)
    (hfit : e.FitsBits (e.wireStep n)) :
    unstepInt e (toU32 (e.wireStep n) % 2 ^ e.size) = some n := by
  cases hraw : e.rawStorage with
  | true => exact unstepInt_raw hf hno hraw (hmin hraw) hwire hsum h32 hfit
  | false =>
    cases hsg : e.isSigned with
    | true => exact unstepInt_signed h hsg (htype hsg) hf hno hraw h1 h32 hfit
    | false =>
      have htwos : e.isTwos = false := by rw [Elem.isTwos, hsg, Bool.false_and]
      rw [Elem.FitsBits, htwos, if_neg Bool.false_ne_true] at hfit
      have hu := toU32_mod_of_fits h32 hfit
      have hle := two_pow_le_word h32
      have hk : Fits true e.factor := by
        have hpos := h.factor_pos
        have hword := hno.factor
        rw [fits_unsigned]
        cases hu : isUnsigned e.type with
        | false => rw [hu, fits_signed] at hword; omega
        | true => rw [hu, fits_unsigned] at hword; omega
      rw [unstepInt_unsigned h hsg hraw (by rw [hu, fits_unsigned]; omega) hk hno.base, hu,
        h.quotient_wireStep, assign_eq hf rfl]

theorem unstep_int (s : Bool) (h : e.Integral)
    (htype : e.isSigned = true → isUnsigned e.type = false) (hf : MemberFits e.type n)
    (hno : e.NoOverflow (isUnsigned e.type) n) (hmin : e.rawStorage = true → e.min ≠ none)
    (hwire : e.minWire = none → e.min = none) (hsum : RawSumFits e n)
    (h1 : 1 ≤ e.size) (h32 : e.size ≤ 32)
    (hfit : e.FitsBits (e.wireStep n)) :
    unstep fl s e (toU32 (e.wireStep n) % 2 ^ e.size) = some (.int n) := by
  unfold unstep
  rw [h.not_bool, h.not_enum, h.not_string, h.not_floatExpr]
  show (unstepInt e _).map Value.int = _
  rw [unstepInt_eq h htype hf hno hmin hwire hsum h1 h32 hfit]
  rfl

end ReadBack

end ProtoEmb.Codec.C
