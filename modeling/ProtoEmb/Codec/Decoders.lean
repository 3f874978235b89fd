import ProtoEmb.Codec.RoundTrip

/-!
# The packed decoders side by side

All three decoders read the same bytes (`*_unpack` in `protocol.c.j2`, `unpack_from` in
`protocol.rs.j2`, `unpack*From` in `protocol.ts.j2`). C extends the sign of a two's complement
field, and its tables of a remap enum hold bytes. Rust and TypeScript do not extend signs, Rust
misparses the quotient of a scaled scalar, and TypeScript divides in doubles, so the three agree
on one logical value exactly if no leaf is affected (`packed_decoders_agree_iff`).

An explicit `bits` may be too small for the range, and then a step is cut. The value that comes
back is another one, and may still be the same in all three languages.
-/

namespace ProtoEmb.Codec

open ProtoEmb.Lib ProtoEmb.Schema

section Leaf

variable {rnd js : Rat → Rat} {ctx : Context} {e : Elem} {v : Value} {n i : Int}

/-- A `uint32` field is not signed. -/
theorem signed_not_uint32 {isPacked : Bool} (hl : e.Leaf rnd ctx isPacked)
    (h : e.isSigned = true) : C.isUnsigned e.type = false := by
  rw [hl.signed_eq] at h
  unfold C.isUnsigned
  by_contra hne
  have htype : e.type = "uint32" := by simpa using hne
  rw [htype] at h
  exact absurd h (by decide)

/-- The integer leaves that C reads back: the step fits the leaf's bits, and a leaf that
stores the scaled integer has a `min`. -/
structure CReads (e : Elem) (n : Int) : Prop where
  size_pos : 1 ≤ e.size
  fits : e.FitsBits (e.wireStep n)
  raw_min : e.rawStorage = true → e.min ≠ none
  raw_sum : C.RawSumFits e n

/-- **C reads every leaf back.** -/
theorem c_readBack {fl : C.FloatExprs} (s : Bool) (hl : e.Leaf rnd ctx true)
    (hctx : ctx.EnumsLaid) (h32 : e.size ≤ 32) (h : Supported e v)
    (hint : ∀ n, v = .int n → CReads e n) :
    (C.lang fl).readBack wireStep s e v = toCLeaf s e v := by
  show C.unstep fl s e (wireStep s e v % 2 ^ e.size) = toCLeaf s e v
  cases h with
  | bool b hb =>
    rw [bool_step_mod hl hb]
    cases b <;> simp [C.unstep, hb, toCLeaf]
  | enum i hi hd =>
    obtain ⟨t, ht, hlaid, h0, hlt, h256, _⟩ := hi.laid hl hctx
    obtain ⟨hidx, hc⟩ := constant_eq hlaid h0 hlt
    rw [hi.step_mod hl hctx, toCLeaf, ht, Option.bind_some, hc]
    by_cases hr : t.isRemap = true
    · simp [C.unstep, hi.not_bool, hi.is_enum, ht, hr, wireToValue_index (hd t ht hr) hidx]
    · simp [C.unstep, hi.not_bool, hi.is_enum, ht, hr, Int.toNat_of_nonneg h0]
  | int n hn =>
    have hreads := hint n rfl
    exact C.unstep_int s hn.integral (signed_not_uint32 hl) hn.member hn.c_exact hreads.raw_min
      (minWire_none_iff hl).mp hreads.raw_sum hreads.size_pos h32 hreads.fits

/-- The step of a leaf that fits, as the decoder sees it. -/
theorem step_mod_of_nonneg (h32 : e.size ≤ 32) (h1 : 1 ≤ e.size)
    (hfit : e.FitsBits (e.wireStep n)) (h0 : 0 ≤ e.wireStep n) :
    ((toU32 (e.wireStep n) % 2 ^ e.size : Nat) : Int) = e.wireStep n := by
  apply C.toU32_mod_of_fits h32
  unfold Elem.FitsBits at hfit
  split at hfit
  · have hpow : (2 : Int) ^ (e.size - 1) ≤ 2 ^ e.size :=
      pow_le_pow_right₀ (by norm_num) (by omega)
    exact ⟨h0, by omega⟩
  · exact hfit

/-- **When TypeScript reads an integer leaf back.** -/
theorem ts_readBack_int_iff (hjs : TypeScript.RoundsDouble js) (s : Bool) (h32 : e.size ≤ 32)
    (hn : IntLeaf e n) (hraw : e.rawStorage = false) (h1 : 1 ≤ e.size)
    (hfit : e.FitsBits (e.wireStep n)) :
    (TypeScript.lang js).readBack wireStep s e (.int n) = some (.num n) ↔
      (e.isTwos = true → 0 ≤ n) := by
  have hunstep : (TypeScript.lang js).readBack wireStep s e (.int n)
      = some (.num (TypeScript.unstepNum js e (toU32 (e.wireStep n) % 2 ^ e.size))) := by
    show TypeScript.unstep js s e _ = _
    unfold TypeScript.unstep
    rw [hn.integral.not_bool, hn.integral.not_enum, hn.integral.not_string]
    rfl
  rw [hunstep, Option.some.injEq, Value.num.injEq]
  have hpos : 0 ≤ e.wireStep n →
      TypeScript.unstepNum js e (toU32 (e.wireStep n) % 2 ^ e.size) = n := fun h0 =>
    TypeScript.unstepNum_eq hjs hn.integral hraw hn.c_exact (step_mod_of_nonneg h32 h1 hfit h0)
  constructor
  · intro heq htwos
    -- without a `min` nothing negative is read
    have hp : e.packedMin = none := by
      simp only [Elem.isTwos, Bool.and_eq_true, Option.isNone_iff_eq_none] at htwos
      rw [Elem.packedMin, if_pos htwos.1, htwos.2]
    have hnn := TypeScript.unstepNum_nonneg (u := toU32 (e.wireStep n) % 2 ^ e.size) hjs
      hn.integral hp
    rw [heq] at hnn
    exact_mod_cast hnn
  · intro hnn
    apply hpos
    by_cases htwos : e.isTwos = true
    · rw [Rust.wireStep_nonneg_iff hn.integral]
      have hmin : e.base = 0 := by
        simp only [Elem.isTwos, Bool.and_eq_true, Option.isNone_iff_eq_none] at htwos
        simp [Elem.base, hraw, Elem.packedMin, htwos.1, htwos.2]
      have := hnn htwos
      omega
    · rw [Elem.FitsBits, if_neg htwos] at hfit
      exact hfit.1

/-- TypeScript reads bools and enums back. -/
theorem ts_readBack (s : Bool) (hl : e.Leaf rnd ctx true) (hctx : ctx.EnumsLaid)
    (h : RustLeaf e v) (hint : ∀ n, v ≠ .int n) :
    (TypeScript.lang js).readBack wireStep s e v = toTsLeaf s e v := by
  show TypeScript.unstep js s e (wireStep s e v % 2 ^ e.size) = toTsLeaf s e v
  cases h with
  | bool b hb =>
    rw [bool_step_mod hl hb]
    cases b <;> simp [TypeScript.unstep, hb, toTsLeaf]
  | enum i hi =>
    obtain ⟨t, ht, hlaid, h0, hlt, h256, _⟩ := hi.laid hl hctx
    obtain ⟨hidx, hc⟩ := constant_eq hlaid h0 hlt
    rw [hi.step_mod hl hctx, toTsLeaf, ht, Option.bind_some, hc]
    by_cases hr : t.isRemap = true
    · simp [TypeScript.unstep, hi.not_bool, hi.is_enum, ht, hr, List.getElem?_eq_getElem hidx]
    · simp [TypeScript.unstep, hi.not_bool, hi.is_enum, ht, hr, Int.toNat_of_nonneg h0]
  | int n _ => exact absurd rfl (hint n)

/-- The leaves on which the three decoders are compared: bools, enums, and integers in range
whose step is computed without overflow. -/
structure Compared (e : Elem) (v : Value) : Prop where
  leaf : RustLeaf e v
  not_raw : e.rawStorage = false
  int : ∀ n, v = .int n → IntLeaf e n ∧ 1 ≤ e.size ∧ InRange e n

instance (e : Elem) (v : Value) : Decidable (Compared e v) :=
  decidable_of_iff (RustLeaf e v ∧ e.rawStorage = false ∧
      ∀ n ∈ v.int?, IntLeaf e n ∧ 1 ≤ e.size ∧ InRange e n)
    ⟨fun h => ⟨h.1, h.2.1, fun n hn => h.2.2 n (by rw [hn]; rfl)⟩,
      fun h => ⟨h.leaf, h.not_raw, fun n hn => h.int n (int?_eq_some hn)⟩⟩

/-- Where C and TypeScript also find the index of a variant, the leaf is one that they encode. -/
theorem Compared.supported (h : Compared e v) (hd : RemapDistinct e) : Supported e v := by
  have hint := h.int
  cases h.leaf with
  | bool b hb => exact .bool b hb
  | enum i hi => exact .enum i hi hd
  | int n _ _ => exact .int n (hint n rfl).1

/-! ## Where the decoders agree -/

/-- The constant of variant `i` is a byte, as the entries of C's `*_WIRE_TO_VALUE` are. -/
def ByteConstant (e : Elem) (i : Int) : Prop :=
  ∀ t ∈ e.enum, t.isRemap = true → ∀ c ∈ constant t i, 0 ≤ c ∧ c < 256

/-- The condition under which the decoders agree on an integer leaf, whose wire value is `u`
(`wireBits`) and stands for `d` (`quotient`). Where the step fits the bits, `d` is the number that
was sent. -/
structure DecodesAlike (js : Rat → Rat) (s : Bool) (e : Elem) (n : Int) : Prop where
  nonneg : e.isTwos = true → 0 ≤ n
  member : C.MemberFits e.type (e.quotient (e.wireBits n))
  /-- `u / scale + min` is `d` in doubles, too: there is no remainder, or it is rounded away. -/
  whole : TypeScript.unstepNum js e (e.wireBits n).toNat = e.quotient (e.wireBits n)
  misparsed : Rust.isMisparsed s e = true → 4294967296 < e.factor + e.base ∧
    e.wireBits n / (e.factor + e.base - 4294967296) = e.quotient (e.wireBits n)

/-- The condition on a leaf. -/
structure LeafDecodesAlike (js : Rat → Rat) (s : Bool) (e : Elem) (v : Value) : Prop where
  enum : ∀ i, v = .enum i → ByteConstant e i
  int : ∀ n, v = .int n → DecodesAlike js s e n

/-- A bool is read back by all three. -/
theorem LeafDecodesAlike.bool (js : Rat → Rat) (s : Bool) (e : Elem) (b : Bool) :
    LeafDecodesAlike js s e (.bool b) where
  enum i hi := by cases hi
  int n hn := by cases hn

/-- An enum leaf asks for the byte of its constant. -/
theorem leafDecodesAlike_enum {i : Int} :
    LeafDecodesAlike js s e (.enum i) ↔ ByteConstant e i := by
  constructor
  · intro h
    exact h.enum i rfl
  · intro h
    constructor
    · intro j hj
      cases hj
      exact h
    · intro n hn
      cases hn

/-- An integer leaf asks for what `DecodesAlike` says of its value. -/
theorem leafDecodesAlike_int {n : Int} :
    LeafDecodesAlike js s e (.int n) ↔ DecodesAlike js s e n := by
  constructor
  · intro h
    exact h.int n rfl
  · intro h
    constructor
    · intro i hi
      cases hi
    · intro m hm
      cases hm
      exact h

instance (e : Elem) (i : Int) : Decidable (ByteConstant e i) := by
  unfold ByteConstant
  infer_instance

instance (js : Rat → Rat) (s : Bool) (e : Elem) (n : Int) : Decidable (DecodesAlike js s e n) :=
  decidable_of_iff ((e.isTwos = true → 0 ≤ n) ∧ C.MemberFits e.type (e.quotient (e.wireBits n)) ∧
      TypeScript.unstepNum js e (e.wireBits n).toNat = e.quotient (e.wireBits n) ∧
      (Rust.isMisparsed s e = true → 4294967296 < e.factor + e.base ∧
        e.wireBits n / (e.factor + e.base - 4294967296) = e.quotient (e.wireBits n)))
    ⟨fun ⟨h₁, h₂, h₃, h₄⟩ => ⟨h₁, h₂, h₃, h₄⟩, fun h => ⟨h.nonneg, h.member, h.whole, h.misparsed⟩⟩

instance (js : Rat → Rat) (s : Bool) (e : Elem) (v : Value) :
    Decidable (LeafDecodesAlike js s e v) :=
  decidable_of_iff ((∀ i ∈ v.enum?, ByteConstant e i) ∧ ∀ n ∈ v.int?, DecodesAlike js s e n)
    ⟨fun h => ⟨fun i hi => h.1 i (by rw [hi]; rfl), fun n hn => h.2 n (by rw [hn]; rfl)⟩,
      fun h => ⟨fun i hi => h.enum i (enum?_eq_some hi), fun n hn => h.int n (int?_eq_some hn)⟩⟩

/-- The wire value of a step that is not negative lies between zero and the step. -/
theorem wireBits_bounds (h : e.Integral) (h32 : e.size ≤ 32) (h0 : 0 ≤ e.wireStep n) :
    ((toU32 (e.wireStep n) % 2 ^ e.size : Nat) : Int) = e.wireBits n ∧ 0 ≤ e.wireBits n ∧
      e.wireBits n ≤ e.wireStep n ∧ e.base ≤ e.quotient (e.wireBits n) ∧
      e.quotient (e.wireBits n) ≤ n := by
  obtain ⟨hu0, hle⟩ := emod_two_pow_bounds e.size h0
  exact ⟨toU32_mod_cast h32 _, hu0, hle, h.quotient_bounds hu0 hle⟩

/-- C assigns the quotient to the member. -/
theorem c_readBack_int {fl : C.FloatExprs} (s : Bool) (hl : e.Leaf rnd ctx true)
    (h32 : e.size ≤ 32) (hn : IntLeaf e n) (hraw : e.rawStorage = false)
    (htwos : e.isTwos = false) (h0 : 0 ≤ e.wireStep n) :
    (C.lang fl).readBack wireStep s e (.int n)
      = some (.int (C.assign e.type (e.quotient (e.wireBits n)))) := by
  have h := hn.integral
  have hno := hn.c_exact
  obtain ⟨hu, hu0, hule, hlo, hhi⟩ := wireBits_bounds h h32 h0
  have hread : C.unstepInt e (toU32 (e.wireStep n) % 2 ^ e.size)
      = some (C.assign e.type (e.quotient (e.wireBits n))) := by
    rw [← hu]
    cases hsg : e.isSigned with
    | true =>
      rw [signed_not_uint32 hl hsg] at hno
      have hstep := hno.step
      have hval := hno.value
      have hb := hno.base
      rw [fits_signed] at hstep hval hb
      exact C.unstepInt_offset h hsg hraw htwos (by rw [hu, fits_signed]; omega) hno.factor
        hno.base (by rw [hu, fits_signed]; omega)
    | false =>
      have hword : ∀ {x : Int}, 0 ≤ x → Fits (C.isUnsigned e.type) x → x < 4294967296 := by
        intro x hx hfit
        cases hus : C.isUnsigned e.type with
        | false => rw [hus, fits_signed] at hfit; omega
        | true => rw [hus, fits_unsigned] at hfit; omega
      have hpos := h.factor_pos
      have hk := hword (by omega) hno.factor
      have hstep := hword h0 hno.step
      exact C.unstepInt_unsigned h hsg hraw (by rw [hu, fits_unsigned]; omega)
        (by rw [fits_unsigned]; omega) hno.base
  show C.unstep fl s e (toU32 (e.wireStep n) % 2 ^ e.size) = _
  unfold C.unstep
  rw [h.not_bool, h.not_enum, h.not_string, h.not_floatExpr]
  show (C.unstepInt e _).map Value.int = _
  rw [hread]
  rfl

/-- Rust keeps the quotient, or divides by `scale.wrapping_add(min)`. -/
theorem rust_readBack_int {fl : Rust.FloatExprs} (s : Bool) (hl : e.Leaf rnd ctx true)
    (h32 : e.size ≤ 32) (hn : IntLeaf e n) (htwos : e.isTwos = false) (h0 : 0 ≤ e.wireStep n)
    {y : Int} (hy : Rust.isMisparsed s e = true → y = e.quotient (e.wireBits n)) :
    (Rust.lang fl).readBack wireStep s e (.int n) = some (.int y) ↔
      y = e.quotient (e.wireBits n) ∧
        (Rust.isMisparsed s e = true → 4294967296 < e.factor + e.base ∧
        e.wireBits n / (e.factor + e.base - 4294967296) = e.quotient (e.wireBits n)) := by
  have h := hn.integral
  have hno := hn.rust_exact
  obtain ⟨hu, hu0, hule, hlo, hhi⟩ := wireBits_bounds h h32 h0
  have hstep := hno.step
  have hval := hno.value
  have hb := hno.base
  show Rust.unstep fl s e (toU32 (e.wireStep n) % 2 ^ e.size) = _ ↔ _
  unfold Rust.unstep
  rw [h.not_bool, h.not_enum, h.not_float, h.not_string]
  simp only [Bool.false_eq_true, if_false]
  cases hsg : e.isSigned with
  | true =>
    have hmis : Rust.isMisparsed s e = false := by simp [Rust.isMisparsed, hsg]
    rw [hsg, Bool.not_true] at hno hstep hval hb
    rw [fits_signed] at hstep hval hb
    rw [if_pos rfl, Rust.unstepSigned_offset h hl.hasScale_iff (minWire_none_iff hl) hsg htwos
      (by rw [hu, fits_signed]; omega) hno.factor hno.base (by rw [hu, fits_signed]; omega), hu]
    simp [hmis, eq_comm]
  | false =>
    rw [hsg, Bool.not_false] at hno hstep hval hb
    rw [fits_unsigned] at hstep hval
    have hx : Fits true ((toU32 (e.wireStep n) % 2 ^ e.size : Nat) : Int) := by
      rw [hu, fits_unsigned]
      omega
    rw [if_neg Bool.false_ne_true]
    cases hmis : Rust.isMisparsed s e with
    | false =>
      have hb' := fits_unsigned.mp hb
      rw [Rust.unstepUnsigned_quotient h hl.hasScale_iff hsg hmis hx hno.factor hb
        (by rw [hu, fits_unsigned]; omega), hu]
      simp [eq_comm]
    | true =>
      obtain ⟨hread, hpos⟩ := Rust.unstepUnsigned_misparsed h hmis
        (u := toU32 (e.wireStep n) % 2 ^ e.size) hno.factor hb
      have hsmall : e.wireBits n / e.factor < e.quotient (e.wireBits n) := by
        unfold Elem.quotient
        omega
      cases hy hmis
      rw [hu] at hread hx
      rw [hread, Option.map_eq_some_iff]
      simp only [Value.int.injEq, exists_eq_right, true_implies, true_and]
      exact Rust.div_misparsed_iff hno.factor h.factor_pos hb hpos hx hsmall

/-- TypeScript divides in doubles. -/
theorem ts_readBack_int (s : Bool) (h32 : e.size ≤ 32) (hn : IntLeaf e n) :
    (TypeScript.lang js).readBack wireStep s e (.int n)
      = some (.num (TypeScript.unstepNum js e (e.wireBits n).toNat)) := by
  have hu : (e.wireBits n).toNat = toU32 (e.wireStep n) % 2 ^ e.size := by
    rw [Elem.wireBits, ← toU32_mod_cast h32, Int.toNat_natCast]
  show TypeScript.unstep js s e (toU32 (e.wireStep n) % 2 ^ e.size) = _
  unfold TypeScript.unstep
  rw [hn.integral.not_bool, hn.integral.not_enum, hn.integral.not_string, hu]
  rfl

/-- C reads a variant back exactly if its constant is a byte. -/
theorem c_readBack_enum_iff {fl : C.FloatExprs} (s : Bool) (hl : e.Leaf rnd ctx true)
    (hctx : ctx.EnumsLaid) (hi : EnumLeaf e i) :
    ∃ c c', (C.lang fl).readBack wireStep s e (.enum i) = some (.enum c) ∧
      toCLeaf s e (.enum i) = some (.enum c') ∧ (c' = c ↔ ByteConstant e i) := by
  obtain ⟨t, ht, hlaid, h0, hlt, h256, _⟩ := hi.laid hl hctx
  obtain ⟨hidx, hc⟩ := constant_eq hlaid h0 hlt
  have hread : (C.lang fl).readBack wireStep s e (.enum i)
      = C.unstep fl s e (wireStep s e (.enum i) % 2 ^ e.size) := rfl
  have hbyte : ByteConstant e i ↔ (t.isRemap = true →
      0 ≤ (t.variants[i.toNat]).value ∧ (t.variants[i.toNat]).value < 256) := by
    simp only [ByteConstant, ht, Option.mem_def, Option.some.injEq, forall_eq', hc]
    exact forall_congr' fun hr => by rw [if_pos hr]
  rw [hread, hi.step_mod hl hctx, toCLeaf, ht, Option.bind_some, hc, Option.map_some, hbyte]
  by_cases hr : t.isRemap = true
  · refine ⟨wrapU 8 (t.variants[i.toNat]).value, _, ?_, rfl, ?_⟩
    · simp [C.unstep, hi.not_bool, hi.is_enum, ht, hr, wireToValue, List.getElem?_eq_getElem hidx]
    · simp only [hr, true_implies, if_true, wrapU, Int.reducePow]
      omega
  · refine ⟨i, _, ?_, rfl, ?_⟩
    · simp [C.unstep, hi.not_bool, hi.is_enum, ht, hr, Int.toNat_of_nonneg h0]
    · simp [hr]

/-- A quotient that was not sent negative fits an unsigned member. -/
theorem quotient_member (h32 : e.size ≤ 32) (hn : IntLeaf e n) (hsg : e.isSigned = false)
    (h0 : 0 ≤ e.wireStep n) : C.MemberFits e.type (e.quotient (e.wireBits n)) := by
  obtain ⟨-, -, -, hlo, hhi⟩ := wireBits_bounds hn.integral h32 h0
  have hb := hn.rust_exact.base
  rw [hsg, Bool.not_false, fits_unsigned] at hb
  have hmem := hn.member
  unfold C.MemberFits at hmem ⊢
  rcases C.memberType_cases e.type with h | h | h | h | h | h <;> rw [h] at hmem ⊢ <;>
    simp only [Bool.false_eq_true, if_false, if_true, Nat.reduceSub, Int.reducePow] at hmem ⊢ <;>
    omega

/-- A leaf in two's complement is in range if its step fits the bits. -/
theorem InRange.fits_twos (hr : InRange e n) (htwos : e.isTwos = true) :
    e.FitsBits (e.wireStep n) := by
  have hmin : e.min = none := by
    simp only [Elem.isTwos, Bool.and_eq_true, Option.isNone_iff_eq_none] at htwos
    exact htwos.2
  unfold InRange at hr
  rw [hmin] at hr
  exact hr

/-- A leaf in two's complement is decoded alike unless it is negative. -/
theorem decodesAlike_twos_iff (hjs : TypeScript.RoundsDouble js) {s : Bool} (h32 : e.size ≤ 32)
    (h1 : 1 ≤ e.size) (hn : IntLeaf e n) (hraw : e.rawStorage = false) (htwos : e.isTwos = true)
    (hfit : e.FitsBits (e.wireStep n)) : DecodesAlike js s e n ↔ 0 ≤ n := by
  refine ⟨fun h => h.nonneg htwos, fun h0 => ?_⟩
  have hsg : e.isSigned = true ∧ e.min = none := by
    simpa only [Elem.isTwos, Bool.and_eq_true, Option.isNone_iff_eq_none] using htwos
  have hb0 : e.base = 0 := by simp [Elem.base, hraw, Elem.packedMin, hsg.1, hsg.2]
  have hstep : 0 ≤ e.wireStep n := by
    rw [Rust.wireStep_nonneg_iff hn.integral, hb0]
    omega
  -- the step is not cut
  have hu := step_mod_of_nonneg h32 h1 hfit hstep
  have hbits : e.wireBits n = e.wireStep n := (toU32_mod_cast h32 _).symm.trans hu
  have hquot : e.quotient (e.wireBits n) = n := by rw [hbits, hn.integral.quotient_wireStep]
  refine ⟨fun _ => h0, by rw [hquot]; exact hn.member, ?_, fun hmis => ?_⟩
  · rw [hquot]
    exact TypeScript.unstepNum_eq hjs hn.integral hraw hn.c_exact
      (by rw [hbits, Int.toNat_of_nonneg hstep])
  · simp [Rust.isMisparsed, hsg.1] at hmis

end Leaf

/-- An integer that is the same in C's terms. -/
theorem toCLeaf_int {s : Bool} {e : Elem} {x : Value} {n : Int}
    (h : toCLeaf s e x = some (.int n)) : x = .int n := by
  cases x with
  | enum i =>
    simp only [toCLeaf, Option.map_eq_some_iff] at h
    obtain ⟨c, _, hc⟩ := h
    cases hc
  | str bs =>
    simp only [toCLeaf, Option.map_eq_some_iff] at h
    obtain ⟨c, _, hc⟩ := h
    cases hc
  | _ => exact Option.some.inj h

/-- What the decoders `c`, `r` and `t` of the three languages do to a leaf that they agree on:
C's and TypeScript's values are Rust's in their own terms. -/
structure Agrees (c r t : LeafMap) (s : Bool) (e : Elem) (v : Value) : Prop where
  c_eq : r.comp toCLeaf s e v = c s e v
  c_some : ∃ y, c s e v = some y
  ts_eq : r.comp toTsLeaf s e v = t s e v
  ts_some : ∃ x, t s e v = some x

/-- Rust's decoder gives `w`, and the other two what `w` is in their own terms. -/
theorem Agrees.of_some {c r t : LeafMap} {s : Bool} {e : Elem} {v w y x : Value}
    (hr : r s e v = some w) (hy : toCLeaf s e w = some y) (hc : c s e v = some y)
    (hx : toTsLeaf s e w = some x) (ht : t s e v = some x) : Agrees c r t s e v where
  c_eq := by rw [LeafMap.comp, hr, Option.bind_some, hy, hc]
  c_some := ⟨y, hc⟩
  ts_eq := by rw [LeafMap.comp, hr, Option.bind_some, hx, ht]
  ts_some := ⟨x, ht⟩

/-- **Agreement, leaf by leaf.** -/
theorem agree_iff_leaves {scope : Scope} {name : String} {v : Value} {cs : List Chunk}
    {c r t : LeafMap} (hlay : layout scope name v = some cs) :
    (∃ w, (∃ y, toC scope name w = some y ∧ mapLeaves c scope name v = some y) ∧
        mapLeaves r scope name v = some w ∧
        ∃ x, toTs scope name w = some x ∧ mapLeaves t scope name v = some x) ↔
      AllLeaves (Agrees c r t) cs := by
  have hcomp : ∀ {w} (g : LeafMap), mapLeaves r scope name v = some w →
      mapLeaves g scope name w = mapLeaves (r.comp g) scope name v := by
    intro w g hw
    rw [← mapLeaves_comp, hw, Option.bind_some]
  have hdefined : ∀ {g : LeafMap} {x : Value}, mapLeaves g scope name v = some x →
      AllLeaves (fun s e v => ∃ y, g s e v = some y) cs := by
    intro g x hx
    obtain ⟨ds, hds, _⟩ := layout_of_mapLeaves hlay hx
    exact mapChunks_some_iff.mp ⟨ds, hds⟩
  constructor
  · rintro ⟨w, ⟨y, hwy, hy⟩, hw, x, hwx, hx⟩
    rw [toC, hcomp toCLeaf hw] at hwy
    rw [toTs, hcomp toTsLeaf hw] at hwx
    have hrc := (mapLeaves_eq_iff hlay hy).mp hwy
    have hrt := (mapLeaves_eq_iff hlay hx).mp hwx
    exact fun s e v hl => ⟨hrc s e v hl, hdefined hy s e v hl, hrt s e v hl, hdefined hx s e v hl⟩
  · intro h
    obtain ⟨y, hy⟩ := mapLeaves_isSome hlay fun s e v hl => (h s e v hl).c_some
    obtain ⟨x, hx⟩ := mapLeaves_isSome hlay fun s e v hl => (h s e v hl).ts_some
    have hrc := (mapLeaves_eq_iff hlay hy).mpr fun s e v hl => (h s e v hl).c_eq
    have hrt := (mapLeaves_eq_iff hlay hx).mpr fun s e v hl => (h s e v hl).ts_eq
    have hsome := hrc
    rw [← mapLeaves_comp, Option.bind_eq_some_iff] at hsome
    obtain ⟨w, hw, hwc⟩ := hsome
    refine ⟨w, ⟨y, hwc, hy⟩, hw, x, ?_, hx⟩
    rw [toTs, hcomp toTsLeaf hw]
    exact hrt

section Whole

variable {rnd js : Rat → Rat} {ctx : Context} {cfl : C.FloatExprs} {rfl' : Rust.FloatExprs}
  {e : Elem} {v : Value} {n : Int}

/-- When an integer leaf in two's complement is agreed on: C reads it back. -/
theorem agrees_twos_iff (hjs : TypeScript.RoundsDouble js) (s : Bool) (hl : e.Leaf rnd ctx true)
    (hctx : ctx.EnumsLaid) (h32 : e.size ≤ 32) (h1 : 1 ≤ e.size) (hn : IntLeaf e n)
    (hraw : e.rawStorage = false) (htwos : e.isTwos = true) (hfit : e.FitsBits (e.wireStep n)) :
    Agrees ((C.lang cfl).readBack wireStep) ((Rust.lang rfl').readBack wireStep)
      ((TypeScript.lang js).readBack wireStep) s e (.int n) ↔ 0 ≤ n := by
  have hnot : ¬ e.rawStorage = true := by rw [hraw]; exact Bool.false_ne_true
  have hc : (C.lang cfl).readBack wireStep s e (.int n) = some (.int n) :=
    c_readBack s hl hctx h32 (.int n hn) fun m hm => by
      cases hm
      exact ⟨h1, hfit, fun h => absurd h hnot, fun h => absurd h hnot⟩
  have hrust : (Rust.lang rfl').readBack wireStep s e (.int n) = some (.int n) ↔
      Rust.LeafReadsBack s e (.int n) :=
    Rust.readBack_iff s hl hctx h32 (.int n hn.integral hn.rust_exact) fun m hm => by
      cases hm
      exact ⟨h1, stepRange_of_fits hfit⟩
  have hts := ts_readBack_int_iff hjs s h32 hn hraw h1 hfit
  constructor
  · intro h
    have hr := h.c_eq
    rw [hc] at hr
    obtain ⟨x, hx, hxc⟩ := Option.bind_eq_some_iff.mp hr
    rw [toCLeaf_int hxc] at hx
    refine hts.mp ?_ htwos
    rw [← h.ts_eq, LeafMap.comp, hx]
    rfl
  · intro h0
    have hmis : Rust.isMisparsed s e = false := by
      simp only [Elem.isTwos, Bool.and_eq_true] at htwos
      simp [Rust.isMisparsed, htwos.1]
    have hr := hrust.mpr fun m hm => by
      cases hm
      exact ⟨fun _ => .inl h0, fun h => absurd (htwos.symm.trans h) (by decide),
        fun h => absurd (hmis.symm.trans h) (by decide)⟩
    have ht := hts.mpr fun _ => h0
    exact Agrees.of_some hr rfl hc rfl ht

/-- When any other integer leaf is agreed on. -/
theorem agrees_offset_iff (s : Bool) (hl : e.Leaf rnd ctx true) (h32 : e.size ≤ 32)
    (hn : IntLeaf e n) (hraw : e.rawStorage = false) (htwos : e.isTwos = false)
    (h0 : 0 ≤ e.wireStep n) :
    Agrees ((C.lang cfl).readBack wireStep) ((Rust.lang rfl').readBack wireStep)
      ((TypeScript.lang js).readBack wireStep) s e (.int n) ↔ DecodesAlike js s e n := by
  have hc := @c_readBack_int rnd ctx e n cfl s hl h32 hn hraw htwos h0
  have ht := @ts_readBack_int js e n s h32 hn
  constructor
  · intro h
    have hr := h.c_eq
    rw [hc] at hr
    obtain ⟨x, hx, hxc⟩ := Option.bind_eq_some_iff.mp hr
    rw [toCLeaf_int hxc] at hx
    -- only an unsigned scalar is misparsed, and that one fits its member
    have hmember : Rust.isMisparsed s e = true →
        C.assign e.type (e.quotient (e.wireBits n)) = e.quotient (e.wireBits n) := fun hmis => by
      simp only [Rust.isMisparsed, Bool.and_eq_true, Bool.not_eq_true'] at hmis
      exact C.assign_eq_self_iff.mpr (quotient_member h32 hn hmis.1.1.2 h0)
    obtain ⟨heq, hmis⟩ := (rust_readBack_int s hl h32 hn htwos h0 hmember).mp hx
    have hts := h.ts_eq
    rw [LeafMap.comp, hx, ht, heq] at hts
    refine ⟨fun h => absurd (htwos.symm.trans h) (by decide), C.assign_eq_self_iff.mp heq, ?_, hmis⟩
    exact (Value.num.inj (Option.some.inj hts)).symm
  · intro h
    have hr : (Rust.lang rfl').readBack wireStep s e (.int n)
        = some (.int (e.quotient (e.wireBits n))) :=
      (rust_readBack_int s hl h32 hn htwos h0 fun _ => rfl).mpr ⟨rfl, h.misparsed⟩
    rw [C.assign_eq_self_iff.mpr h.member] at hc
    rw [h.whole] at ht
    exact Agrees.of_some hr rfl hc rfl ht

/-- **When a leaf is agreed on.** -/
theorem agrees_iff (hjs : TypeScript.RoundsDouble js) (s : Bool) (hl : e.Leaf rnd ctx true)
    (hctx : ctx.EnumsLaid) (h32 : e.size ≤ 32) (h : Compared e v) :
    Agrees ((C.lang cfl).readBack wireStep) ((Rust.lang rfl').readBack wireStep)
      ((TypeScript.lang js).readBack wireStep) s e v ↔ LeafDecodesAlike js s e v := by
  have hint := h.int
  have hraw := h.not_raw
  have hrust : (∀ n, v ≠ .int n) → (Rust.lang rfl').readBack wireStep s e v = some v := fun hno =>
    (Rust.readBack_iff s hl hctx h32 h.leaf fun n hn => absurd hn (hno n)).mpr
      fun n hn => absurd hn (hno n)
  cases h.leaf with
  | bool b hb =>
    have hno : ∀ n, Value.bool b ≠ .int n := by simp
    have hr := hrust hno
    have ht : (TypeScript.lang js).readBack wireStep s e (.bool b) = toTsLeaf s e (.bool b) :=
      ts_readBack s hl hctx (.bool b hb) (by simp)
    have hc : (C.lang cfl).readBack wireStep s e (.bool b) = toCLeaf s e (.bool b) :=
      c_readBack s hl hctx h32 (.bool b hb) (by simp)
    exact iff_of_true (Agrees.of_some hr rfl hc rfl ht) (LeafDecodesAlike.bool js s e b)
  | enum i hi =>
    have hno : ∀ n, Value.enum i ≠ .int n := by simp
    have hr := hrust hno
    have ht : (TypeScript.lang js).readBack wireStep s e (.enum i) = toTsLeaf s e (.enum i) :=
      ts_readBack s hl hctx (.enum i hi) (by simp)
    obtain ⟨c, c', hc, hlogical, hbyte⟩ := @c_readBack_enum_iff rnd ctx e i cfl s hl hctx hi
    rw [leafDecodesAlike_enum, ← hbyte]
    constructor
    · intro h
      have heq := h.c_eq
      rw [LeafMap.comp, hr, Option.bind_some, hlogical, hc] at heq
      exact Value.enum.inj (Option.some.inj heq)
    · rintro rfl
      exact Agrees.of_some hr hlogical hc hlogical (ht.trans hlogical)
  | int n _ _ =>
    obtain ⟨hn, h1, hrange⟩ := hint n rfl
    rw [leafDecodesAlike_int]
    cases htwos : e.isTwos with
    | true =>
      have hfit := hrange.fits_twos htwos
      rw [decodesAlike_twos_iff hjs h32 h1 hn hraw htwos hfit]
      exact agrees_twos_iff hjs s hl hctx h32 h1 hn hraw htwos hfit
    | false =>
      have hstep := hrange.stepRange hn.integral
      rw [Rust.StepRange, htwos, if_neg Bool.false_ne_true] at hstep
      exact agrees_offset_iff s hl h32 hn hraw htwos hstep

end Whole

end ProtoEmb.Codec
