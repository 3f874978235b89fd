import ProtoEmb.Codec.AlignedAgreement
import ProtoEmb.Codec.AlignedDecode
import ProtoEmb.Codec.Decoders

/-!
# The round trip in C

Both encodings of `protocol.c.j2` at once: whatever a `*_encode` writes, `*_decode` reads back
(`decode_encode_self`), for bools, enum constants, integers and `char` arrays, nested to
any depth. A value is in C's own terms here. The limits are those of the offset types
and of the one byte that an aligned enum or tag has (`decode_encode_loses`).
-/

namespace ProtoEmb.Codec.C

open ProtoEmb.Lib ProtoEmb.Schema

/-! ## The aligned decoder -/

/-- The leaf, from its bytes: `c_decode_leaf`, and the same statements inline. -/
def alignedUnleaf (fl : FloatExprs) (scalar : Bool) (e : Elem) (bs : List UInt8) : Option Value :=
  if e.isString then if scalar then some (.str bs) else none
  else if e.isBool then some (.bool (ofLeBytes bs ≠ 0))
  else if e.isEnum then some (.enum (ofLeBytes bs))
  else if e.rawStorage || !e.hasScale then
    if e.isFloat then some (.float (UInt32.ofNat (ofLeBytes bs)))
    else some (.int (assign e.type (ofLeBytes bs)))
  else if e.isFloatExpr then fl.unscaled e (ofLeBytes bs)
  else do
    -- `_w` has the native width; below 32 bits it is promoted to `int`
    let w : Int := if e.isSigned then wrapS (8 * bs.length) (ofLeBytes bs) else ofLeBytes bs
    let ty : CTy := if !e.isSigned && bs.length = 4 then .uint else .int
    let q ← CInt.div ⟨ty, w⟩ (← CInt.lit e.scale.toInt)
    return .int (assign e.type q.val)

/-- The aligned decoder of `protocol.c.j2`. -/
def alignDecoder (fl : FloatExprs) : AlignDecoder where
  toAlignLang := alignLang fl
  unleaf := alignedUnleaf fl
  unknownTag _ tag := some (.union tag .absent)

/-- `*_encode` of a type. -/
def encode (fl : FloatExprs) (scope : Scope) (name : String) (v : Value) : Option (List UInt8) := do
  let t ← scope.lookup name
  if t.isPacked then (lang fl).encode scope name v else (alignLang fl).encodeInPlace scope name v

/-- `*_decode` of a type. -/
def decode (fl : FloatExprs) (scope : Scope) (name : String) (buf : List UInt8) : Option Value := do
  let t ← scope.lookup name
  if t.isPacked then (lang fl).decode scope name buf
  else (alignDecoder fl).decodeInPlace scope name buf

/-! ## Leaves in C's terms -/

/-- A constant of the leaf's enum. The values of a remap enum are distinct bytes. -/
structure EnumConstant (e : Elem) (c : Int) : Prop where
  is_enum : e.isEnum = true
  not_bool : e.isBool = false
  not_string : e.isString = false
  table : ∃ t, e.enum = some t ∧ (t.isRemap = true → Distinct t) ∧
    ∃ v ∈ t.variants, c = if t.isRemap then v.value else v.index

instance (e : Elem) (c : Int) : Decidable (EnumConstant e c) :=
  decidable_of_iff (e.isEnum = true ∧ e.isBool = false ∧ e.isString = false ∧
      ∃ t ∈ e.enum, (t.isRemap = true → Distinct t) ∧
        ∃ v ∈ t.variants, c = if t.isRemap then v.value else v.index)
    ⟨fun ⟨he, hb, hs, t, ht⟩ => ⟨he, hb, hs, t, ht⟩,
      fun h => ⟨h.is_enum, h.not_bool, h.not_string, h.table⟩⟩

instance (e : Elem) (n : Int) : Decidable (CReads e n) :=
  decidable_of_iff (1 ≤ e.size ∧ e.FitsBits (e.wireStep n) ∧
      (e.rawStorage = true → e.min.isSome = true) ∧ (e.rawStorage = true → Fits false e.base →
        Fits false (wrapS 32 (toU32 (e.wireStep n)) + e.base)))
    ⟨fun ⟨h1, hf, hm, hs⟩ => ⟨h1, hf, fun h => Option.isSome_iff_ne_none.mp (hm h), hs⟩,
      fun h => ⟨h.size_pos, h.fits, fun hr => Option.isSome_iff_ne_none.mpr (h.raw_min hr),
        h.raw_sum⟩⟩

/-- The leaves of a packed type. -/
inductive PackedLeaf (e : Elem) : Value → Prop
  | bool (b : Bool) : e.isBool = true → PackedLeaf e (.bool b)
  | enum (c : Int) : EnumConstant e c → PackedLeaf e (.enum c)
  | int (n : Int) : e.Integral → MemberFits e.type n → e.NoOverflow (isUnsigned e.type) n →
    CReads e n → PackedLeaf e (.int n)

/-- An integer leaf of an aligned type: the scaled value fits the native width, and the
scale and the product the type C multiplies in. -/
structure NativeNumber (e : Elem) (n : Int) : Prop where
  not_bool : e.isBool = false
  not_enum : e.isEnum = false
  not_string : e.isString = false
  not_float : e.isFloat = false
  scale_int : ∃ k, e.scale = .int k ∧ 1 ≤ k ∧ Fits (isUnsigned e.type) k
  member : MemberFits e.type n
  exact : Fits (isUnsigned e.type) (n * e.factor)
  scaled : if e.isSigned then -2 ^ (8 * e.size - 1) ≤ n * e.factor ∧
      n * e.factor < 2 ^ (8 * e.size - 1)
    else 0 ≤ n * e.factor ∧ n * e.factor < 2 ^ (8 * e.size)

instance (e : Elem) (n : Int) : Decidable (NativeNumber e n) :=
  decidable_of_iff (e.isBool = false ∧ e.isEnum = false ∧ e.isString = false ∧
      e.isFloat = false ∧ (∃ k ∈ some e.scale.toInt, e.scale = .int k ∧ 1 ≤ k ∧
        Fits (isUnsigned e.type) k) ∧ MemberFits e.type n ∧
      Fits (isUnsigned e.type) (n * e.factor) ∧
      if e.isSigned then -2 ^ (8 * e.size - 1) ≤ n * e.factor ∧
        n * e.factor < 2 ^ (8 * e.size - 1)
      else 0 ≤ n * e.factor ∧ n * e.factor < 2 ^ (8 * e.size)) <| by
    constructor
    · rintro ⟨hb, he, hs, hf, ⟨k, _, hk⟩, hm, hc, hn⟩
      exact ⟨hb, he, hs, hf, ⟨k, hk⟩, hm, hc, hn⟩
    · intro h
      obtain ⟨k, hk, hfit⟩ := h.scale_int
      exact ⟨h.not_bool, h.not_enum, h.not_string, h.not_float, ⟨k, by rw [hk]; rfl, hk, hfit⟩,
        h.member, h.exact, h.scaled⟩

/-- The leaves of an aligned type. -/
inductive NativeLeaf (e : Elem) : Value → Prop
  | bool (b : Bool) : e.isBool = true → e.isString = false → NativeLeaf e (.bool b)
  | enum (c : Int) : EnumConstant e c → c < 256 → NativeLeaf e (.enum c)
  | int (n : Int) : NativeNumber e n → NativeLeaf e (.int n)
  | str (bs : List UInt8) : e.isString = true → e.maxLength = some bs.length →
    NativeLeaf e (.str bs)

instance (e : Elem) : (v : Value) → Decidable (PackedLeaf e v)
  | .bool b => decidable_of_iff (e.isBool = true)
      ⟨fun h => .bool b h, fun h => by cases h with | bool _ h => exact h⟩
  | .enum c => decidable_of_iff (EnumConstant e c)
      ⟨fun h => .enum c h, fun h => by cases h with | enum _ h => exact h⟩
  | .int n => decidable_of_iff (e.Integral ∧ MemberFits e.type n ∧
        e.NoOverflow (isUnsigned e.type) n ∧ CReads e n)
      ⟨fun ⟨hi, hm, hno, hr⟩ => .int n hi hm hno hr,
        fun h => by cases h with | int _ hi hm hno hr => exact ⟨hi, hm, hno, hr⟩⟩
  | .num _ | .float _ | .str _ | .absent | .present _ | .array _ | .struct _ | .union _ _ =>
    .isFalse fun h => by cases h

instance (e : Elem) : (v : Value) → Decidable (NativeLeaf e v)
  | .bool b => decidable_of_iff (e.isBool = true ∧ e.isString = false)
      ⟨fun h => .bool b h.1 h.2, fun h => by cases h with | bool _ h h' => exact ⟨h, h'⟩⟩
  | .enum c => decidable_of_iff (EnumConstant e c ∧ c < 256)
      ⟨fun h => .enum c h.1 h.2, fun h => by cases h with | enum _ h h' => exact ⟨h, h'⟩⟩
  | .int n => decidable_of_iff (NativeNumber e n)
      ⟨fun h => .int n h, fun h => by cases h with | int _ h => exact h⟩
  | .str bs => decidable_of_iff (e.isString = true ∧ e.maxLength = some bs.length)
      ⟨fun h => .str bs h.1 h.2, fun h => by cases h with | str _ h h' => exact ⟨h, h'⟩⟩
  | .num _ | .float _ | .absent | .present _ | .array _ | .struct _ | .union _ _ =>
    .isFalse fun h => by cases h

/-- The values of the round trip, leaf by leaf. -/
def Sendable (isPacked : Bool) (e : Elem) (v : Value) : Prop :=
  if isPacked then PackedLeaf e v else NativeLeaf e v

instance (isPacked : Bool) (e : Elem) (v : Value) : Decidable (Sendable isPacked e v) := by
  unfold Sendable
  infer_instance

/-- The limits of a part: the parts that go through `pack_bits` have at most 32 bits, a tag
of an aligned union fits its byte. -/
def PartFits (isPacked : Bool) (c : Chunk) : Prop := if isPacked then c.Narrow else c.TagFits

instance (isPacked : Bool) (c : Chunk) : Decidable (PartFits isPacked c) := by
  unfold PartFits
  infer_instance

section Leaf

variable {rnd : Rat → Rat} {ctx : Context} {e : Elem} {v : Value} {n c : Int} {fl : FloatExprs}

/-- The variant of a constant. -/
theorem EnumConstant.variant (h : EnumConstant e c) {isPacked : Bool}
    (hl : e.Leaf rnd ctx isPacked) (hctx : ctx.EnumsLaid) :
    ∃ t, e.enum = some t ∧ t.Laid ∧ (t.isRemap = true → Distinct t) ∧
      e.size = (if isPacked then t.bits else 1) ∧
      ∃ (i : Nat) (hi : i < t.variants.length),
        c = if t.isRemap then (t.variants[i]).value else i := by
  obtain ⟨t, ht, hd, v, hv, hc⟩ := h.table
  obtain ⟨t', ht', hlaid, hsize⟩ := hl.enum_eq hctx h.is_enum h.not_bool h.not_string
  rw [ht, Option.some.injEq] at ht'
  subst ht'
  obtain ⟨i, hi, rfl⟩ := List.getElem_of_mem hv
  rw [hlaid.index_eq i hi] at hc
  exact ⟨t, ht, hlaid, hd, hsize, i, hi, hc⟩

/-- **A packed leaf is read back.** -/
theorem packed_readBack (s : Bool) (hl : e.Leaf rnd ctx true) (hctx : ctx.EnumsLaid)
    (h32 : e.size ≤ 32) (h : PackedLeaf e v) :
    ∃ x, step fl s e v = some x ∧ unstep fl s e (x % 2 ^ e.size) = some v := by
  cases h with
  | bool b hb =>
    refine ⟨if b then 1 else 0, by simp [step, hb], ?_⟩
    rw [hl.bool_size hb]
    cases b <;> simp [unstep, hb]
  | enum c hc =>
    obtain ⟨t, ht, hlaid, hd, hsize, i, hi, rfl⟩ := hc.variant hl hctx
    have hfits := hlaid.count_fits
    rw [if_pos rfl] at hsize
    rw [hlaid.count_eq, ← hsize] at hfits
    have hmod : i % 2 ^ e.size = i := Nat.mod_eq_of_lt (by omega)
    by_cases hr : t.isRemap = true
    · refine ⟨i, ?_, ?_⟩
      · simp only [step, hc.not_bool, hc.is_enum, ht, hr, if_true, Bool.false_eq_true, if_false]
        exact valueToWire_value hlaid hr (hd hr) hi
      · rw [hmod]
        simp [unstep, hc.not_bool, hc.is_enum, ht, hr, wireToValue_index (hd hr) hi]
    · have hword : i < 4294967296 := by
        have hpow : (2 : Nat) ^ e.size ≤ 2 ^ 32 := Nat.pow_le_pow_right (by decide) h32
        have h232 : (2 : Nat) ^ 32 = 4294967296 := by norm_num
        omega
      refine ⟨i, ?_, ?_⟩
      · simp [step, hc.not_bool, hc.is_enum, ht, hr, toU32_natCast hword]
      · rw [hmod]
        simp [unstep, hc.not_bool, hc.is_enum, ht, hr]
  | int n hint hm hno hreads =>
    exact ⟨_, step_int s hint hm hno, unstep_int s hint (signed_not_uint32 hl) hm hno
      hreads.raw_min (minWire_none_iff hl).mp hreads.raw_sum hreads.size_pos h32 hreads.fits⟩

/-! ## Aligned integers -/

theorem NativeNumber.fits_scale (h : NativeNumber e n) (hl : e.Leaf rnd ctx false) {k : Int}
    (hk : e.scale = .int k) : 1 ≤ k ∧ Fits (isUnsigned e.type) k ∧ Fits (!e.isSigned) k := by
  obtain ⟨k', hk', h1, hfit⟩ := h.scale_int
  rw [hk] at hk'
  cases hk'
  refine ⟨h1, hfit, ?_⟩
  cases hs : e.isSigned with
  | true => rw [signed_not_uint32 hl hs] at hfit; exact hfit
  | false =>
    show Fits true k
    rw [fits_unsigned]
    cases hu : isUnsigned e.type with
    | true => rw [hu, fits_unsigned] at hfit; exact hfit
    | false => rw [hu, fits_signed] at hfit; omega

theorem memberType_bits (type : String) : (memberType type).1 = 8 * typeSize type := by
  unfold memberType typeSize
  by_cases h1 : type = "uint8"
  · subst h1; rfl
  by_cases h2 : type = "int8"
  · subst h2; rfl
  by_cases h3 : type = "uint16"
  · subst h3; rfl
  by_cases h4 : type = "int16"
  · subst h4; rfl
  simp only [h1, h2, h3, h4, if_false, or_self]
  split <;> rfl

theorem memberType_unsigned {type : String} (h : (memberType type).2 = true) :
    type = "uint8" ∨ type = "uint16" ∨ type = "uint32" := by
  by_contra hne
  rw [not_or, not_or] at hne
  obtain ⟨h8, h16, h32⟩ := hne
  unfold memberType at h
  rw [if_neg h8, if_neg h16, if_neg h32] at h
  split at h
  · cases h
  · split at h
    · cases h
    · cases h

/-- A signed field has a signed member. -/
theorem signed_member (hl : e.Leaf rnd ctx false) (h : e.isSigned = true) :
    (memberType e.type).2 = false := by
  rw [hl.signed_eq] at h
  by_contra hne
  rcases memberType_unsigned (by simpa using hne) with ht | ht | ht <;>
    exact absurd (ht ▸ h) (by decide)

/-- The factor is positive. -/
theorem NativeNumber.factor_pos (h : NativeNumber e n) : 1 ≤ e.factor := by
  obtain ⟨k, hk, h1, _⟩ := h.scale_int
  unfold Elem.factor
  split
  · exact le_refl 1
  · rw [hk]
    exact h1

/-- The value fits the word that Rust would hold it in as well. -/
theorem NativeNumber.native (h : NativeNumber e n) (hl : e.Leaf rnd ctx false) :
    NativeInt e n where
  not_bool := h.not_bool
  not_enum := h.not_enum
  not_string := h.not_string
  not_float := h.not_float
  scale_int := by
    obtain ⟨k, hk, _⟩ := h.scale_int
    obtain ⟨_, _, hfit⟩ := h.fits_scale hl hk
    exact ⟨k, hk, hfit⟩
  member := h.member
  c_exact := h.exact
  scaled := h.scaled
  rust := by
    have hm := h.member
    have hs := h.scaled
    have hpos := h.factor_pos
    have hsize := memberType_bits e.type
    unfold MemberFits at hm
    cases hsg : e.isSigned with
    | true =>
      show Fits false n
      rw [signed_member hl hsg, if_neg Bool.false_ne_true] at hm
      rw [fits_signed]
      rcases typeSize_cases e.type with hz | hz | hz <;> rw [hsize, hz] at hm <;>
        norm_num at hm <;> omega
    | false =>
      show Fits true n
      rw [fits_unsigned]
      rw [hsg, if_neg Bool.false_ne_true] at hs
      have h0 : 0 ≤ n := by
        by_contra hneg
        have : n * e.factor < 0 := Int.mul_neg_of_neg_of_pos (by omega) (by omega)
        omega
      rcases typeSize_cases e.type with hz | hz | hz <;> rw [hsize, hz] at hm <;> split at hm <;>
        norm_num at hm <;> omega

/-- The stored bytes, as a number. -/
theorem NativeNumber.stored (h : NativeNumber e n) (hl : e.Leaf rnd ctx false) :
    ((ofLeBytes (leBytes e.size (toU32 (n * e.factor))) : Nat) : Int)
      = n * e.factor % 2 ^ (8 * e.size) := by
  have hsize := (h.native hl).size_cases hl
  rw [ofLeBytes_leBytes, show (256 : Nat) = 2 ^ 8 from rfl, ← Nat.pow_mul,
    toU32_mod_cast (by omega)]

/-- Copying the bytes of a member gives its value. -/
theorem assign_native {type : String} (hm : MemberFits type n) :
    assign type (n % 2 ^ (8 * typeSize type)) = n := by
  unfold MemberFits at hm
  unfold assign
  rw [memberType_bits] at hm ⊢
  by_cases hu : (memberType type).2 = true
  · rw [if_pos hu] at hm ⊢
    rw [wrapU, Int.emod_emod_of_dvd _ (dvd_refl _), Int.emod_eq_of_lt hm.1 hm.2]
  · rw [if_neg hu] at hm ⊢
    unfold wrapS
    rcases typeSize_cases type with hz | hz | hz <;> rw [hz] at hm ⊢ <;>
      norm_num at hm ⊢ <;> split <;> omega

/-- The temporary `_w` holds the scaled value. -/
theorem NativeNumber.word (h : NativeNumber e n) (hl : e.Leaf rnd ctx false) :
    (if e.isSigned then wrapS (8 * e.size) (n * e.factor % 2 ^ (8 * e.size))
      else n * e.factor % 2 ^ (8 * e.size)) = n * e.factor := by
  have hs := h.scaled
  split at hs
  next hsg =>
    rw [if_pos hsg]
    unfold wrapS
    rcases (h.native hl).size_cases hl with hz | hz | hz <;> rw [hz] at hs ⊢ <;>
      norm_num at hs ⊢ <;> omega
  next hsg => rw [if_neg hsg, Int.emod_eq_of_lt hs.1 hs.2]

/-- The type `_w` is divided in holds it, and the scale. -/
theorem NativeNumber.divides (h : NativeNumber e n) (hl : e.Leaf rnd ctx false) {k : Int}
    (hk : e.scale = .int k) :
    Fits (!e.isSigned && e.size = 4) (n * e.factor) ∧ Fits (!e.isSigned && e.size = 4) k := by
  have hfit := (h.native hl).fits hl
  obtain ⟨h1, hc, hr⟩ := h.fits_scale hl hk
  cases hsg : e.isSigned with
  | true =>
    rw [hsg] at hfit hr
    exact ⟨hfit, hr⟩
  | false =>
    rw [hsg] at hfit hr
    by_cases hz : e.size = 4
    · simp only [hz, decide_true, Bool.not_false, Bool.and_self]
      exact ⟨hfit, hr⟩
    · -- below four bytes everything fits `int`
      simp only [hz, decide_false, Bool.and_false]
      have hs := h.scaled
      rw [hsg, if_neg Bool.false_ne_true] at hs
      have hnot : isUnsigned e.type = false := by
        by_contra hu
        have htype : e.type = "uint32" := by simpa [isUnsigned] using hu
        rw [number_size hl h.not_string h.not_bool h.not_enum, htype] at hz
        exact hz rfl
      rw [hnot] at hc
      refine ⟨?_, hc⟩
      rw [fits_signed]
      rcases (h.native hl).size_cases hl with hz' | hz' | hz' <;> rw [hz'] at hs <;>
        norm_num at hs <;> omega

/-- **An aligned integer is read back.** -/
theorem native_readBack_int (s : Bool) (h : NativeNumber e n) (hl : e.Leaf rnd ctx false) :
    alignedUnleaf fl s e (leBytes e.size (toU32 (n * e.factor))) = some (.int n) := by
  have hstored := h.stored hl
  have hsize := number_size hl h.not_string h.not_bool h.not_enum
  unfold alignedUnleaf
  rw [h.not_string, h.not_bool, h.not_enum, h.not_float, leBytes_length]
  simp only [Bool.false_eq_true, if_false]
  by_cases hplain : (e.rawStorage || !e.hasScale) = true
  · rw [if_pos hplain, hstored, (h.native hl).factor_one hl hplain, hsize, assign_native h.member]
  · obtain ⟨k, hk, hfac, _⟩ := (h.native hl).factor_eq (by simpa using hplain)
    obtain ⟨h1, _, _⟩ := h.fits_scale hl hk
    obtain ⟨hx, hkfit⟩ := h.divides hl hk
    have hfloat : e.isFloatExpr = false := by simp [Elem.isFloatExpr, h.not_float, hk]
    have hback : (n * e.factor).tdiv k = n := by
      rw [hfac]
      exact Int.mul_tdiv_cancel n (by omega)
    obtain ⟨b, hb, hlit⟩ := CInt.lit_is hkfit
    obtain ⟨q, hq, hqis⟩ := CInt.div_exact (a := ⟨if !e.isSigned && e.size = 4 then .uint else .int,
        n * e.factor⟩) ⟨rfl, hx, Or.inr rfl⟩ hlit (by omega) (fits_tdiv hx h1)
    rw [if_neg hplain, hfloat, hstored, h.word hl, hk]
    simp only [Bool.false_eq_true, if_false, Num.toInt, hb, hq, Option.bind_eq_bind,
      Option.bind_some, Option.pure_def, hqis.1, hback]
    rw [assign_eq h.member rfl]

/-- The constant of an aligned enum is its byte. -/
theorem EnumConstant.nonneg (h : EnumConstant e c) (hl : e.Leaf rnd ctx false)
    (hctx : ctx.EnumsLaid) : 0 ≤ c := by
  obtain ⟨t, _, _, hd, _, i, hi, rfl⟩ := h.variant hl hctx
  split
  next hr => exact ((hd hr).byte _ (List.getElem_mem hi)).1
  next => exact Int.natCast_nonneg i

/-- **An aligned leaf is read back**, from as many bytes as it has. -/
theorem native_readBack {s : Bool} (hl : InSchema rnd ctx false s e) (hctx : ctx.EnumsLaid)
    (h : NativeLeaf e v) :
    ∃ bs, alignedLeaf fl s e.size e v = some bs ∧ bs.length = e.size ∧
      AlignDecoder.loadSize e.size e = some e.size ∧ alignedUnleaf fl s e bs = some v := by
  cases h with
  | bool b hb hs =>
    have hsize := byte_size hl.leaf hs (Or.inl hb)
    refine ⟨[if b then 1 else 0], by simp [alignedLeaf, hs, hb], hsize.symm,
      by simp [AlignDecoder.loadSize, hs, hb, hsize], ?_⟩
    cases b <;> simp [alignedUnleaf, hs, hb, ofLeBytes]
  | enum c hc hlt =>
    have hsize := byte_size hl.leaf hc.not_string (Or.inr hc.is_enum)
    have h0 := hc.nonneg hl.leaf hctx
    refine ⟨[UInt8.ofNat (toU32 c)], ?_, hsize.symm, ?_, ?_⟩
    · simp [alignedLeaf, hc.not_string, hc.not_bool, hc.is_enum]
    · simp [AlignDecoder.loadSize, hc.not_string, hc.is_enum, hsize]
    · have hbyte : ((UInt8.ofNat (toU32 c)).toNat : Int) = c := by
        rw [toU32_of_nonneg h0 (by omega), UInt8.toNat_ofNat', Nat.mod_eq_of_lt (by omega)]
        omega
      have hword : ((ofLeBytes [UInt8.ofNat (toU32 c)] : Nat) : Int) = c := hbyte
      simp only [alignedUnleaf, hc.not_string, hc.not_bool, hc.is_enum, hword,
        Bool.false_eq_true, if_false, if_true]
  | int n hn =>
    refine ⟨_, c_stores_int s (hn.native hl.leaf) hl.leaf, leBytes_length _ _, ?_,
      native_readBack_int s hn hl.leaf⟩
    simp [AlignDecoder.loadSize, hn.not_string, hn.not_bool, hn.not_enum]
  | str bs hs hlen =>
    have hscalar := scalar_of_string hl hs
    have hsize := string_size hl.leaf hs
    rw [hlen, Option.getD_some] at hsize
    refine ⟨bs, by simp [alignedLeaf, hs, hlen, hscalar], hsize.symm, ?_,
      by simp [alignedUnleaf, hs, hscalar]⟩
    rw [AlignDecoder.loadSize, if_pos hs, hlen, hsize]

end Leaf

/-! ## Whole messages -/

section Whole

variable {rnd : Rat → Rat} {ctx : Context} {fl : FloatExprs} {scope : Scope} {name : String}
  {t : TypeDef} {v : Value} {cs : List Chunk}

theorem encode_packed (ht : scope.lookup name = some t) (hpk : t.isPacked = true) :
    encode fl scope name = (lang fl).encode scope name := by
  funext v
  rw [encode, ht, Option.bind_eq_bind, Option.bind_some, if_pos hpk]

theorem decode_packed (ht : scope.lookup name = some t) (hpk : t.isPacked = true) :
    decode fl scope name = (lang fl).decode scope name := by
  funext buf
  rw [decode, ht, Option.bind_eq_bind, Option.bind_some, if_pos hpk]

theorem packed_roundTrip (hacc : scope.Accepted rnd ctx) (hctx : ctx.EnumsLaid)
    (ht : scope.lookup name = some t) (hpk : t.isPacked = true) (hsize : t.total < 4294967296)
    (hlay : layout scope name v = some cs) (hnarrow : ∀ c ∈ cs, c.Narrow)
    (hleaves : AllLeaves (fun _ e v => PackedLeaf e v) cs) :
    ∃ bytes, (lang fl).encode scope name v = some bytes ∧
      (lang fl).decode scope name bytes = some v := by
  have hschema := layout_leaves scope name t ht hacc hpk hlay
  have hread : ∀ s e v, Chunk.leaf s e v ∈ cs → ∃ x, step fl s e v = some x ∧
      unstep fl s e (x % 2 ^ e.size) = some v := fun s e v hl =>
    packed_readBack s (hschema s e v hl) hctx (hnarrow _ hl) (hleaves s e v hl)
  have hpacks : (lang fl).Packs (fun s e v => (step fl s e v).getD 0) cs := by
    refine ⟨hnarrow, fun s e v hl => ?_⟩
    obtain ⟨x, hx, _⟩ := hread s e v hl
    show step fl s e v = _
    rw [hx, Option.getD_some]
  refine ⟨_, encode_eq lang_lawful hacc ht hpk hlay hpacks hsize, ?_⟩
  rw [decode_eq lang_lawful hacc ht hpk hlay hnarrow hsize, mapLeaves_eq_self_iff hlay]
  intro s e v hl
  obtain ⟨x, hx, hback⟩ := hread s e v hl
  show unstep fl s e ((step fl s e v).getD 0 % 2 ^ e.size) = some v
  rw [hx, Option.getD_some, hback]

theorem aligned_roundTrip (hacc : scope.Accepted rnd ctx) (hctx : ctx.EnumsLaid)
    (hstr : StringsSized scope) (ht : scope.lookup name = some t) (hpk : t.isPacked = false)
    (hsize : t.total < 4294967296) (hlay : layout scope name v = some cs)
    (htags : ∀ c ∈ cs, c.TagFits) (hleaves : AllLeaves (fun _ e v => NativeLeaf e v) cs) :
    ∃ bytes, (alignLang fl).encodeInPlace scope name v = some bytes ∧
      (alignDecoder fl).decodeInPlace scope name bytes = some v := by
  have hschema := layout_inSchema scope name t ht hacc hpk hlay
  have hread : ∀ s e v, Chunk.leaf s e v ∈ cs → ∃ bs, alignedLeaf fl s e.size e v = some bs ∧
      bs.length = e.size ∧ AlignDecoder.loadSize e.size e = some e.size ∧
      alignedUnleaf fl s e bs = some v := fun s e v hl =>
    native_readBack (hschema s e v hl) hctx (hleaves s e v hl)
  have hstores : (alignLang fl).Stores
      (fun s e v => (alignedLeaf fl s e.size e v).getD []) cs := by
    refine ⟨fun s e v hl => ?_, fun _ _ _ => rfl⟩
    obtain ⟨bs, hbs, hlen, _⟩ := hread s e v hl
    refine ⟨bs, hbs, le_of_eq hlen, ?_⟩
    rw [hbs, Option.getD_some, padTo_of_length hlen]
  have hload : AlignDecoder.Loads (fun s e v => (alignedLeaf fl s e.size e v).getD []) cs := by
    intro s e v hl
    obtain ⟨bs, hbs, hlen, hsz, _⟩ := hread s e v hl
    refine ⟨?_, hsz⟩
    show ((alignedLeaf fl s e.size e v).getD []).length = e.size
    rw [hbs, Option.getD_some, hlen]
  refine ⟨_, encodeInPlace_eq alignLang_advances alignLang_add alignLang_running hacc hstr ht hpk
    hlay hstores hsize, ?_⟩
  rw [@decodeInPlace_eq (alignDecoder fl) rnd ctx scope _ _ name t v cs alignLang_advances
    alignLang_add alignLang_running hacc hstr ht hpk hlay htags hload hsize,
    mapLeaves_eq_self_iff hlay]
  intro s e v hl
  obtain ⟨bs, hbs, _, _, hback⟩ := hread s e v hl
  show alignedUnleaf fl s e ((alignedLeaf fl s e.size e v).getD []) = some v
  rw [hbs, Option.getD_some, hback]

/-- **What C encodes, C decodes.** -/
theorem decode_encode_self {schema : SchemaDecl} {data : Data}
    (hproc : processSchema rnd schema = .ok data) (hval : validateSchema rnd data = [])
    (hstr : StringsSized data.types) {name : String} {t : TypeDef}
    (ht : data.types.lookup name = some t) (hsize : t.total < 4294967296) {v : Value}
    {cs : List Chunk} (hlay : layout data.types name v = some cs)
    (hparts : ∀ c ∈ cs, PartFits t.isPacked c)
    (hleaves : AllLeaves (fun _ e v => Sendable t.isPacked e v) cs) :
    ∃ bytes, encode fl data.types name v = some bytes ∧
      decode fl data.types name bytes = some v := by
  obtain ⟨ctx, hacc⟩ := accepted hproc hval
  cases hpk : t.isPacked with
  | true =>
    rw [hpk] at hparts hleaves
    rw [encode_packed ht hpk, decode_packed ht hpk]
    exact packed_roundTrip hacc.types hacc.enums ht hpk hsize hlay hparts hleaves
  | false =>
    rw [hpk] at hparts hleaves
    simp only [encode, decode, ht, hpk, Option.bind_eq_bind, Option.bind_some, Bool.false_eq_true,
      if_false]
    exact aligned_roundTrip hacc.types hacc.enums hstr ht hpk hsize hlay hparts hleaves

end Whole

section Examples

theorem processed_eq {schema : SchemaDecl} (h : (processSchema id schema).toOption.isSome = true) :
    processSchema id schema = .ok (processed schema) := by
  unfold processed
  cases hp : processSchema id schema with
  | ok d => rfl
  | error e => rw [hp] at h; cases h

/-- A packed packet and an aligned room come back. -/
theorem decode_encode_self_packet_room :
    (∃ bytes, encode noFloats thermostatData.types "Datum" (.struct [.int 3, .union 2 (.enum 9)])
        = some bytes ∧
      decode noFloats thermostatData.types "Datum" bytes
        = some (.struct [.int 3, .union 2 (.enum 9)])) ∧
    ∃ bytes, encode noFloats climateData.types "Fan" (.struct [.enum 9, .int 30]) = some bytes ∧
      decode noFloats climateData.types "Fan" bytes = some (.struct [.enum 9, .int 30]) :=
  ⟨@decode_encode_self id noFloats thermostat thermostatData thermostat_ok thermostat_valid
      (by decide +kernel) "Datum" _ rfl (by decide +kernel) _ _ rfl (by decide +kernel)
      (by decide +kernel),
    @decode_encode_self id noFloats climate climateData climate_ok climate_valid
      (by decide +kernel) "Fan" _ rfl (by decide +kernel) _ _ rfl (by decide +kernel)
      (by decide +kernel)⟩

/-- An aligned enum with 257 variants. -/
def crowded : SchemaDecl where
  enums := [("Code", { variants := (List.range 257).map fun i => .plain (toString i) })]
  structs :=
    [("Report", { encoding := some "aligned", fields := [{ name := "code", type := "Code" }] })]

def crowdedData : Data := processed crowded

theorem crowded_ok : processSchema id crowded = .ok crowdedData :=
  processed_eq (by decide +kernel)

theorem crowded_valid : validateSchema id crowdedData = [] := by decide +kernel

theorem table_unpack (L : PackLang) (buf : List UInt8) :
    ∃ s f, L.unpack wideData.types "Table" buf 0
        = (L.reader (L.unpack wideData.types.tail) (L.add 0) buf).type (.struct s) ∧
      s.fields = [f] ∧ f.isArray = true ∧ f.arrayLen = 5 ∧ f.offset = 0 ∧ f.elem = slotElem :=
  ⟨_, _, rfl, rfl, rfl, rfl, rfl, rfl⟩

theorem slot_unpack (L : PackLang) (buf : List UInt8) (base : Nat) :
    ∃ s body used, L.unpack wideData.types.tail "Slot" buf base
        = (L.reader (L.unpack wideData.types.tail.tail) (L.add base) buf).type (.struct s) ∧
      s.fields = [body, used] ∧ used.isArray = false ∧ used.isOptional = false ∧
      used.offset = 1073741823 ∧ used.elem = usedElem ∧ used.size = 1 :=
  ⟨_, _, _, rfl, rfl, rfl, rfl, rfl, rfl, rfl⟩

/-- C finds the flag of the first slot set. -/
theorem wide_decode {fl : FloatExprs} {buf : List UInt8} (hlen : buf.length = 671088640)
    (hbit : bitAt buf 1073741823 = true) :
    (lang fl).decode wideData.types "Table" buf ≠ some wideValue := by
  obtain ⟨table, hlook, _, hflat⟩ := wide_lookup
  obtain ⟨t, f, htable, hfields, harr', hcount, hoff, helem⟩ := table_unpack (lang fl) buf
  obtain ⟨s, body, used, hslot, hslots, harr, hopt, huoff, huelem, husize⟩ :=
    slot_unpack (lang fl) buf 0
  intro h
  have hread : (lang fl).unpackBits buf 1073741823 1 = some 1 := by
    rw [lang_lawful.unpackBits_eq (by decide) (by decide) (by rw [hlen]; decide)]
    simp [bitsAt, hbit, ofBits]
  have hused : ((lang fl).reader ((lang fl).unpack wideData.types.tail.tail) ((lang fl).add 0)
      buf).field used = some (.bool true) := by
    have hadd : (lang fl).add 0 1073741823 = some 1073741823 := rfl
    have hleaf : usedElem.isNested = false := rfl
    have hwidth : PackLang.leafWidth usedElem 1 = 1 := rfl
    simp only [Reader.field, harr, hopt, huoff, huelem, husize, PackLang.reader, hadd, hleaf,
      hwidth, hread, Option.bind_eq_bind, Option.bind_some, Bool.false_eq_true, if_false]
    rfl
  simp only [PackLang.decode, hlook, Option.bind_eq_bind, Option.bind_some, hflat,
    Bool.false_eq_true, if_false, htable, Reader.type, hfields, Reader.fields, Reader.field, harr',
    hcount, if_true, Reader.array, Option.bind_eq_some_iff, Option.pure_def, Option.some.injEq,
    wideValue, Value.struct.injEq] at h
  obtain ⟨_, ⟨_, ⟨_, ⟨v, hv, _, _, rfl⟩, rfl⟩, _, _, rfl⟩, hvs⟩ := h
  have hfirst : (lang fl).unpack wideData.types.tail "Slot" buf 0 = some (slot false) := by
    rw [hoff, helem] at hv
    cases hvs
    exact hv
  simp only [hslot, Reader.type, hslots, Reader.fields, hused, Option.bind_eq_bind,
    Option.bind_eq_some_iff, Option.pure_def, Option.some.injEq, slot, Value.struct.injEq] at hfirst
  obtain ⟨_, ⟨_, _, _, ⟨_, rfl, _, rfl, rfl⟩, rfl⟩, hu⟩ := hfirst
  cases hu

/-- The one field of a report has this value. -/
def reports (c : Int) : Value → Bool
  | .struct [.enum c'] => c' = c
  | _ => false

/-- Variant 256 of the enum goes out as 0, and above `2 ^ 32` bits the flag of the last slot
comes back as the flag of the first one. -/
theorem decode_encode_loses :
    (processSchema id crowded = .ok crowdedData ∧ validateSchema id crowdedData = [] ∧
      encode noFloats crowdedData.types "Report" (.struct [.enum 256]) = some [0] ∧
      decode noFloats crowdedData.types "Report" [0] ≠ some (.struct [.enum 256])) ∧
    (processSchema id wide = .ok wideData ∧ validateSchema id wideData = [] ∧
      ∃ bytes, encode noFloats wideData.types "Table" wideValue = some bytes ∧
        decode noFloats wideData.types "Table" bytes ≠ some wideValue) := by
  refine ⟨⟨crowded_ok, crowded_valid, by decide +kernel, fun h => ?_⟩, wide_ok, wide_valid, ?_⟩
  · have hfirst : (decode noFloats crowdedData.types "Report" [0]).any (reports 256) = false := by
      decide +kernel
    rw [h] at hfirst
    cases hfirst
  · obtain ⟨table, htable, hpk⟩ : ∃ t, wideData.types.lookup "Table" = some t ∧
        t.isPacked = true := ⟨_, rfl, rfl⟩
    obtain ⟨buf, hlen, _, henc⟩ := wide_encode_c noFloats
    rw [encode_packed htable hpk, decode_packed htable hpk]
    refine ⟨_, henc, wide_decode (by rw [setBit_length, hlen]) ?_⟩
    rw [bitAt_setBit (by omega), beq_self_eq_true, Bool.or_true]

end Examples

end ProtoEmb.Codec.C
