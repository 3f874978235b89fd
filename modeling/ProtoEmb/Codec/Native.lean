import ProtoEmb.Codec.Aligned
import ProtoEmb.Codec.Logical

/-!
# The aligned codec in the three languages

What `protocol.c.j2`, `protocol.rs.j2` and `protocol.ts.j2` store for a leaf of an aligned type: C
copies the memory of the
member (of a little-endian device), Rust narrows its `i32` or `u32` and calls
`to_le_bytes`, TypeScript writes through a `DataView`. A field with a scale is
multiplied first; `min` is not used, since an aligned field has its full native width.

An enum is one byte. Rust stores the index of the variant. C and TypeScript store the
constant, which for a remap enum is the semantic value: the tables of the packed
codec are not used here.

`AlignedLeaf` describes the leaves the three have in common; `documentedBytes` is what
Rust stores for them (`rust_stores`) and `valueBytes` what C and TypeScript store
(`c_stores`, `ts_stores`).
-/

namespace ProtoEmb.Codec

open ProtoEmb.Lib ProtoEmb.Schema

/-! ## Leaves -/

namespace C

/-- The bytes of a field or element: `c_encode_leaf`, and the same statements inline. -/
def alignedLeaf (fl : FloatExprs) (scalar : Bool) (width : Nat) (e : Elem) (v : Value) :
    Option (List UInt8) :=
  if e.isString then
    -- a `char` array of `max_length`
    match scalar, v, e.maxLength with
    | true, .str bs, some n => if bs.length = n then some bs else none
    | _, _, _ => none
  else if e.isBool then
    match v with
    | .bool b => some [if b then 1 else 0]
    | _ => none
  else if e.isEnum then
    match v with
    | .enum c => some [UInt8.ofNat (toU32 c)]
    | _ => none
  else if e.rawStorage || !e.hasScale then
    match v, e.isFloat with
    | .int n, false => if MemberFits e.type n then some (leBytes width (toU32 n)) else none
    | .float bits, true => some (leBytes width bits.toNat)
    | _, _ => none
  else if e.isFloatExpr then (fl.scaled e v).map (leBytes width)
  else
    match v with
    | .int n => do
      let s ← CInt.op (· * ·) (← operand e.type n) (← CInt.lit e.scale.toInt)
      -- the conversion to the native type keeps the low bytes
      return leBytes width (toU32 s.val)
    | _ => none

/-- The aligned codec of `protocol.c.j2`. The base and the running offset are `uint32_t`.
A literal of 2³² or more is a 64-bit constant, and so is its sum with the base. -/
def alignLang (fl : FloatExprs) : AlignLang where
  add base off :=
    if off < 4294967296 then some ((base + off) % 4294967296)
    else some (base % 4294967296 + off)
  running off := some (off % 4294967296)
  tagByte index := some (UInt8.ofNat index)
  leaf := alignedLeaf fl
  advance _ f :=
    if f.isArray || f.isOptional then some f.size
    else if f.elem.isString then f.elem.maxLength
    else if f.elem.isBool || f.elem.isEnum then some 1
    else some f.size

end C

namespace Rust

/-- `(val as i8) as u8`, `(val as u16).to_le_bytes()`, `val.to_le_bytes()` and so on. -/
def nativeBytes (width : Nat) (n : Int) : Option (List UInt8) :=
  if width = 1 ∨ width = 2 ∨ width = 4 then some (leBytes width (toU32 n)) else none

/-- The bytes of a field or element: `rs_aligned_encode_leaf`, and the same statements
inline. -/
def alignedLeaf (scalar : Bool) (width : Nat) (e : Elem) (v : Value) : Option (List UInt8) :=
  if e.isString then
    match scalar, v, e.maxLength with
    | true, .str bs, some n => some (bs.take n)
    | _, _, _ => none
  else if e.isBool then
    match v with
    | .bool b => some [if b then 1 else 0]
    | _ => none
  else if e.isEnum then
    match v, e.enum with
    | .enum i, some t => (toWire t i).map fun x => [UInt8.ofNat x]
    | _, _ => none
  else
    match v, e.isFloat with
    | .int n, false =>
      if Fits (!e.isSigned) n then
        if e.rawStorage || !e.hasScale then nativeBytes width n
        else (mulScale (!e.isSigned) e n).bind (nativeBytes width)
      else none
    | .float bits, true =>
      -- `f32::to_le_bytes`; there is no `f32::wrapping_mul`
      if (e.rawStorage || !e.hasScale) && width = 4 then some (leBytes 4 bits.toNat) else none
    | _, _ => none

/-- The aligned codec of `protocol.rs.j2`; offsets are `usize`. A tag is a `u8` literal. -/
def alignLang : AlignLang where
  add base off := some (base + off)
  running off := some off
  tagByte index := if index < 256 then some (UInt8.ofNat index) else none
  leaf := alignedLeaf
  advance wire f :=
    if f.isArray then some (f.arrayLen * f.elem.size)
    else if f.isOptional then some (1 + f.elem.size)
    else if f.elem.isNested then some (wire f.elem.type)
    else if f.elem.isString then f.elem.maxLength
    else if f.elem.isBool || f.elem.isEnum then some 1
    else some f.size

end Rust

namespace TypeScript

/-- The bytes of a field or element: `ts_aligned_encode_leaf`, and the same statements
inline. A `DataView` stores one, two or four bytes. -/
def alignedLeaf (rnd : Rat → Rat) (scalar : Bool) (width : Nat) (e : Elem) (v : Value) :
    Option (List UInt8) :=
  if e.isString then
    match scalar, v, e.maxLength with
    | true, .str bs, some n => some (bs.take n)
    | _, _, _ => none
  else if e.isBool then
    match v with
    | .bool b => some [if b then 1 else 0]
    | _ => none
  else if e.isEnum then
    match v with
    | .enum c => some [UInt8.ofNat (toU32 c)]
    | _ => none
  else
    match v with
    | .num q =>
      let x := toU32 (mathRound (rnd (q * e.scale.toFloat rnd)))
      some (leBytes (if width = 1 then 1 else if width = 2 then 2 else 4) x)
    | _ => none

/-- The aligned codec of `protocol.ts.j2`. -/
def alignLang (rnd : Rat → Rat) : AlignLang where
  add base off := some (base + off)
  running off := some off
  tagByte index := some (UInt8.ofNat index)
  leaf := alignedLeaf rnd
  advance wire f :=
    if f.isArray || f.isOptional then some f.size
    else if f.elem.isNested then some (wire f.elem.type)
    else if f.elem.isString then f.elem.maxLength
    else if f.elem.isBool || f.elem.isEnum then some 1
    else some f.size

end TypeScript

/-! ## Sizes -/

section Size

variable {rnd : Rat → Rat} {ctx : Context} {e : Elem}

/-- A string has its maximal length, 16 bytes if the schema gives none. -/
theorem string_size (hl : e.Leaf rnd ctx false) (hs : e.isString = true) :
    e.size = e.maxLength.getD 16 := by
  obtain ⟨f, raw, hmade, hsize⟩ := hl.made
  have htype : f.type = "string" := by
    rw [hmade] at hs
    exact of_decide_eq_true hs
  have hlen : e.maxLength = f.maxLength := by rw [hmade]; rfl
  rw [hsize, Context.leafSize, if_neg Bool.false_ne_true, fieldByteSize, if_pos htype, hlen]

/-- A bool or an enum has one byte. -/
theorem byte_size (hl : e.Leaf rnd ctx false) (hs : e.isString = false)
    (h : e.isBool = true ∨ e.isEnum = true) : e.size = 1 := by
  obtain ⟨f, raw, hmade, hsize⟩ := hl.made
  rw [hmade] at hs h
  have hstr : ¬ f.type = "string" := of_decide_eq_false hs
  rw [hsize, Context.leafSize, if_neg Bool.false_ne_true, fieldByteSize, if_neg hstr]
  rcases h with hb | he
  · have htype : f.type = "bool" := of_decide_eq_true hb
    rw [htype]
    split <;> rfl
  · have hsome : (ctx.enums.lookup f.type).isSome = true := he
    rw [if_pos hsome]

/-- A number has the size of its native type. -/
theorem number_size (hl : e.Leaf rnd ctx false) (hs : e.isString = false)
    (hb : e.isBool = false) (he : e.isEnum = false) : e.size = typeSize e.type := by
  obtain ⟨f, raw, hmade, hsize⟩ := hl.made
  have htype : e.type = f.type := by rw [hmade]; rfl
  rw [hmade] at hs hb he
  have hstr : ¬ f.type = "string" := of_decide_eq_false hs
  have hbool : ¬ f.type = "bool" := of_decide_eq_false hb
  have henum : ¬ (ctx.enums.lookup f.type).isSome = true := by
    have hnone : (ctx.enums.lookup f.type).isSome = false := he
    rw [hnone]
    decide
  rw [hsize, htype, Context.leafSize, if_neg Bool.false_ne_true, fieldByteSize, if_neg hstr,
    if_neg henum, if_neg hbool]

/-- The room of a field that is neither an array nor optional. -/
theorem scalar_size {scope : Scope} {off : Nat} {f : Field}
    (hf : f.Laid rnd ctx scope false off) (ha : f.isArray = false) (ho : f.isOptional = false) :
    f.size = f.elem.size := by
  rw [hf.size_eq, Field.flagSize, ho, hf.single ha]
  simp

/-- An optional has one byte for its flag. -/
theorem optional_size {scope : Scope} {off : Nat} {f : Field}
    (hf : f.Laid rnd ctx scope false off) (ha : f.isArray = false) (ho : f.isOptional = true) :
    f.size = 1 + f.elem.size := by
  rw [hf.size_eq, Field.flagSize, ho, hf.single ha]
  simp

/-- An array is as large as its elements together. -/
theorem array_size {scope : Scope} {off : Nat} {f : Field} (hf : f.Laid rnd ctx scope false off)
    (hv : f.Valid) (ha : f.isArray = true) : f.size = f.arrayLen * f.elem.size := by
  have hopt : f.isOptional = false := by
    rw [hf.optional_eq]
    exact (hv.array (hf.array_eq ▸ ha)).1
  rw [hf.size_eq, Field.flagSize, hopt, Nat.mul_comm]
  simp

/-- The running offset of a field that is not nested, neither an array nor optional. -/
theorem scalar_advance {scope : Scope} {off : Nat} {f : Field}
    (hf : f.Laid rnd ctx scope false off) (hstr : f.elem.isString = true →
      f.elem.maxLength.isSome = true) (ha : f.isArray = false) (ho : f.isOptional = false)
    (hn : f.elem.isNested = false) :
    (if f.elem.isString then f.elem.maxLength
      else if f.elem.isBool || f.elem.isEnum then some 1 else some f.size) = some f.size := by
  have hl := hf.elem.leaf hn
  rw [scalar_size hf ha ho]
  by_cases hs : f.elem.isString = true
  · obtain ⟨n, hn⟩ := Option.isSome_iff_exists.mp (hstr hs)
    rw [if_pos hs, string_size hl hs, hn]
    rfl
  · rw [if_neg hs]
    split
    next h =>
      rw [Bool.or_eq_true] at h
      rw [byte_size hl (by simpa using hs) h]
    next => rfl

end Size

section Advance

variable {fl : C.FloatExprs} {js : Rat → Rat}

/-- Below `2 ^ 32` C's offsets are exact. -/
theorem C.alignLang_add (base off : Nat) (h : base + off < 4294967296) :
    (C.alignLang fl).add base off = some (base + off) := by
  show (if off < 4294967296 then some ((base + off) % 4294967296) else _) = _
  rw [if_pos (by omega), Nat.mod_eq_of_lt h]

/-- C's running offset is a `uint32_t`, which is exact below `2 ^ 32`. -/
theorem C.alignLang_running (off : Nat) (h : off < 4294967296) :
    (C.alignLang fl).running off = (C.alignLang fl).add 0 off := by
  rw [C.alignLang_add 0 off (by omega), Nat.zero_add]
  show some (off % 4294967296) = _
  rw [Nat.mod_eq_of_lt h]

/-- The flat encoder of C moves on by the size of each field. -/
theorem C.alignLang_advances : (C.alignLang fl).Advances := by
  intro rnd ctx scope off f wire hf hv hstr hn
  show (if f.isArray || f.isOptional then some f.size else _) = some f.size
  split
  next => rfl
  next h =>
    rw [Bool.or_eq_true, not_or] at h
    exact scalar_advance hf hstr (by simpa using h.1) (by simpa using h.2) hn

/-- So does the one of TypeScript. -/
theorem TypeScript.alignLang_advances : (TypeScript.alignLang js).Advances := by
  intro rnd ctx scope off f wire hf hv hstr hn
  show (if f.isArray || f.isOptional then some f.size else _) = some f.size
  split
  next => rfl
  next h =>
    rw [Bool.or_eq_true, not_or] at h
    rw [hn, if_neg Bool.false_ne_true]
    exact scalar_advance hf hstr (by simpa using h.1) (by simpa using h.2) hn

/-- A nested field moves it on by the `WIRE_SIZE` of its type. -/
theorem TypeScript.alignLang_advancesNested : (TypeScript.alignLang js).AdvancesNested := by
  intro rnd ctx scope off f wire hf hv hn hwire
  show (if f.isArray || f.isOptional then some f.size else _) = some f.size
  split
  next => rfl
  next h =>
    rw [Bool.or_eq_true, not_or] at h
    rw [hwire, scalar_size hf (by simpa using h.1) (by simpa using h.2)]

/-- So does the one of Rust. -/
theorem Rust.alignLang_advances : Rust.alignLang.Advances := by
  intro rnd ctx scope off f wire hf hv hstr hn
  show (if f.isArray then some (f.arrayLen * f.elem.size) else _) = some f.size
  by_cases ha : f.isArray = true
  · rw [if_pos ha, array_size hf hv ha]
  · have ha' : f.isArray = false := by simpa using ha
    rw [if_neg ha]
    by_cases ho : f.isOptional = true
    · rw [if_pos ho, optional_size hf ha' ho]
    · rw [if_neg ho, hn, if_neg Bool.false_ne_true]
      exact scalar_advance hf hstr ha' (by simpa using ho) hn

/-- A nested field likewise. -/
theorem Rust.alignLang_advancesNested : Rust.alignLang.AdvancesNested := by
  intro rnd ctx scope off f wire hf hv hn hwire
  show (if f.isArray then some (f.arrayLen * f.elem.size) else _) = some f.size
  by_cases ha : f.isArray = true
  · rw [if_pos ha, array_size hf hv ha]
  · have ha' : f.isArray = false := by simpa using ha
    rw [if_neg ha]
    by_cases ho : f.isOptional = true
    · rw [if_pos ho, optional_size hf ha' ho]
    · rw [if_neg ho, if_pos hn, hwire, scalar_size hf ha' (by simpa using ho)]

/-- A string moves the offset by its maximal length, in either language. -/
theorem TypeScript.alignLang_sizesStrings : (TypeScript.alignLang js).SizesStrings := by
  intro s k e v x h hs
  have h' : TypeScript.alignedLeaf js s k e v = some x := h
  unfold TypeScript.alignedLeaf at h'
  rw [if_pos hs] at h'
  split at h'
  next hn => rw [hn]; rfl
  next => cases h'

theorem Rust.alignLang_sizesStrings : Rust.alignLang.SizesStrings := by
  intro s k e v x h hs
  have h' : Rust.alignedLeaf s k e v = some x := h
  unfold Rust.alignedLeaf at h'
  rw [if_pos hs] at h'
  split at h'
  next hn => rw [hn]; rfl
  next => cases h'

end Advance

/-! ## The leaves in common -/

/-- An integer leaf whose scaled value fits the native width, in C and in Rust. -/
structure NativeInt (e : Elem) (n : Int) : Prop where
  not_bool : e.isBool = false
  not_enum : e.isEnum = false
  not_string : e.isString = false
  not_float : e.isFloat = false
  scale_int : ∃ k, e.scale = .int k ∧ Fits (!e.isSigned) k
  member : C.MemberFits e.type n
  rust : Fits (!e.isSigned) n
  c_exact : Fits (C.isUnsigned e.type) (n * e.factor)
  scaled : if e.isSigned then -2 ^ (8 * e.size - 1) ≤ n * e.factor ∧
      n * e.factor < 2 ^ (8 * e.size - 1)
    else 0 ≤ n * e.factor ∧ n * e.factor < 2 ^ (8 * e.size)

instance (e : Elem) (n : Int) : Decidable (NativeInt e n) :=
  decidable_of_iff (e.isBool = false ∧ e.isEnum = false ∧ e.isString = false ∧
      e.isFloat = false ∧ (∃ k ∈ some e.scale.toInt, e.scale = .int k ∧
        Fits (!e.isSigned) k) ∧ C.MemberFits e.type n ∧ Fits (!e.isSigned) n ∧
      Fits (C.isUnsigned e.type) (n * e.factor) ∧
      if e.isSigned then -2 ^ (8 * e.size - 1) ≤ n * e.factor ∧
        n * e.factor < 2 ^ (8 * e.size - 1)
      else 0 ≤ n * e.factor ∧ n * e.factor < 2 ^ (8 * e.size)) <| by
    constructor
    · rintro ⟨hb, he, hs, hf, ⟨k, _, hk⟩, hm, hr, hc, hn⟩
      exact ⟨hb, he, hs, hf, ⟨k, hk⟩, hm, hr, hc, hn⟩
    · intro h
      obtain ⟨k, hk, hfit⟩ := h.scale_int
      exact ⟨h.not_bool, h.not_enum, h.not_string, h.not_float, ⟨k, by rw [hk]; rfl, hk, hfit⟩,
        h.member, h.rust, h.c_exact, h.scaled⟩

/-- The leaves of the aligned codecs. -/
inductive AlignedLeaf (e : Elem) : Value → Prop
  | bool (b : Bool) : e.isBool = true → e.isString = false → AlignedLeaf e (.bool b)
  | enum (i : Int) : EnumLeaf e i → AlignedLeaf e (.enum i)
  | int (n : Int) : NativeInt e n → AlignedLeaf e (.int n)
  | str (bs : List UInt8) (n : Nat) : e.isString = true → e.maxLength = some n → bs.length ≤ n →
    AlignedLeaf e (.str bs)

instance (e : Elem) : (v : Value) → Decidable (AlignedLeaf e v)
  | .bool b => decidable_of_iff (e.isBool = true ∧ e.isString = false)
      ⟨fun h => .bool b h.1 h.2, fun h => by cases h with | bool _ h h' => exact ⟨h, h'⟩⟩
  | .enum i => decidable_of_iff (EnumLeaf e i)
      ⟨fun h => .enum i h, fun h => by cases h with | enum _ h => exact h⟩
  | .int n => decidable_of_iff (NativeInt e n)
      ⟨fun h => .int n h, fun h => by cases h with | int _ h => exact h⟩
  | .str bs => decidable_of_iff (e.isString = true ∧ ∃ n ∈ e.maxLength, bs.length ≤ n)
      ⟨fun ⟨hs, n, hn, hle⟩ => .str bs n hs hn hle,
        fun h => by cases h with | str _ n hs hn hle => exact ⟨hs, n, hn, hle⟩⟩
  | .num _ | .float _ | .absent | .present _ | .array _ | .struct _ | .union _ _ =>
    .isFalse fun h => by cases h

/-- **The documented bytes of a leaf**: an enum is the index of its variant. -/
def documentedBytes : Bytes := fun _ e v =>
  match v with
  | .bool b => [if b then 1 else 0]
  | .enum i => [UInt8.ofNat i.toNat]
  | .int n => leBytes e.size (toU32 (n * e.factor))
  | .str bs => padTo e.size bs
  | _ => []

/-- The same with the enum's constant. -/
def valueBytes : Bytes := fun s e v =>
  match v with
  | .enum i => [UInt8.ofNat (toU32 ((e.enum.bind fun t => constant t i).getD 0))]
  | v => documentedBytes s e v

section NativeInt

variable {rnd : Rat → Rat} {ctx : Context} {e : Elem} {n : Int}

/-- Native types have 1, 2 or 4 bytes. -/
theorem typeSize_cases (type : String) :
    typeSize type = 1 ∨ typeSize type = 2 ∨ typeSize type = 4 := by
  unfold typeSize
  split
  · exact Or.inl rfl
  · split
    · exact Or.inr (Or.inl rfl)
    · exact Or.inr (Or.inr rfl)

theorem NativeInt.size_cases (h : NativeInt e n) (hl : e.Leaf rnd ctx false) :
    e.size = 1 ∨ e.size = 2 ∨ e.size = 4 := by
  rw [number_size hl h.not_string h.not_bool h.not_enum]
  exact typeSize_cases e.type

/-- The scaled value fits a word. -/
theorem NativeInt.fits (h : NativeInt e n) (hl : e.Leaf rnd ctx false) :
    Fits (!e.isSigned) (n * e.factor) := by
  have hs := h.scaled
  split at hs
  next hsg =>
    rw [hsg]
    show Fits false _
    rw [fits_signed]
    rcases h.size_cases hl with hz | hz | hz <;> rw [hz] at hs <;> norm_num at hs <;> omega
  next hsg =>
    rw [show e.isSigned = false by simpa using hsg]
    show Fits true _
    rw [fits_unsigned]
    rcases h.size_cases hl with hz | hz | hz <;> rw [hz] at hs <;> norm_num at hs <;> omega

/-- Without a multiplication the scaled value is the value. -/
theorem NativeInt.factor_one (h : NativeInt e n) (hl : e.Leaf rnd ctx false)
    (hplain : (e.rawStorage || !e.hasScale) = true) : n * e.factor = n := by
  obtain ⟨k, hk, _⟩ := h.scale_int
  rw [Bool.or_eq_true, Bool.not_eq_true'] at hplain
  unfold Elem.factor
  by_cases hraw : e.rawStorage = true
  · rw [if_pos hraw, Int.mul_one]
  · rw [if_neg hraw]
    have hs : ¬ e.hasScale = true := by
      rcases hplain with h | h
      · exact absurd h hraw
      · rw [h]
        decide
    rw [hl.hasScale_iff, not_not, hk] at hs
    have hone : k = 1 := by exact_mod_cast (show (k : Rat) = 1 from hs)
    rw [hk, hone]
    exact Int.mul_one n

/-- Where the stored number is scaled, the scale is an integer literal of the leaf's type. -/
theorem NativeInt.factor_eq (h : NativeInt e n) (hplain : (e.rawStorage || !e.hasScale) = false) :
    ∃ k, e.scale = .int k ∧ e.factor = k ∧ Fits (!e.isSigned) k := by
  obtain ⟨k, hk, hfit⟩ := h.scale_int
  rw [Bool.or_eq_false_iff] at hplain
  exact ⟨k, hk, by rw [Elem.factor, hplain.1, hk]; rfl, hfit⟩

/-- C stores the low bytes of the scaled number. -/
theorem c_stores_int {fl : C.FloatExprs} (s : Bool) (h : NativeInt e n)
    (hl : e.Leaf rnd ctx false) :
    C.alignedLeaf fl s e.size e (.int n) = some (leBytes e.size (toU32 (n * e.factor))) := by
  unfold C.alignedLeaf
  rw [h.not_string, h.not_bool, h.not_enum, h.not_float]
  simp only [Bool.false_eq_true, if_false]
  by_cases hplain : (e.rawStorage || !e.hasScale) = true
  · rw [if_pos hplain, if_pos h.member, h.factor_one hl hplain]
  · have hplain' : (e.rawStorage || !e.hasScale) = false := by simpa using hplain
    obtain ⟨k, hk, hfac, hkfit⟩ := h.factor_eq hplain'
    have hfloat : e.isFloatExpr = false := by simp [Elem.isFloatExpr, h.not_float, hk]
    obtain ⟨b, hb, _⟩ := CInt.lit_is hkfit
    have hop : C.operand e.type n
        = some ⟨if C.isUnsigned e.type then .uint else .int, n⟩ := if_pos h.member
    have hexact := h.c_exact
    rw [hfac] at hexact
    obtain ⟨c, hc⟩ : ∃ c, CInt.op (· * ·) ⟨if C.isUnsigned e.type then .uint else .int, n⟩ b
        = some c := by
      apply CInt.op_defined
      rw [CInt.lit_val hb]
      cases hu : C.isUnsigned e.type with
      | false => rw [hu] at hexact; exact Or.inl hexact
      | true => rw [hu] at hexact; exact Or.inr ⟨rfl, hexact⟩
    have hval := CInt.op_emod (fun x y => (Int.mul_emod x y _).symm) hc
    rw [CInt.lit_val hb] at hval
    rw [if_neg hplain, hfloat, hk, hfac]
    simp only [Bool.false_eq_true, if_false, hop, Num.toInt, hb, hc, Option.bind_eq_bind,
      Option.bind_some, Option.pure_def]
    rw [toU32_congr hval]

/-- So does Rust. -/
theorem rust_stores_int (s : Bool) (h : NativeInt e n) (hl : e.Leaf rnd ctx false) :
    Rust.alignedLeaf s e.size e (.int n) = some (leBytes e.size (toU32 (n * e.factor))) := by
  have hnative : ∀ m, Rust.nativeBytes e.size m = some (leBytes e.size (toU32 m)) :=
    fun m => if_pos (h.size_cases hl)
  unfold Rust.alignedLeaf
  rw [h.not_string, h.not_bool, h.not_enum, h.not_float]
  simp only [Bool.false_eq_true, if_false, if_pos h.rust]
  by_cases hplain : (e.rawStorage || !e.hasScale) = true
  · rw [if_pos hplain, hnative, h.factor_one hl hplain]
  · have hplain' : (e.rawStorage || !e.hasScale) = false := by simpa using hplain
    obtain ⟨k, hk, hfac, hkfit⟩ := h.factor_eq hplain'
    have hscale : e.hasScale = true := by
      rw [Bool.or_eq_false_iff] at hplain'
      simpa using hplain'.2
    have hfit := h.fits hl
    rw [hfac] at hfit
    have hmul : Rust.mulScale (!e.isSigned) e n = some (n * k) := by
      rw [Rust.mulScale, if_pos hscale, Rust.scaleLit, hk]
      simp only [Rust.lit_eq hkfit, Option.bind_eq_bind, Option.bind_some,
        Rust.wrapping_eq hfit, Option.pure_def]
    rw [if_neg hplain, hmul, Option.bind_some, hnative, hfac]

/-- And TypeScript, whose product is exact in a double. -/
theorem ts_stores_int {js : Rat → Rat} (hjs : TypeScript.RoundsDouble js) (s : Bool)
    (h : NativeInt e n) (hl : e.Leaf rnd ctx false) (hraw : e.rawStorage = false) :
    TypeScript.alignedLeaf js s e.size e (.num n)
      = some (leBytes e.size (toU32 (n * e.factor))) := by
  obtain ⟨k, hk, hkfit⟩ := h.scale_int
  have hfac : e.factor = k := by rw [Elem.factor, hraw, hk]; rfl
  have hfit := h.fits hl
  rw [hfac] at hfit
  have hwidth : (if e.size = 1 then 1 else if e.size = 2 then 2 else 4) = e.size := by
    rcases h.size_cases hl with hz | hz | hz <;> rw [hz] <;> rfl
  have hk' : e.scale.toFloat js = k := by
    rw [hk]
    exact hjs.fits hkfit
  have hprod : js ((n : Rat) * k) = ((n * k : Int) : Rat) := by
    have hcast : (n : Rat) * k = ((n * k : Int) : Rat) := by push_cast; rfl
    rw [hcast, hjs.fits hfit]
  unfold TypeScript.alignedLeaf
  rw [h.not_string, h.not_bool, h.not_enum]
  simp only [Bool.false_eq_true, if_false, hwidth, hk', hprod, TypeScript.mathRound_int, hfac]

end NativeInt

/-! ## What is stored -/

section Stores

variable {rnd js : Rat → Rat} {ctx : Context} {e : Elem} {v : Value} {s : Bool}

/-- The bytes of a leaf take its size. -/
theorem documentedBytes_length (hl : InSchema rnd ctx false s e) (h : AlignedLeaf e v) :
    (documentedBytes s e v).length = e.size := by
  cases h with
  | bool b hb hs => exact (byte_size hl.leaf hs (Or.inl hb)).symm
  | enum i hi => exact (byte_size hl.leaf hi.not_string (Or.inr hi.is_enum)).symm
  | int n hn => exact leBytes_length _ _
  | str bs n hs hn hle =>
    have hsize := string_size hl.leaf hs
    rw [hn, Option.getD_some] at hsize
    exact padTo_length (by omega)

/-- What C and TypeScript store fills the room of the leaf. -/
theorem valueBytes_length (hl : InSchema rnd ctx false s e) (h : AlignedLeaf e v) :
    (valueBytes s e v).length = e.size := by
  have hlen := documentedBytes_length hl h
  cases h with
  | enum i hi => exact hlen
  | _ => exact hlen

/-- A string is a field of its own. -/
theorem scalar_of_string (hl : InSchema rnd ctx false s e) (hs : e.isString = true) : s = true := by
  cases s with
  | true => rfl
  | false =>
    rw [hl.not_string rfl] at hs
    cases hs

/-- Rust stores the documented bytes of a leaf, with zeros behind a short string. -/
theorem rust_stores (hl : InSchema rnd ctx false s e) (h : AlignedLeaf e v) :
    ∃ x, Rust.alignedLeaf s e.size e v = some x ∧ x.length ≤ e.size ∧
      documentedBytes s e v = padTo e.size x := by
  have hlen := documentedBytes_length hl h
  cases h with
  | bool b hb hs =>
    refine ⟨[if b then 1 else 0], by simp [Rust.alignedLeaf, hs, hb], le_of_eq hlen, ?_⟩
    exact (padTo_of_length hlen).symm
  | enum i hi =>
    obtain ⟨t, ht, h0, hlt, h256⟩ := hi.table
    have hwire : Rust.toWire t i = some i.toNat := if_pos ⟨h256, h0, hlt⟩
    refine ⟨[UInt8.ofNat i.toNat], ?_, le_of_eq hlen, (padTo_of_length hlen).symm⟩
    simp [Rust.alignedLeaf, hi.not_string, hi.not_bool, hi.is_enum, ht, hwire]
  | int n hn => exact ⟨_, rust_stores_int s hn hl.leaf, le_of_eq hlen, (padTo_of_length hlen).symm⟩
  | str bs n hs hn hle =>
    have hscalar := scalar_of_string hl hs
    have hsize := string_size hl.leaf hs
    rw [hn, Option.getD_some] at hsize
    refine ⟨bs, ?_, by omega, rfl⟩
    simp [Rust.alignedLeaf, hs, hn, hscalar, List.take_of_length_le hle]

/-- The constant of an enum leaf, as a byte. -/
theorem EnumLeaf.constant_isSome {i : Int} (hi : EnumLeaf e i) (hl : e.Leaf rnd ctx false)
    (hctx : ctx.EnumsLaid) : ∃ c, (e.enum.bind fun t => constant t i) = some c := by
  obtain ⟨t, ht, hlaid, h0, hlt, _, _⟩ := hi.laid hl hctx
  obtain ⟨_, hc⟩ := constant_eq hlaid h0 hlt
  exact ⟨_, by rw [ht, Option.bind_some, hc]⟩

/-- C stores the bytes of its own constant. -/
theorem c_stores {fl : C.FloatExprs} (hl : InSchema rnd ctx false s e) (hctx : ctx.EnumsLaid)
    (h : AlignedLeaf e v) :
    ∃ w x, toCLeaf s e v = some w ∧ C.alignedLeaf fl s e.size e w = some x ∧
      x.length ≤ e.size ∧ valueBytes s e v = padTo e.size x := by
  have hlen := valueBytes_length hl h
  cases h with
  | bool b hb hs =>
    refine ⟨.bool b, [if b then 1 else 0], rfl, by simp [C.alignedLeaf, hs, hb], le_of_eq hlen,
      (padTo_of_length hlen).symm⟩
  | enum i hi =>
    obtain ⟨c, hc⟩ := hi.constant_isSome hl.leaf hctx
    refine ⟨.enum c, [UInt8.ofNat (toU32 c)], by rw [toCLeaf, hc]; rfl, ?_, le_of_eq hlen, ?_⟩
    · simp [C.alignedLeaf, hi.not_string, hi.not_bool, hi.is_enum]
    · have hbytes : valueBytes s e (.enum i) = [UInt8.ofNat (toU32 c)] := by
        rw [valueBytes, hc, Option.getD_some]
      rw [hbytes] at hlen ⊢
      exact (padTo_of_length hlen).symm
  | int n hn =>
    exact ⟨.int n, _, rfl, c_stores_int s hn hl.leaf, le_of_eq hlen, (padTo_of_length hlen).symm⟩
  | str bs n hs hn hle =>
    have hscalar := scalar_of_string hl hs
    have hsize := string_size hl.leaf hs
    rw [hn, Option.getD_some] at hsize
    have hpad : (padTo n bs).length = n := padTo_length hle
    refine ⟨.str (padTo n bs), padTo n bs, by rw [toCLeaf, hn]; rfl, ?_, by omega, ?_⟩
    · simp [C.alignedLeaf, hs, hn, hscalar, hpad]
    · rw [padTo_of_length (by omega), hsize.symm]
      rfl

/-- TypeScript stores those of its own constant as well. -/
theorem ts_stores (hjs : TypeScript.RoundsDouble js) (hl : InSchema rnd ctx false s e)
    (hctx : ctx.EnumsLaid) (h : AlignedLeaf e v) (hraw : e.rawStorage = false) :
    ∃ w x, toTsLeaf s e v = some w ∧ TypeScript.alignedLeaf js s e.size e w = some x ∧
      x.length ≤ e.size ∧ valueBytes s e v = padTo e.size x := by
  have hlen := valueBytes_length hl h
  cases h with
  | bool b hb hs =>
    refine ⟨.bool b, [if b then 1 else 0], rfl, by simp [TypeScript.alignedLeaf, hs, hb],
      le_of_eq hlen, (padTo_of_length hlen).symm⟩
  | enum i hi =>
    obtain ⟨c, hc⟩ := hi.constant_isSome hl.leaf hctx
    refine ⟨.enum c, [UInt8.ofNat (toU32 c)], by rw [toTsLeaf, hc]; rfl, ?_, le_of_eq hlen, ?_⟩
    · simp [TypeScript.alignedLeaf, hi.not_string, hi.not_bool, hi.is_enum]
    · have hbytes : valueBytes s e (.enum i) = [UInt8.ofNat (toU32 c)] := by
        rw [valueBytes, hc, Option.getD_some]
      rw [hbytes] at hlen ⊢
      exact (padTo_of_length hlen).symm
  | int n hn =>
    exact ⟨.num n, _, rfl, ts_stores_int hjs s hn hl.leaf hraw, le_of_eq hlen,
      (padTo_of_length hlen).symm⟩
  | str bs n hs hn hle =>
    have hscalar := scalar_of_string hl hs
    have hsize := string_size hl.leaf hs
    rw [hn, Option.getD_some] at hsize
    refine ⟨.str bs, bs, rfl, ?_, by omega, rfl⟩
    simp [TypeScript.alignedLeaf, hs, hn, hscalar, List.take_of_length_le hle]

end Stores

end ProtoEmb.Codec
