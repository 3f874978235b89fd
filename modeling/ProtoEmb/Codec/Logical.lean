import ProtoEmb.Codec.C
import ProtoEmb.Codec.Rust
import ProtoEmb.Codec.TypeScript
import ProtoEmb.Lib.ByteBuffer

/-!
# One value, three languages

A logical value is written in Rust's terms: an enum leaf is the variant's index. `toC`
and `toTs` give the same value in C and in TypeScript, where a constant of a remap enum
is its semantic value, where a C string fills a `char` array of its maximal length, and
where TypeScript has numbers.

`Supported` describes the leaves the packed codecs have in common: bools, enums and
integers whose step is computed without overflow. On these, all three languages hand
the documented wire step `wireStep` to their `pack_bits` (`rust_step`, `c_step`,
`ts_step`).

The three forms are the structs that `protocol.h.j2`, `protocol.rs.j2` and `protocol.ts.j2`
declare, and the tables are those `process_schema` makes of `remap`. Nothing in the source
converts between them: `toC` and `toTs` only say which values of two languages are meant to be
the same.
-/

namespace ProtoEmb.Codec

open ProtoEmb.Lib ProtoEmb.Schema

/-- The constant of variant `i` in C and TypeScript. -/
def constant (t : Enum) (i : Int) : Option Int :=
  if 0 ≤ i then t.variants[i.toNat]?.map fun v => if t.isRemap then v.value else v.index else none

/-- A constant in place of an index, and a string with the zeros behind it. -/
def toCLeaf : LeafMap := fun _ e v =>
  match v with
  | .enum i => (e.enum.bind fun t => constant t i).map .enum
  | .str bs => e.maxLength.map fun n => .str (padTo n bs)
  | v => some v

/-- A constant in place of an index, and a number in place of an integer. -/
def toTsLeaf : LeafMap := fun _ e v =>
  match v with
  | .enum i => (e.enum.bind fun t => constant t i).map .enum
  | .int n => some (.num n)
  | v => some v

/-- The value in C. -/
def toC : Scope → String → Value → Option Value := mapLeaves toCLeaf

/-- The value in TypeScript. -/
def toTs : Scope → String → Value → Option Value := mapLeaves toTsLeaf

/-- An enum leaf that holds variant `i`. Rust's `repr(u8)` enums have at most 256
variants. -/
structure EnumLeaf (e : Elem) (i : Int) : Prop where
  is_enum : e.isEnum = true
  not_bool : e.isBool = false
  not_string : e.isString = false
  table : ∃ t, e.enum = some t ∧ 0 ≤ i ∧ i < t.count ∧ t.count ≤ 256

instance (e : Elem) (i : Int) : Decidable (EnumLeaf e i) :=
  decidable_of_iff (e.isEnum = true ∧ e.isBool = false ∧ e.isString = false ∧
      ∃ t ∈ e.enum, 0 ≤ i ∧ i < t.count ∧ t.count ≤ 256)
    ⟨fun ⟨he, hb, hs, t, ht⟩ => ⟨he, hb, hs, t, ht⟩,
      fun h => ⟨h.is_enum, h.not_bool, h.not_string, h.table⟩⟩

/-- An integer leaf that C and Rust can hold and whose step they compute without
overflow: C in `uint32_t` or `int`, Rust in `u32` or `i32`. -/
structure IntLeaf (e : Elem) (n : Int) : Prop where
  integral : e.Integral
  member : C.MemberFits e.type n
  c_exact : e.NoOverflow (C.isUnsigned e.type) n
  rust_exact : e.NoOverflow (!e.isSigned) n

instance (e : Elem) (n : Int) : Decidable (IntLeaf e n) :=
  decidable_of_iff (e.Integral ∧ C.MemberFits e.type n ∧ e.NoOverflow (C.isUnsigned e.type) n ∧
      e.NoOverflow (!e.isSigned) n)
    ⟨fun ⟨hi, hm, hc, hr⟩ => ⟨hi, hm, hc, hr⟩,
      fun h => ⟨h.integral, h.member, h.c_exact, h.rust_exact⟩⟩

/-- If the enum is a remap enum, its values are distinct bytes. -/
def RemapDistinct (e : Elem) : Prop := ∀ t ∈ e.enum, t.isRemap = true → Distinct t

instance (e : Elem) : Decidable (RemapDistinct e) := by
  unfold RemapDistinct
  infer_instance

/-- The leaves of the packed codecs. -/
inductive Supported (e : Elem) : Value → Prop
  | bool (b : Bool) : e.isBool = true → Supported e (.bool b)
  | enum (i : Int) : EnumLeaf e i → RemapDistinct e → Supported e (.enum i)
  | int (n : Int) : IntLeaf e n → Supported e (.int n)

instance (e : Elem) : (v : Value) → Decidable (Supported e v)
  | .bool b => decidable_of_iff (e.isBool = true)
      ⟨fun h => .bool b h, fun h => by cases h with | bool _ h => exact h⟩
  | .enum i => decidable_of_iff (EnumLeaf e i ∧ RemapDistinct e)
      ⟨fun h => .enum i h.1 h.2, fun h => by cases h with | enum _ h hd => exact ⟨h, hd⟩⟩
  | .int n => decidable_of_iff (IntLeaf e n)
      ⟨fun h => .int n h, fun h => by cases h with | int _ h => exact h⟩
  | .num _ | .float _ | .str _ | .absent | .present _ | .array _ | .struct _ | .union _ _ =>
    .isFalse fun h => by cases h

/-- The leaves of the Rust codec. -/
inductive RustLeaf (e : Elem) : Value → Prop
  | bool (b : Bool) : e.isBool = true → RustLeaf e (.bool b)
  | enum (i : Int) : EnumLeaf e i → RustLeaf e (.enum i)
  | int (n : Int) : e.Integral → e.NoOverflow (!e.isSigned) n → RustLeaf e (.int n)

instance (e : Elem) : (v : Value) → Decidable (RustLeaf e v)
  | .bool b => decidable_of_iff (e.isBool = true)
      ⟨fun h => .bool b h, fun h => by cases h with | bool _ h => exact h⟩
  | .enum i => decidable_of_iff (EnumLeaf e i)
      ⟨fun h => .enum i h, fun h => by cases h with | enum _ h => exact h⟩
  | .int n => decidable_of_iff (e.Integral ∧ e.NoOverflow (!e.isSigned) n)
      ⟨fun h => .int n h.1 h.2, fun h => by cases h with | int _ h hn => exact ⟨h, hn⟩⟩
  | .num _ | .float _ | .str _ | .absent | .present _ | .array _ | .struct _ | .union _ _ =>
    .isFalse fun h => by cases h

/-- What all three languages support Rust does. -/
theorem Supported.rust {e : Elem} {v : Value} (h : Supported e v) : RustLeaf e v := by
  cases h with
  | bool b hb => exact .bool b hb
  | enum i hi _ => exact .enum i hi
  | int n hn => exact .int n hn.integral hn.rust_exact

/-- **The documented wire step of a leaf**, as 32 bits. -/
def wireStep : Steps := fun _ e v =>
  match v with
  | .bool b => if b then 1 else 0
  | .enum i => i.toNat
  | .int n => toU32 (e.wireStep n)
  | _ => 0

section Leaf

variable {rnd : Rat → Rat} {ctx : Context} {e : Elem} {v : Value}

/-- The table of an enum leaf, in an accepted schema. -/
theorem EnumLeaf.laid {i : Int} (h : EnumLeaf e i) {isPacked : Bool}
    (hl : e.Leaf rnd ctx isPacked) (hctx : ctx.EnumsLaid) :
    ∃ t, e.enum = some t ∧ t.Laid ∧ 0 ≤ i ∧ i < t.variants.length ∧ t.variants.length ≤ 256 ∧
      e.size = if isPacked then t.bits else 1 := by
  obtain ⟨t, ht, h0, hlt, h256⟩ := h.table
  obtain ⟨t', ht', hlaid, hsize⟩ := hl.enum_eq hctx h.is_enum h.not_bool h.not_string
  rw [ht, Option.some.injEq] at ht'
  subst ht'
  rw [hlaid.count_eq] at hlt h256
  exact ⟨t, ht, hlaid, h0, hlt, h256, hsize⟩

/-- The constant of a variant. -/
theorem constant_eq {t : Enum} (ht : t.Laid) {i : Int} (h0 : 0 ≤ i)
    (hi : i < t.variants.length) :
    ∃ h : i.toNat < t.variants.length,
      constant t i = some (if t.isRemap then (t.variants[i.toNat]).value else i) := by
  have hlt : i.toNat < t.variants.length := by omega
  refine ⟨hlt, ?_⟩
  rw [constant, if_pos h0, List.getElem?_eq_getElem hlt, Option.map_some, ht.index_eq _ hlt,
    Int.toNat_of_nonneg h0]

/-- Rust hands the documented step to `pack_bits`. -/
theorem rust_step {fl : Rust.FloatExprs} (s : Bool) {isPacked : Bool}
    (hl : e.Leaf rnd ctx isPacked) (h : RustLeaf e v) :
    Rust.step fl s e v = some (wireStep s e v) := by
  cases h with
  | bool b hb => simp [Rust.step, hb, wireStep]
  | enum i hi =>
    obtain ⟨t, ht, h0, hlt, h256⟩ := hi.table
    simp [Rust.step, hi.not_bool, hi.is_enum, ht, Rust.toWire, h256, h0, hlt, wireStep]
  | int n hint hno => exact Rust.step_int s hint hl.hasScale_iff hno

/-- C hands the same step to `pack_bits`, from its own form of the value. -/
theorem c_step {fl : C.FloatExprs} (s : Bool) {isPacked : Bool} (hl : e.Leaf rnd ctx isPacked)
    (hctx : ctx.EnumsLaid) (h : Supported e v) :
    ∃ w, toCLeaf s e v = some w ∧ C.step fl s e w = some (wireStep s e v) := by
  cases h with
  | bool b hb => exact ⟨.bool b, rfl, by simp [C.step, hb, wireStep]⟩
  | enum i hi hd =>
    obtain ⟨t, ht, hlaid, h0, hlt, h256, _⟩ := hi.laid hl hctx
    obtain ⟨hidx, hc⟩ := constant_eq hlaid h0 hlt
    refine ⟨_, by rw [toCLeaf, ht, Option.bind_some, hc]; rfl, ?_⟩
    by_cases hr : t.isRemap = true
    · simp only [C.step, hi.not_bool, hi.is_enum, ht, hr, if_true, Bool.false_eq_true, if_false]
      exact valueToWire_value hlaid hr (hd t ht hr) hidx
    · simp only [C.step, hi.not_bool, hi.is_enum, ht, if_true, Bool.false_eq_true, if_false,
        if_neg hr, wireStep]
      rw [toU32_of_nonneg h0 (by omega)]
  | int n hn => exact ⟨.int n, rfl, C.step_int s hn.integral hn.member hn.c_exact⟩

/-- And so does TypeScript. -/
theorem ts_step {js : Rat → Rat} (hjs : TypeScript.RoundsDouble js) (s : Bool) {isPacked : Bool}
    (hl : e.Leaf rnd ctx isPacked) (hctx : ctx.EnumsLaid) (h : Supported e v)
    (hraw : e.rawStorage = false) :
    ∃ w, toTsLeaf s e v = some w ∧ TypeScript.step js s e w = some (wireStep s e v) := by
  cases h with
  | bool b hb => exact ⟨.bool b, rfl, by simp [TypeScript.step, hb, wireStep]⟩
  | enum i hi hd =>
    obtain ⟨t, ht, hlaid, h0, hlt, h256, _⟩ := hi.laid hl hctx
    obtain ⟨hidx, hc⟩ := constant_eq hlaid h0 hlt
    refine ⟨_, by rw [toTsLeaf, ht, Option.bind_some, hc]; rfl, ?_⟩
    by_cases hr : t.isRemap = true
    · simp only [TypeScript.step, hi.not_bool, hi.is_enum, ht, hr, if_true, Bool.false_eq_true,
        if_false, lastIndex_value hlaid (hd t ht hr) hidx, Option.getD_some, wireStep]
    · simp only [TypeScript.step, hi.not_bool, hi.is_enum, ht, if_true, Bool.false_eq_true,
        if_false, if_neg hr, wireStep]
      rw [toU32_of_nonneg h0 (by omega)]
  | int n hn => exact ⟨.num n, rfl, TypeScript.step_int s hjs hn.integral hraw hn.c_exact⟩

end Leaf

end ProtoEmb.Codec
