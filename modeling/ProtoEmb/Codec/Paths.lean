import ProtoEmb.Codec.CText
import ProtoEmb.Codec.RoundTrip
import ProtoEmb.Codec.RustText
import ProtoEmb.Codec.Total
import ProtoEmb.Codec.TypeScriptText

/-!
# A field of its own, and the macro for a leaf

An element of an array, an optional value and a variant of a union go through the leaf macro
of the template, a field of its own through the same expression inline. In C and TypeScript the
two texts are the same, and so are the two encode expressions of Rust. The Rust decode
expression of an unsigned field with `min` and `scale` lost its parentheses inline: wherever it
compiles, a leaf of zero bits is decoded to 0 inline, or to nothing, and to `min` by the macro
(`pathsAgree_iff`).
-/

namespace ProtoEmb.Codec

open ProtoEmb.Lib ProtoEmb.Schema

/-! ## The property -/

/-- The inline code for a field with `_bits` bits and the leaf macro decode the same from
every buffer at every offset, and write the same for every value. -/
structure PathsAgree {R : Type} (f32 : Rust.Text.F32) (fl : C.Text.Floating R)
    (js : Rat → Rat) (bits : Nat) (e : Elem) : Prop where
  c_decode : ∀ buf off, C.Text.unpack fl e (C.Text.unpackField bits e) buf off
    = C.Text.unpack fl e (C.Text.cUnpackLeaf e) buf off
  c_encode : ∀ buf off v, C.Text.pack fl e (C.Text.packField bits e) buf off v
    = C.Text.pack fl e (C.Text.cPackLeaf e) buf off v
  rust_decode : ∀ buf off, Rust.Text.unpack f32 e (Rust.Text.unpackField bits e) buf off
    = Rust.Text.unpack f32 e (Rust.Text.rsUnpackExpr e) buf off
  rust_encode : ∀ buf off v, Rust.Text.pack f32 e (Rust.Text.packField bits e) buf off v
    = Rust.Text.pack f32 e (Rust.Text.rsPackLeaf e) buf off v
  ts_decode : ∀ buf off, TypeScript.Text.unpack js e (TypeScript.Text.unpackField bits e) buf off
    = TypeScript.Text.unpack js e (TypeScript.Text.tsUnpackExpr e) buf off
  ts_encode : ∀ buf off v, TypeScript.Text.pack js e (TypeScript.Text.packField bits e) buf off v
    = TypeScript.Text.pack js e (TypeScript.Text.tsPackLeaf e) buf off v

/-- An unsigned integer whose `min` is printed and not zero, with a scale, both of them `u32`
literals. -/
structure Clashes (e : Elem) : Prop where
  not_bool : e.isBool = false
  not_enum : e.isEnum = false
  not_float : e.isFloat = false
  not_string : e.isString = false
  unsigned : e.isSigned = false
  not_raw : e.rawStorage = false
  has_scale : e.hasScale = true
  scale : ∃ k, e.scale = .int k ∧ Fits true k
  min : ∃ m, e.packedMin = some m ∧ m.toInt ≠ 0 ∧ Fits true m.toInt
  size : e.size ≤ 4294967296

namespace Rust

variable {fl : FloatExprs} {e : Elem} {u : Nat}

/-! ## A leaf of zero bits -/

theorem unpackBits_zeros {n bits : Nat} (hlen : bits ≤ 8 * n) (hbits : bits ≤ 4294967296) :
    unpackBits (List.replicate n 0) 0 bits = some 0 := by
  rw [unpackBits_eq_some_iff]
  refine ⟨fun i hi => ⟨by omega, ?_, fun h => ?_⟩, ?_⟩
  · rw [List.length_replicate]
    omega
  · rw [bitAt_zeros] at h
    cases h
  · have hzero : bitsAt (List.replicate n 0) 0 bits = natBits bits 0 := by
      rw [natBits_zero]
      simp [bitsAt, bitAt_zeros]
    rw [hzero, ofBits_natBits, Nat.zero_mod]

/-- No offset is left for so many bits. -/
theorem unpackBits_none {buf : List UInt8} {off bits : Nat} (h : 4294967296 < bits) :
    unpackBits buf off bits = none := by
  cases hu : unpackBits buf off bits with
  | none => rfl
  | some u =>
    have hin := (unpackBits_eq_some_iff.mp hu).1 4294967296 h
    omega

theorem lit_eq_some {n k : Int} (h : lit true n = some k) : k = n ∧ Fits true n := by
  unfold lit at h
  split at h
  next hfit => exact ⟨(Option.some.inj h).symm, hfit⟩
  next => cases h

theorem scaleLit_eq_some {k : Int} (h : scaleLit true e = some k) :
    e.scale = .int k ∧ Fits true k := by
  unfold scaleLit at h
  cases hs : e.scale with
  | int n =>
    rw [hs] at h
    obtain ⟨rfl, hfit⟩ := lit_eq_some h
    exact ⟨rfl, hfit⟩
  | float q => rw [hs] at h; cases h

theorem wrapping_of_fits {n : Int} (h : Fits true n) : wrapping true n = n := by
  rw [fits_unsigned] at h
  unfold wrapping wrapU
  simp only [if_true]
  omega

/-- A quotient is a `u32`, so adding 0 to it changes nothing. -/
theorem div_bind_wrapping_zero (a b : Int) :
    ((div true a b).bind fun q => some (wrapping true (q + 0))) = div true a b := by
  cases hq : div true a b with
  | none => rfl
  | some q =>
    have hfit : Fits true q := by
      unfold div at hq
      split at hq
      · cases hq
      · unfold checked at hq
        split at hq
        next hfit => exact Option.some.inj hq ▸ hfit
        next => cases hq
    rw [Option.bind_some, Int.add_zero, wrapping_of_fits hfit]

theorem div_zero_left (b : Int) : div true 0 b = if b = 0 then none else some 0 := by
  unfold div
  rw [Int.zero_tdiv]
  rfl

/-- Inline, zero bits give 0 or a division by zero; through the macro they give `min`, or
that division. -/
theorem unstep_ne_of_clashes (h : Clashes e) : unstep fl true e 0 ≠ unstep fl false e 0 := by
  obtain ⟨k, hk, hkfit⟩ := h.scale
  obtain ⟨m, hm, hm0, hmfit⟩ := h.min
  have hlit : lit true m.toInt = some m.toInt := if_pos hmfit
  have hscale : scaleLit true e = some k := by
    rw [scaleLit, hk]
    exact if_pos hkfit
  have hinline : unstepUnsigned true e 0 = div true 0 (wrapping true (k + m.toInt)) := by
    simp [unstepUnsigned, h.not_raw, hm, hlit, h.has_scale, hscale]
  have hmacro : unstepUnsigned false e 0
      = (div true 0 k).bind fun q => some (wrapping true (q + m.toInt)) := by
    simp [unstepUnsigned, h.not_raw, hm, hlit, divScale, h.has_scale, hscale]
  have hunstep : ∀ s, unstep fl s e 0 = (unstepUnsigned s e 0).map .int := by
    intro s
    simp [unstep, h.not_bool, h.not_enum, h.not_float, h.not_string, h.unsigned]
  rw [hunstep, hunstep, hinline, hmacro, div_zero_left, div_zero_left]
  by_cases hk0 : k = 0
  · rw [hk0, Int.zero_add, wrapping_of_fits hmfit, if_neg hm0, if_pos rfl]
    intro heq
    cases heq
  · rw [if_neg hk0, Option.bind_some, Int.zero_add, wrapping_of_fits hmfit]
    split
    · intro heq
      cases heq
    · simp only [Option.map_some, ne_eq, Option.some.injEq, Value.int.injEq]
      exact fun heq => hm0 heq.symm

/-- Elsewhere the two expressions agree. -/
theorem unstep_eq (h : ¬ Clashes e) (hsize : e.size ≤ 4294967296) :
    unstep fl true e u = unstep fl false e u := by
  unfold unstep
  by_cases hb : e.isBool = true
  · rw [if_pos hb, if_pos hb]
  rw [if_neg hb, if_neg hb]
  by_cases hen : e.isEnum = true
  · rw [if_pos hen, if_pos hen]
  rw [if_neg hen, if_neg hen]
  by_cases hf : e.isFloat = true
  · rw [if_pos hf, if_pos hf]
  rw [if_neg hf, if_neg hf]
  by_cases hstr : e.isString = true
  · rw [if_pos hstr, if_pos hstr]
  rw [if_neg hstr, if_neg hstr]
  by_cases hs : e.isSigned = true
  · rw [if_pos hs, if_pos hs]
  rw [if_neg hs, if_neg hs]
  congr 1
  unfold unstepUnsigned
  by_cases hr : e.rawStorage = true
  · rw [if_pos hr, if_pos hr]
  rw [if_neg hr, if_neg hr]
  cases hm : e.packedMin with
  | none => rfl
  | some m =>
    cases hlit : lit true m.toInt with
    | none => simp [hlit]
    | some b =>
      obtain ⟨rfl, hmfit⟩ := lit_eq_some hlit
      cases hsc : e.hasScale with
      | false => simp [hlit, divScale, hsc]
      | true =>
        cases hk : scaleLit true e with
        | none => simp [hlit, divScale, hsc, hk]
        | some k =>
          obtain ⟨hscale, hkfit⟩ := scaleLit_eq_some hk
          -- both literals compile, so only a `min` that is printed as 0 is left
          have hm0 : m.toInt = 0 := by
            by_contra hne
            exact h ⟨by simpa using hb, by simpa using hen, by simpa using hf,
              by simpa using hstr, by simpa using hs, by simpa using hr, hsc,
              ⟨k, hscale, hkfit⟩, ⟨m, hm, hne, hmfit⟩, hsize⟩
          have hzero : lit true m.toInt = some 0 := by rw [hlit, hm0]
          have hq := div_bind_wrapping_zero u k
          simp only [hzero, divScale, hsc, if_true, hk, Option.bind_eq_bind, Option.bind_some,
            Option.pure_def, Int.add_zero, wrapping_of_fits hkfit] at hq ⊢
          exact hq.symm

/-- A leaf whose texts decode differently is told apart by a buffer of zeros. -/
theorem text_ne_of_clashes {f32 : Text.F32} (h : Clashes e) :
    ∃ buf off, Text.unpack f32 e (Text.unpackField e.size e) buf off
      ≠ Text.unpack f32 e (Text.rsUnpackExpr e) buf off := by
  have hwidth : PackLang.leafWidth e e.size = e.size :=
    if_neg (by rw [h.not_bool]; exact Bool.false_ne_true)
  have hinline := @Text.unpack_eq f32 e (List.replicate e.size 0) 0 true
  have hmacro := @Text.unpack_eq f32 e (List.replicate e.size 0) 0 false
  rw [hwidth, unpackBits_zeros (by omega) h.size, Option.bind_some] at hinline hmacro
  rw [if_pos rfl] at hinline
  rw [if_neg Bool.false_ne_true] at hmacro
  refine ⟨List.replicate e.size 0, 0, ?_⟩
  rw [hinline, hmacro]
  exact unstep_ne_of_clashes h

/-- No other leaf is. -/
theorem text_eq {f32 : Text.F32} (h : ¬ Clashes e) (buf : List UInt8) (off : Nat) :
    Text.unpack f32 e (Text.unpackField e.size e) buf off
      = Text.unpack f32 e (Text.rsUnpackExpr e) buf off := by
  have hinline := @Text.unpack_eq f32 e buf off true
  have hmacro := @Text.unpack_eq f32 e buf off false
  rw [if_pos rfl] at hinline
  rw [if_neg Bool.false_ne_true] at hmacro
  rw [hinline, hmacro]
  cases hu : unpackBits buf off (PackLang.leafWidth e e.size) with
  | none => rfl
  | some u =>
    rw [Option.bind_some, Option.bind_some]
    by_cases hb : e.isBool = true
    · simp [unstep, hb]
    · refine unstep_eq h ?_
      by_contra hsize
      rw [PackLang.leafWidth, if_neg hb, unpackBits_none (by omega)] at hu
      cases hu

end Rust

/-! ## Where the two paths agree -/

/-- **The inline code and the leaf macro agree exactly on the leaves whose literals do not
clash.** The first part is about every leaf of a processed schema, the second says that a field
of its own is printed with the width of its leaf. -/
theorem pathsAgree_iff {R : Type} {rnd js : Rat → Rat} (f32 : Rust.Text.F32)
    (fl : C.Text.Floating R) {schema : SchemaDecl} {data : Data}
    (hproc : processSchema rnd schema = .ok data) {name : String} {t : TypeDef}
    (ht : data.types.lookup name = some t) :
    (∀ e ∈ t.references, PathsAgree f32 fl js e.size e ↔ ¬ Clashes e) ∧
      ∀ s, t = .struct s → ∀ f ∈ s.fields, f.isArray = false → f.isOptional = false →
        f.size = f.elem.size := by
  constructor
  · intro e _
    constructor
    · intro h hclash
      obtain ⟨buf, off, hne⟩ := @Rust.text_ne_of_clashes _ f32 hclash
      exact hne (h.rust_decode buf off)
    · intro h
      exact
        { c_decode := fun _ _ => rfl
          c_encode := fun _ _ _ => by rw [C.Text.packField_eq]
          rust_decode := Rust.text_eq h
          rust_encode := fun _ _ _ => rfl
          ts_decode := fun _ _ => rfl
          ts_encode := fun _ _ _ => rfl }
  · rintro s rfl f hf harr hopt
    obtain ⟨order, h⟩ := processSchema_ok hproc
    have hscope : data.types.Laid rnd (schema.context data.enums) :=
      foldlM_ok_of_step (fun _ _ _ h hs => processType_laid h hs) order h.types trivial
    obtain ⟨rest, hlaid⟩ := hscope.lookup rnd _ ht
    have hs : s.Laid rnd (schema.context data.enums) rest := hlaid
    obtain ⟨off, hfield⟩ := FieldsLaid.mem s.fields hs.fields f hf
    rw [hfield.size_eq, hfield.single harr, Field.flagSize, hopt, if_neg Bool.false_ne_true,
      Nat.zero_add, Nat.mul_one]

section Level

/-- No float occurs in the schema. -/
def Rust.Text.noF32 : Rust.Text.F32 :=
  ⟨fun _ => 0, fun _ => 0, fun _ => 0, fun _ _ => 0, fun _ _ => 0, fun _ _ => 0, fun _ _ => 0⟩

def C.Text.noFloating : C.Text.Floating Unit :=
  ⟨fun _ => (), fun _ => (), fun _ => (), fun _ => (), fun _ => (), fun _ => none,
    fun _ _ _ => (), fun _ => 0, fun _ _ => none⟩

/-- The trim of the gauge is decoded alike on both paths, the level is not. -/
theorem pathsAgree_iff_gauge :
    (∃ t e, Rust.gaugeData.types.lookup "Trim" = some t ∧ t.references = [e] ∧
        PathsAgree Rust.Text.noF32 C.Text.noFloating id e.size e) ∧
      ∃ t e, Rust.gaugeData.types.lookup "Level" = some t ∧ t.references = [e] ∧
        ¬ PathsAgree Rust.Text.noF32 C.Text.noFloating id e.size e := by
  constructor
  · refine ⟨_, _, rfl, rfl, ?_⟩
    refine ((pathsAgree_iff Rust.Text.noF32 C.Text.noFloating Rust.gauge_ok
      (show Rust.gaugeData.types.lookup "Trim" = some _ from rfl)).1
        _ (List.mem_singleton.mpr rfl)).mpr fun h => ?_
    exact absurd h.unsigned (by decide)
  · refine ⟨_, _, rfl, rfl, fun h => ?_⟩
    refine ((pathsAgree_iff Rust.Text.noF32 C.Text.noFloating Rust.gauge_ok
      (show Rust.gaugeData.types.lookup "Level" = some _ from rfl)).1
        _ (List.mem_singleton.mpr rfl)).mp h ?_
    exact ⟨rfl, rfl, rfl, rfl, rfl, rfl, rfl, ⟨10, rfl, by decide⟩,
      ⟨.int 10, rfl, by decide, by decide⟩, by decide⟩

/-- The bytes of the level 30: `200 / 10.wrapping_add(10)` inline, `(200 / 10).wrapping_add(10)`
through the macro. -/
theorem rust_paths_differ :
    processSchema id Rust.gauge = .ok Rust.gaugeData ∧
      validateSchema id Rust.gaugeData = [] ∧
      ∃ t e, Rust.gaugeData.types.lookup "Level" = some t ∧ t.isPacked = true ∧
        t.references = [e] ∧
        Rust.Text.unpack Rust.Text.noF32 e (Rust.Text.unpackField e.size e) [200, 0] 0
          = some (.int 10) ∧
        Rust.Text.unpack Rust.Text.noF32 e (Rust.Text.rsUnpackExpr e) [200, 0] 0
          = some (.int 30) :=
  ⟨Rust.gauge_ok, Rust.gauge_valid, _, _, rfl, rfl, rfl, rfl, rfl⟩

end Level

end ProtoEmb.Codec
