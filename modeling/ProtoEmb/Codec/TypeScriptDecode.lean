import ProtoEmb.Codec.RustAligned
import ProtoEmb.Codec.Native
import ProtoEmb.Lib.Utf8

/-!
# `decode*` in TypeScript

The decoder of an aligned type in `protocol.ts.j2`, and with the packed one the decoder of any
type of the schema. It does not look at the length of the buffer: `subarray` stops at the end,
a byte behind it is `undefined`, which is not `0`, and a `DataView` throws there. `none` is an
exception, or a value with an `undefined` in it.

A nested type gets the rest of the buffer and keeps a running offset of its own. On a buffer of
at least its size this is the decoder that reads every part at its precomputed offset
(`alignedDecoder_inPlace`).
-/

namespace ProtoEmb.Codec.TypeScript

open ProtoEmb.Lib ProtoEmb.Schema

/-! ## Text -/

/-- U+FEFF. -/
def byteOrderMark : List UInt8 := [0xEF, 0xBB, 0xBF]

/-- `TextDecoder.decode`, as the bytes of the string: it drops a byte order mark in front. -/
def textDecode (bs : List UInt8) : List UInt8 :=
  if bs.take 3 = byteOrderMark then fromUtf8Lossy (bs.drop 3) else fromUtf8Lossy bs

/-- `readString`: the bytes before the first zero. -/
def readString (buf : List UInt8) (offset maxLen : Nat) : List UInt8 :=
  let raw := (buf.drop offset).take maxLen
  textDecode (raw.takeWhile fun b => b ≠ 0)

/-! ## Leaves -/

variable (rnd : Rat → Rat)

/-- `getInt*` or `getUint*`, and the division by the scale; an `f32` is read as a `u32`. By a
scale of 0 the result is no rational. -/
def alignedNumber (e : Elem) (bs : List UInt8) : Option Value :=
  let n : Int := if e.isSigned then wrapS (8 * bs.length) (ofLeBytes bs) else ofLeBytes bs
  let k := e.scale.toFloat rnd
  if k = 0 then none else some (.num (rnd (n / k)))

/-- The bytes a number is read from. -/
def numberWidth (width : Nat) : Nat := if width = 1 then 1 else if width = 2 then 2 else 4

/-- A bool, an enum or a number at an offset: `ts_aligned_decode_expr` for a leaf, and the same
expressions inline. -/
def alignedExpr (buf : List UInt8) (width : Nat) (e : Elem) (off : Nat) : Option Value :=
  if e.isBool then some (.bool (buf[off]? ≠ some 0))
  else if e.isEnum then (buf[off]?).map fun b => .enum b.toNat
  else do
    let bs ← load buf off (numberWidth width)
    alignedNumber rnd e bs

/-- What the code of a type offers to the types that embed it. -/
structure Decoder where
  wireSize : Nat
  decode : List UInt8 → Option Value

section Decoder

variable (env : String → Decoder)

/-- `ts_aligned_decode_expr`. -/
def alignedElem (buf : List UInt8) (e : Elem) (off : Nat) : Option Value :=
  if e.isNested then (env e.type).decode (buf.drop off) else alignedExpr rnd buf e.size e off

/-- The elements of an array from element `i`, of `n` that are left. -/
def alignedArray (buf : List UInt8) (e : Elem) (base : Nat) : Nat → Nat → Option (List Value)
  | 0, _ => some []
  | n + 1, i => do
    let v ← alignedElem rnd env buf e (base + i * e.size)
    let vs ← alignedArray buf e base n (i + 1)
    return v :: vs

/-- The statement of a field. -/
def alignedField (buf : List UInt8) (f : Field) (off : Nat) : Option Value :=
  if f.isArray then (alignedArray rnd env buf f.elem off f.arrayLen 0).map .array
  else if f.isOptional then
    if buf[off]? ≠ some 0 then (alignedElem rnd env buf f.elem (off + 1)).map .present
    else some .absent
  else if f.elem.isNested then (env f.elem.type).decode (buf.drop off)
  else if f.elem.isString then f.elem.maxLength.map fun n => .str (readString buf off n)
  else alignedExpr rnd buf f.size f.elem off

/-- The fields, at a running offset. -/
def alignedFields (buf : List UInt8) : Nat → List Field → Option (List Value)
  | _, [] => some []
  | off, f :: fs => do
    let v ← alignedField rnd env buf f off
    let n ← (alignLang rnd).advance (fun m => (env m).wireSize) f
    let vs ← alignedFields buf (off + n) fs
    return v :: vs

/-- The body of `decode*`; an unknown tag throws. -/
def alignedType (buf : List UInt8) : TypeDef → Option Value
  | .struct s => (alignedFields rnd env buf 0 s.fields).map .struct
  | .union u => do
    let tag ← buf[0]?
    let w ← u.variants[tag.toNat]?
    let v ← alignedExpr rnd buf w.elem.size w.elem u.payloadOffset
    return .union tag.toNat v

end Decoder

/-- The code of a type. -/
def alignedDecoder : Scope → String → Decoder :=
  resolve ⟨0, fun _ => none⟩ fun env t => ⟨t.wireSize, fun buf => alignedType rnd env buf t⟩

/-- `encode*` of a type of either encoding. -/
def encodeOf (scope : Scope) (name : String) (v : Value) : Option (List UInt8) := do
  let t ← scope.lookup name
  if t.isPacked then (lang rnd).encode scope name v else (alignLang rnd).encodeCopied scope name v

/-- `decode*` of a type of either encoding. -/
def decodeOf (scope : Scope) (name : String) (buf : List UInt8) : Option Value := do
  let t ← scope.lookup name
  if t.isPacked then (lang rnd).decode scope name buf
  else (alignedDecoder rnd scope name).decode buf

/-! ## In place -/

/-- A leaf, from its bytes. -/
def unleaf (_scalar : Bool) (e : Elem) (bs : List UInt8) : Option Value :=
  if e.isString then some (.str (textDecode (bs.takeWhile fun b => b ≠ 0)))
  else if e.isBool then bs.head?.map fun b => .bool (b ≠ 0)
  else if e.isEnum then bs.head?.map fun b => .enum b.toNat
  else alignedNumber rnd e bs

/-- The aligned decoder that reads in place. -/
def alignDecoder : AlignDecoder where
  toAlignLang := alignLang rnd
  unleaf := unleaf rnd
  unknownTag _ _ := none

section InPlace

variable {rnd} {env : String → Decoder} {env' : String → List UInt8 → Nat → Option Value}
  {r : Rat → Rat} {ctx : Context} {scope : Scope} {buf : List UInt8} {base : Nat}

/-- The decoders of the nested types read in place. -/
def InPlace (scope : Scope) (buf : List UInt8) (env : String → Decoder)
    (env' : String → List UInt8 → Nat → Option Value) : Prop :=
  ∀ m t, scope.lookup m = some t → t.isPacked = false → (env m).wireSize = t.total ∧
    ∀ base, base + t.total ≤ buf.length → (env m).decode (buf.drop base) = env' m buf base

/-- A byte of the buffer, compared with zero. -/
theorem getElem?_ne_zero {p : Nat} (h : p < buf.length) :
    (buf[p]? ≠ some 0) ↔ buf[p] ≠ 0 := by
  rw [List.getElem?_eq_getElem h, ne_eq, Option.some.injEq]

/-- A bool, an enum or a number is made of its bytes. -/
theorem alignedExpr_eq {e : Elem} (hl : e.Leaf r ctx false) (hs : e.isString = false) {off : Nat}
    (hin : base + off + e.size ≤ buf.length) (s : Bool) :
    alignedExpr rnd (buf.drop base) e.size e off
      = (load buf (base + off) e.size).bind (unleaf rnd s e) := by
  have hstr : ¬ e.isString = true := by simp [hs]
  unfold alignedExpr unleaf
  simp only [if_neg hstr]
  by_cases hb : e.isBool = true
  · have hsize := byte_size hl hs (Or.inl hb)
    rw [hsize] at hin ⊢
    rw [Rust.load_one (by omega), List.getElem?_drop, List.getElem?_eq_getElem (by omega)]
    simp [if_pos hb]
  by_cases he : e.isEnum = true
  · have hsize := byte_size hl hs (Or.inr he)
    rw [hsize] at hin ⊢
    rw [Rust.load_one (by omega), List.getElem?_drop, List.getElem?_eq_getElem (by omega)]
    simp [if_neg hb, if_pos he]
  · have hsize := number_size hl hs (by simpa using hb) (by simpa using he)
    have hwidth : numberWidth e.size = e.size := by
      rw [hsize]
      exact Rust.numberWidth_typeSize e.type
    simp only [if_neg hb, if_neg he, hwidth,
      Rust.load_drop (show base ≤ buf.length by omega)]
    rfl

theorem alignedElem_eq (henv : InPlace scope buf env env') {e : Elem}
    (he : e.Laid r ctx scope false) (hs : e.isString = false) {off : Nat}
    (hin : base + off + e.size ≤ buf.length) (s : Bool) :
    alignedElem rnd env (buf.drop base) e off
      = ((alignDecoder rnd).reader env' ((alignDecoder rnd).add base) buf).elem off s e.size e := by
  have hadd : (alignDecoder rnd).add base off = some (base + off) := rfl
  simp only [AlignDecoder.reader, hadd, alignedElem, Option.bind_eq_bind, Option.bind_some]
  by_cases hn : e.isNested = true
  · obtain ⟨t, ht, hpk, hsize⟩ := he.nested hn
    rw [if_pos hn, if_pos hn, List.drop_drop, (henv _ t ht hpk).2 (base + off) (by omega)]
  · have hl := he.leaf (by simpa using hn)
    rw [if_neg hn, if_neg hn, Rust.loadSize_eq hl hs, Option.bind_some]
    exact alignedExpr_eq hl hs hin s

theorem alignedArray_eq (henv : InPlace scope buf env env') {f : Field}
    (he : f.elem.Laid r ctx scope false) (hs : f.elem.isString = false) :
    ∀ (n i : Nat), base + f.offset + (i + n) * f.elem.size ≤ buf.length →
      alignedArray rnd env (buf.drop base) f.elem f.offset n i
        = ((alignDecoder rnd).reader env' ((alignDecoder rnd).add base) buf).array f n i := by
  intro n
  induction n with
  | zero => intro i _; rfl
  | succ n ih =>
    intro i hin
    have hlast : (i + (n + 1)) * f.elem.size
        = i * f.elem.size + f.elem.size + n * f.elem.size := by ring
    have hrest := ih (i + 1) (by rw [Nat.add_assoc i 1 n, Nat.add_comm 1 n]; exact hin)
    rw [hlast] at hin
    rw [alignedArray, Reader.array, hrest, alignedElem_eq henv he hs (by omega) false]

/-- A field that is neither an array nor optional. -/
theorem alignedScalar_eq (henv : InPlace scope buf env env') {f : Field} {off : Nat}
    (hf : f.Laid r ctx scope false off) (ha : f.isArray = false) (ho : f.isOptional = false)
    (hin : base + off + f.size ≤ buf.length) :
    (if f.elem.isNested then (env f.elem.type).decode ((buf.drop base).drop off)
      else if f.elem.isString then
        f.elem.maxLength.map fun n => .str (readString (buf.drop base) off n)
      else alignedExpr rnd (buf.drop base) f.size f.elem off)
      = ((alignDecoder rnd).reader env' ((alignDecoder rnd).add base) buf).elem f.offset true
          f.size f.elem := by
  have hsize := scalar_size hf ha ho
  have hoff := hf.offset_eq
  rw [hsize] at hin
  have hadd : (alignDecoder rnd).add base off = some (base + off) := rfl
  rw [hoff]
  simp only [AlignDecoder.reader, hadd, Option.bind_eq_bind, Option.bind_some]
  by_cases hn : f.elem.isNested = true
  · obtain ⟨t, ht, hpk, htotal⟩ := hf.elem.nested hn
    rw [if_pos hn, if_pos hn, List.drop_drop, (henv _ t ht hpk).2 (base + off) (by omega)]
  rw [if_neg hn, if_neg hn]
  have hl := hf.elem.leaf (by simpa using hn)
  by_cases hs : f.elem.isString = true
  · rw [if_pos hs, AlignDecoder.loadSize, if_pos hs]
    -- a string has the room of its `max_length`
    cases hmax : f.elem.maxLength with
    | none => rfl
    | some n =>
      have hroom : f.elem.size = n := by rw [string_size hl hs, hmax, Option.getD_some]
      rw [Option.bind_some, load, if_pos (by omega), Option.bind_some]
      simp only [alignDecoder, unleaf, if_pos hs, Option.map_some, readString, List.drop_drop]
  · have hstr : f.elem.isString = false := by simpa using hs
    rw [if_neg hs, hsize, Rust.loadSize_eq hl hstr, Option.bind_some]
    exact alignedExpr_eq hl hstr hin true

theorem alignedField_eq (henv : InPlace scope buf env env') {f : Field} {off : Nat}
    (hf : f.Laid r ctx scope false off) (hv : f.Valid)
    (hin : base + off + f.size ≤ buf.length) :
    alignedField rnd env (buf.drop base) f off
      = ((alignDecoder rnd).reader env' ((alignDecoder rnd).add base) buf).field f := by
  have hoff := hf.offset_eq
  unfold alignedField Reader.field
  by_cases ha : f.isArray = true
  · have hsize := array_size hf hv ha
    rw [hsize] at hin
    rw [if_pos ha, if_pos ha, ← hoff, alignedArray_eq henv hf.elem
      (hv.array (hf.array_eq ▸ ha)).2 f.arrayLen 0 (by rw [Nat.zero_add, hoff]; exact hin)]
    cases Reader.array _ f f.arrayLen 0 <;> rfl
  rw [if_neg ha, if_neg ha]
  by_cases ho : f.isOptional = true
  · have hsize := optional_size hf (by simpa using ha) ho
    have hval := hf.value_eq
    rw [Field.flagSize, if_pos ho] at hval
    have hlt : base + off < buf.length := by omega
    have hflag : ((alignDecoder rnd).reader env' ((alignDecoder rnd).add base) buf).flag f.offset
        = some (decide (buf[base + off] ≠ 0)) := by
      show (buf[base + f.offset]?).bind _ = _
      rw [hoff, List.getElem?_eq_getElem hlt]
      rfl
    rw [if_pos ho, if_pos ho, hflag, hval, List.getElem?_drop,
      alignedElem_eq henv hf.elem (hv.optional (hf.optional_eq ▸ ho)) (by omega) false]
    simp only [getElem?_ne_zero hlt, Option.bind_eq_bind, Option.bind_some, decide_eq_true_eq]
    split
    next => cases Reader.elem _ (off + 1) false f.elem.size f.elem <;> rfl
    next => rfl
  · rw [if_neg ho, if_neg ho]
    exact alignedScalar_eq henv hf (by simpa using ha) (by simpa using ho) hin

/-- A field that is decoded is passed by its size. -/
theorem advance_of_field (henv : InPlace scope buf env env') {f : Field} {off : Nat} {v : Value}
    (hf : f.Laid r ctx scope false off) (hv : f.Valid)
    (h : ((alignDecoder rnd).reader env' ((alignDecoder rnd).add base) buf).field f = some v) :
    (alignLang rnd).advance (fun m => (env m).wireSize) f = some f.size := by
  by_cases hn : f.elem.isNested = true
  · obtain ⟨t, ht, hpk, htotal⟩ := hf.elem.nested hn
    exact alignLang_advancesNested hf hv hn ((henv _ t ht hpk).1.trans htotal.symm)
  · refine alignLang_advances hf hv (fun hs => ?_) (by simpa using hn)
    obtain ⟨ha, ho⟩ := single_of_string hf hv hs
    rw [Reader.field, if_neg (by simp [ha]), if_neg (by simp [ho])] at h
    have hadd : (alignDecoder rnd).add base f.offset = some (base + f.offset) := rfl
    simp only [AlignDecoder.reader, hadd, if_neg hn, AlignDecoder.loadSize, if_pos hs,
      Option.bind_eq_bind, Option.bind_some, Option.bind_eq_some_iff] at h
    obtain ⟨n, hmax, _⟩ := h
    rw [hmax]
    rfl

theorem alignedFields_eq (henv : InPlace scope buf env env') :
    ∀ (fs : List Field) {off : Nat}, FieldsLaid r ctx scope false off fs →
      (∀ f ∈ fs, f.Valid) → base + off + (fs.map Field.size).sum ≤ buf.length →
      alignedFields rnd env (buf.drop base) off fs
        = ((alignDecoder rnd).reader env' ((alignDecoder rnd).add base) buf).fields fs := by
  intro fs
  induction fs with
  | nil => intro off _ _ _; rfl
  | cons f fs ih =>
    intro off hlaid hvalid hin
    rw [List.map_cons, List.sum_cons] at hin
    have hv := hvalid f (List.mem_cons_self ..)
    rw [alignedFields, Reader.fields, alignedField_eq henv hlaid.1 hv (by omega)]
    cases hfield : Reader.field _ f with
    | none => rfl
    | some v =>
      have hrest := ih hlaid.2 (fun g hg => hvalid g (List.mem_cons_of_mem _ hg)) (by omega)
      simp only [Option.bind_eq_bind, Option.bind_some, advance_of_field henv hlaid.1 hv hfield,
        hrest]

theorem alignedType_eq (henv : InPlace scope buf env env') {t : TypeDef}
    (ht : t.Laid r ctx scope) (hv : t.Valid) (hpk : t.isPacked = false)
    (hin : base + t.total ≤ buf.length) :
    alignedType rnd env (buf.drop base) t
      = ((alignDecoder rnd).reader env' ((alignDecoder rnd).add base) buf).type t := by
  cases t with
  | struct s =>
    have hs : s.Laid r ctx scope := ht
    have hfields := hs.fields
    rw [show s.isPacked = false from hpk] at hfields
    have htotal : base + s.total ≤ buf.length := hin
    rw [hs.total_eq] at htotal
    rw [alignedType, Reader.type, alignedFields_eq henv s.fields hfields hv (by omega)]
    cases Reader.fields _ s.fields <;> rfl
  | union u =>
    have hu : u.Laid r ctx := ht
    have hpk' : u.isPacked = false := hpk
    have hpay := hu.payload_eq
    have hle := hu.payload_le
    have hsize : u.tagSize = 1 := by
      rw [Union.tagSize, hpk']
      rfl
    have hin' : base + u.total ≤ buf.length := hin
    -- the payload is in the buffer, so the tag in front of it is
    have hlt : base < buf.length := by omega
    have hget : (buf.drop base)[0]? = some buf[base] := by
      rw [List.getElem?_drop, Nat.add_zero, List.getElem?_eq_getElem hlt]
    have htag : ((alignDecoder rnd).reader env' ((alignDecoder rnd).add base) buf).tag 0 u.tagSize
        = some buf[base].toNat := by
      show (buf[base + 0]?).bind _ = _
      rw [Nat.add_zero, List.getElem?_eq_getElem hlt]
      rfl
    rw [alignedType, Reader.type, hget, htag]
    simp only [Option.bind_eq_bind, Option.bind_some]
    cases hw : u.variants[buf[base].toNat]? with
    | none => rfl
    | some w =>
      have hmem := List.mem_of_getElem? hw
      obtain ⟨hlaid, hstr⟩ := hu.variant hv hmem scope
      rw [hpk'] at hlaid
      have hfits := hu.fits w hmem
      have hleaf := (hv w hmem).leaf
      have helem : alignedElem rnd env (buf.drop base) w.elem u.payloadOffset = _ :=
        alignedElem_eq henv hlaid hstr (by omega) false
      rw [alignedElem, if_neg (by simp [hleaf])] at helem
      simp only [Option.bind_some, helem]

/-- **The decoder of an aligned type reads in place.** -/
theorem alignedDecoder_inPlace :
    ∀ (scope : Scope) (name : String) (t : TypeDef), scope.lookup name = some t →
      scope.Accepted r ctx → t.isPacked = false →
      (alignedDecoder rnd scope name).wireSize = t.total ∧
        ∀ base, base + t.total ≤ buf.length →
          (alignedDecoder rnd scope name).decode (buf.drop base)
            = (alignDecoder rnd).decodeAt scope name buf base := by
  refine scope_induction ?_ ?_
  · intro n t rest ih hacc hpk
    have ht : t.Laid r ctx rest := hacc.laid.1
    have hwire : t.wireSize = t.total := by
      rw [ht.wire_eq, hpk]
      rfl
    have henv : InPlace rest buf (alignedDecoder rnd rest) ((alignDecoder rnd).decodeAt rest) :=
      fun m c hc hcpk => ih m c hc hacc.tail hcpk
    unfold alignedDecoder AlignDecoder.decodeAt
    rw [resolve_head, resolve_head]
    exact ⟨hwire, fun base hin =>
      alignedType_eq henv ht (hacc.valid _ (List.mem_cons_self ..)) hpk hin⟩
  · intro n t₀ rest m t hm ih hacc hpk
    unfold alignedDecoder AlignDecoder.decodeAt
    rw [resolve_tail t₀ rest hm, resolve_tail t₀ rest hm]
    exact ih hacc.tail hpk

end InPlace

end ProtoEmb.Codec.TypeScript
