import ProtoEmb.Codec.Native

/-!
# `T::decode` in Rust

The decoder of an aligned type in `protocol.rs.j2`, and with the packed one the decoder of
any type of the schema. It returns an `Option`: `None` if the slice is shorter than
`WIRE_SIZE`, and also where a `?` in its body says so, for a nested field or the bytes of a
number. An element, an optional value and a variant are read by `rs_aligned_decode_expr`,
which falls back on `Default::default()` instead.

A result is `some none` for `None`; `none` is a panic, or code that does not compile: an
aligned `f32` is decoded as a `u32`. On an accepted schema no `?` returns early, so `None`
means a short slice and nothing else (`decodeOf_none_iff`).

`fromUtf8Lossy` is the standard library's conversion, on the bytes of the string.
-/

namespace ProtoEmb.Codec.Rust

open ProtoEmb.Lib ProtoEmb.Schema

/-- What the code of a type offers to the types that embed it. -/
structure Decoder where
  wireSize : Nat
  /-- `Default::default()` -/
  default : Option Value
  decode : List UInt8 → Option (Option Value)

/-! ## Defaults -/

section Default

variable (default : String → Option Value)

/-- `Default::default()` of an element. -/
def defaultElem (e : Elem) : Option Value :=
  if e.isNested then default e.type
  else if e.isString then some (.str [])
  else some (defaultLeaf e)

/-- The default of a field. The standard library implements `Default` for arrays of at most 32
elements, so a longer one does not compile; an absent value is the default of an optional
field, whose type has to compile all the same. -/
def defaultField (f : Field) : Option Value :=
  if f.isArray then
    if f.arrayLen ≤ 32 then
      (defaultElem default f.elem).map fun v => .array (List.replicate f.arrayLen v)
    else none
  else if f.isOptional then (defaultElem default f.elem).map fun _ => .absent
  else defaultElem default f.elem

/-- The derived default of a struct, and the first variant of a union. -/
def defaultType : TypeDef → Option Value
  | .struct s => (s.fields.mapM (defaultField default)).map .struct
  | .union u => u.variants[0]?.map fun v => .union 0 (defaultLeaf v.elem)

end Default

/-- `T::default()` of a type of either encoding; `none` if its code does not compile. -/
def defaultOf : Scope → String → Option Value := resolve none defaultType

section Decoder

variable (fromUtf8Lossy : List UInt8 → List UInt8) (env : String → Decoder)

/-! ## Leaves -/

/-- `iN::from_le_bytes(..) as i32` or `uN::from_le_bytes(..) as u32`, and the division by the
scale. An `f32` gets a `u32` here, which does not compile. -/
def alignedNumber (e : Elem) (bs : List UInt8) : Option Value :=
  let n : Int := if e.isSigned then wrapS (8 * bs.length) (ofLeBytes bs) else ofLeBytes bs
  if e.isFloat then none
  else if e.rawStorage || !e.hasScale then some (.int n)
  else (divScale (!e.isSigned) e n).map .int

/-- The bytes a number is read from. -/
def numberWidth (width : Nat) : Nat := if width = 1 then 1 else if width = 2 then 2 else 4

/-- A bool, an enum or a number at an offset: `rs_aligned_decode_expr` for a leaf. -/
def alignedExpr (buf : List UInt8) (e : Elem) (off : Nat) : Option Value :=
  if e.isBool then (buf[off]?).map fun b => .bool (b ≠ 0)
  else if e.isEnum then do
    let b ← buf[off]?
    let t ← e.enum
    let i ← fromWire t b.toNat
    return .enum i
  else do
    let bs ← load buf off (numberWidth e.size)
    alignedNumber e bs

/-- `rs_aligned_decode_expr`. -/
def alignedElem (buf : List UInt8) (e : Elem) (off : Nat) : Option Value :=
  if e.isNested then
    if off ≤ buf.length then do
      let v ← (env e.type).decode (buf.drop off)
      match v with
      | some v => return v
      | none => (env e.type).default
    else none
  else alignedExpr buf e off

/-- The elements of an array from element `i`, of `n` that are left. -/
def alignedArray (buf : List UInt8) (e : Elem) (base : Nat) : Nat → Nat → Option (List Value)
  | 0, _ => some []
  | n + 1, i => do
    let v ← alignedElem env buf e (base + i * e.size)
    let vs ← alignedArray buf e base n (i + 1)
    return v :: vs

/-- A string field: the bytes before the first zero. -/
def alignedString (buf : List UInt8) (e : Elem) (off : Nat) : Option Value := do
  let n ← e.maxLength
  let bs ← load buf off n
  return .str (fromUtf8Lossy (bs.takeWhile fun b => b ≠ 0))

/-- A field that is neither an array nor optional. The slice of a number becomes an array of
its native size, or the decoder returns `None`. -/
def alignedScalar (buf : List UInt8) (f : Field) (off : Nat) : Option (Option Value) :=
  if f.elem.isNested then
    if off ≤ buf.length then (env f.elem.type).decode (buf.drop off) else none
  else if f.elem.isString then (alignedString fromUtf8Lossy buf f.elem off).map some
  else if f.elem.isBool || f.elem.isEnum then (alignedExpr buf f.elem off).map some
  else do
    let bs ← load buf off f.size
    if bs.length = numberWidth f.size then (alignedNumber f.elem bs).map some else return none

/-! ## Types -/

/-- The statement of a field. -/
def alignedField (buf : List UInt8) (f : Field) (off : Nat) : Option (Option Value) :=
  if f.isArray then
    (alignedArray env buf f.elem off f.arrayLen 0).map fun vs => some (.array vs)
  else if f.isOptional then do
    let b ← buf[off]?
    if b ≠ 0 then (alignedElem env buf f.elem (off + 1)).map fun v => some (.present v)
    else return some .absent
  else alignedScalar fromUtf8Lossy env buf f off

/-- The fields, at a running offset. -/
def alignedFields (buf : List UInt8) : Nat → List Field → Option (Option (List Value))
  | _, [] => some (some [])
  | off, f :: fs => do
    let v ← alignedField fromUtf8Lossy env buf f off
    match v with
    | none => return none
    | some v => do
      let n ← alignLang.advance (fun m => (env m).wireSize) f
      let vs ← alignedFields buf (off + n) fs
      return vs.map fun vs => v :: vs

def alignedType (buf : List UInt8) : TypeDef → Option (Option Value)
  | .struct s => do
    let vs ← alignedFields fromUtf8Lossy env buf 0 s.fields
    return vs.map .struct
  | .union u => do
    let tag ← buf[0]?
    match u.variants[tag.toNat]? with
    | some w => (alignedExpr buf w.elem u.payloadOffset).map fun v => some (.union tag.toNat v)
    | none => (defaultType (fun m => (env m).default) (.union u)).map some

end Decoder

/-- The code of a type. -/
def alignedDecoder (fromUtf8Lossy : List UInt8 → List UInt8) : Scope → String → Decoder :=
  resolve ⟨0, none, fun _ => none⟩ fun env t =>
    { wireSize := t.wireSize
      default := defaultType (fun m => (env m).default) t
      decode := fun buf =>
        if buf.length < t.wireSize then some none else alignedType fromUtf8Lossy env buf t }

/-- `v.encode()` of a type of either encoding. -/
def encodeOf (fl : FloatExprs) (scope : Scope) (name : String) (v : Value) :
    Option (List UInt8) := do
  let t ← scope.lookup name
  if t.isPacked then (lang fl).encode scope name v else alignLang.encodeCopied scope name v

/-- `T::decode(buf)` of a type of either encoding. -/
def decodeOf (fl : FloatExprs) (fromUtf8Lossy : List UInt8 → List UInt8) (scope : Scope)
    (name : String) (buf : List UInt8) : Option (Option Value) := do
  let t ← scope.lookup name
  if t.isPacked then decode fl scope name buf
  else (alignedDecoder fromUtf8Lossy scope name).decode buf

/-! ## `None` means a short slice -/

section NotNone

variable {fromUtf8Lossy : List UInt8 → List UInt8} {env : String → Decoder} {rnd : Rat → Rat}
  {ctx : Context} {scope : Scope} {buf : List UInt8}

theorem map_some_ne_none {α β : Type} (x : Option α) (f : α → β) :
    (x.map fun a => some (f a)) ≠ some none := by
  cases x <;> simp

/-- The decoders of the nested types keep to `None` for short slices, and their sizes are the
sizes in the scope. -/
def Gated (scope : Scope) (env : String → Decoder) : Prop :=
  ∀ m c, scope.lookup m = some c → c.isPacked = false →
    (env m).wireSize = c.total ∧ ∀ buf, c.total ≤ buf.length → (env m).decode buf ≠ some none

theorem numberWidth_typeSize (type : String) : numberWidth (typeSize type) = typeSize type := by
  rcases typeSize_cases type with h | h | h
  all_goals rw [h]; rfl

/-- The statement of a field inside the slice does not return early. -/
theorem alignedField_ne_none (henv : Gated scope env) {f : Field} {off : Nat}
    (hf : f.Laid rnd ctx scope false off) (hfit : off + f.size ≤ buf.length) :
    alignedField fromUtf8Lossy env buf f off ≠ some none := by
  unfold alignedField
  by_cases ha : f.isArray = true
  · rw [if_pos ha]
    exact map_some_ne_none _ _
  rw [if_neg ha]
  by_cases ho : f.isOptional = true
  · rw [if_pos ho]
    cases buf[off]? with
    | none => simp
    | some b =>
      simp only [Option.bind_eq_bind, Option.bind_some]
      split
      · exact map_some_ne_none _ _
      · simp
  rw [if_neg ho, alignedScalar]
  have hsize := scalar_size hf (by simpa using ha) (by simpa using ho)
  by_cases hn : f.elem.isNested = true
  · -- the rest of the slice holds the nested type
    obtain ⟨c, hc, hpk, hchild⟩ := hf.elem.nested hn
    rw [if_pos hn, if_pos (by omega)]
    refine (henv _ c hc hpk).2 _ ?_
    rw [List.length_drop]
    omega
  rw [if_neg hn]
  by_cases hs : f.elem.isString = true
  · rw [if_pos hs]
    exact map_some_ne_none _ _
  rw [if_neg hs]
  by_cases hbe : (f.elem.isBool || f.elem.isEnum) = true
  · rw [if_pos hbe]
    exact map_some_ne_none _ _
  rw [if_neg hbe, load, if_pos hfit]
  -- a number has one, two or four bytes, so the slice fits the array
  have hleaf := hf.elem.leaf (by simpa using hn)
  simp only [Bool.or_eq_true, not_or, Bool.not_eq_true] at hs hbe
  have hwidth := number_size hleaf hs hbe.1 hbe.2
  have hlen : ((buf.drop off).take f.size).length = numberWidth f.size := by
    rw [List.length_take, List.length_drop, hsize, hwidth, numberWidth_typeSize]
    omega
  simp only [Option.bind_eq_bind, Option.bind_some, if_pos hlen]
  exact map_some_ne_none _ _

/-- The running offset, where the code compiles, is that of `process_schema`. -/
theorem advance_eq {wire : String → Nat} (hwire : ∀ m c, scope.lookup m = some c →
      c.isPacked = false → wire m = c.total) {f : Field} {off n : Nat}
    (hf : f.Laid rnd ctx scope false off) (hv : f.Valid)
    (h : alignLang.advance wire f = some n) : n = f.size := by
  by_cases hn : f.elem.isNested = true
  · obtain ⟨c, hc, hpk, hchild⟩ := hf.elem.nested hn
    have hadv := alignLang_advancesNested hf hv hn ((hwire _ c hc hpk).trans hchild.symm)
    exact Option.some.inj (h.symm.trans hadv)
  · have hleaf : f.elem.isNested = false := by simpa using hn
    by_cases hstr : f.elem.isString = true → f.elem.maxLength.isSome = true
    · have hadv := @alignLang_advances rnd ctx scope off f wire hf hv hstr hleaf
      exact Option.some.inj (h.symm.trans hadv)
    · -- a string without `max_length` does not compile
      obtain ⟨hs, hnone⟩ := Classical.not_imp.mp hstr
      rw [Bool.not_eq_true, Option.isSome_eq_false_iff, Option.isNone_iff_eq_none] at hnone
      obtain ⟨ha, ho⟩ := single_of_string hf hv hs
      simp [alignLang, ha, ho, hleaf, hs, hnone] at h

theorem alignedFields_ne_none (henv : Gated scope env) :
    ∀ (fs : List Field) {off : Nat}, FieldsLaid rnd ctx scope false off fs →
      (∀ f ∈ fs, f.Valid) → off + (fs.map Field.size).sum ≤ buf.length →
      alignedFields fromUtf8Lossy env buf off fs ≠ some none := by
  intro fs
  induction fs with
  | nil => intro off _ _ _; simp [alignedFields]
  | cons f fs ih =>
    intro off hlaid hvalid hfit
    rw [List.map_cons, List.sum_cons] at hfit
    have hfield := @alignedField_ne_none fromUtf8Lossy env rnd ctx scope buf henv f off hlaid.1
      (by omega)
    rw [alignedFields]
    cases hv : alignedField fromUtf8Lossy env buf f off with
    | none => simp
    | some v =>
      cases v with
      | none => exact absurd hv hfield
      | some v =>
        simp only [Option.bind_eq_bind, Option.bind_some]
        cases hn : alignLang.advance (fun m => (env m).wireSize) f with
        | none => simp
        | some n =>
          have hsize := advance_eq (fun m c hc hpk => (henv m c hc hpk).1) hlaid.1
            (hvalid f (List.mem_cons_self ..)) hn
          have hrest := @ih (off + n) (hsize ▸ hlaid.2)
            (fun g hg => hvalid g (List.mem_cons_of_mem _ hg)) (by omega)
          simp only [Option.bind_some]
          cases hvs : alignedFields fromUtf8Lossy env buf (off + n) fs with
          | none => simp
          | some vs =>
            cases vs with
            | none => exact absurd hvs hrest
            | some vs => simp

/-- The decoder of one type, over those of the types it embeds. -/
theorem alignedType_ne_none (henv : Gated scope env) {t : TypeDef} (ht : t.Laid rnd ctx scope)
    (hv : t.Valid) (hpk : t.isPacked = false) (hfit : t.total ≤ buf.length) :
    alignedType fromUtf8Lossy env buf t ≠ some none := by
  cases t with
  | union u =>
    rw [alignedType]
    cases buf[0]? with
    | none => simp
    | some tag =>
      simp only [Option.bind_eq_bind, Option.bind_some]
      split
      · exact map_some_ne_none _ _
      · exact map_some_ne_none _ _
  | struct s =>
    have hs : s.Laid rnd ctx scope := ht
    have hfields := hs.fields
    rw [show s.isPacked = false from hpk] at hfields
    have htotal : s.total ≤ buf.length := hfit
    rw [hs.total_eq] at htotal
    have hne :=
      @alignedFields_ne_none fromUtf8Lossy env rnd ctx scope buf henv s.fields 0 hfields hv
      (by omega)
    rw [alignedType]
    cases hvs : alignedFields fromUtf8Lossy env buf 0 s.fields with
    | none => simp
    | some vs =>
      cases vs with
      | none => exact absurd hvs hne
      | some vs => simp

/-- Every aligned type of an accepted scope is gated by its size alone. -/
theorem alignedDecoder_gated :
    ∀ (scope : Scope) (name : String) (t : TypeDef), scope.lookup name = some t →
      scope.Accepted rnd ctx → t.isPacked = false →
      (alignedDecoder fromUtf8Lossy scope name).wireSize = t.wireSize ∧
        ∀ buf, (alignedDecoder fromUtf8Lossy scope name).decode buf = some none ↔
          buf.length < t.wireSize := by
  refine scope_induction ?_ ?_
  · intro n t rest ih hacc hpk
    have ht : t.Laid rnd ctx rest := hacc.laid.1
    have hwire : t.wireSize = t.total := by
      rw [ht.wire_eq, hpk]
      rfl
    have henv : Gated rest (alignedDecoder fromUtf8Lossy rest) := by
      intro m c hc hcpk
      obtain ⟨hsize, hdec⟩ := ih m c hc hacc.tail hcpk
      have hcw := aligned_wireSize hacc.tail hc hcpk
      refine ⟨hsize.trans hcw, fun buf hlen h => ?_⟩
      have := (hdec buf).mp h
      omega
    unfold alignedDecoder
    rw [resolve_head]
    refine ⟨rfl, fun buf => ?_⟩
    by_cases hlt : buf.length < t.wireSize
    · simp [hlt]
    · simp only [hlt, if_false, iff_false]
      exact alignedType_ne_none henv ht (hacc.valid _ (List.mem_cons_self ..)) hpk (by omega)
  · intro n t₀ rest m t hm ih hacc hpk
    unfold alignedDecoder
    rw [resolve_tail t₀ rest hm]
    exact ih hacc.tail hpk

/-- **`T::decode` returns `None` exactly for a slice shorter than `WIRE_SIZE`.** -/
theorem decodeOf_none_iff {fl : FloatExprs} {name : String} {t : TypeDef}
    (hacc : scope.Accepted rnd ctx) (ht : scope.lookup name = some t) :
    decodeOf fl fromUtf8Lossy scope name buf = some none ↔ buf.length < t.wireSize := by
  unfold decodeOf
  rw [ht, Option.bind_eq_bind, Option.bind_some]
  by_cases hpk : t.isPacked = true
  · rw [if_pos hpk, decode, ht, Option.bind_eq_bind, Option.bind_some]
    by_cases hlt : buf.length < t.wireSize
    · simp [hlt]
    · simp only [hlt, if_false, iff_false]
      cases (lang fl).decode scope name buf <;> simp
  · rw [if_neg hpk]
    exact (alignedDecoder_gated scope name t ht hacc (by simpa using hpk)).2 buf

end NotNone

end ProtoEmb.Codec.Rust
