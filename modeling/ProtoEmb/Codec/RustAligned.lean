import ProtoEmb.Codec.RustDecode
import ProtoEmb.Codec.AlignedDecode

/-!
# `T::decode` of an aligned type, in place

The generated decoder of an aligned type hands each nested type the rest of the slice and
keeps a running offset of its own. On a slice of at least `WIRE_SIZE` bytes this is the
decoder that reads every part at its precomputed offset (`alignedDecoder_inPlace`): the running
offset is the one of `process_schema`, and no `?` returns early.
-/

namespace ProtoEmb.Codec.Rust

open ProtoEmb.Lib ProtoEmb.Schema

/-- A leaf, from its bytes. -/
def unleaf (fromUtf8Lossy : List UInt8 → List UInt8) (_scalar : Bool) (e : Elem)
    (bs : List UInt8) : Option Value :=
  if e.isString then some (.str (fromUtf8Lossy (bs.takeWhile fun b => b ≠ 0)))
  else if e.isBool then bs.head?.map fun b => .bool (b ≠ 0)
  else if e.isEnum then do
    let b ← bs.head?
    let t ← e.enum
    let i ← fromWire t b.toNat
    return .enum i
  else alignedNumber e bs

/-- The aligned decoder that reads in place. -/
def alignDecoder (fromUtf8Lossy : List UInt8 → List UInt8) : AlignDecoder where
  toAlignLang := alignLang
  unleaf := unleaf fromUtf8Lossy
  unknownTag u _ := u.variants[0]?.map fun v => .union 0 (defaultLeaf v.elem)

section InPlace

variable {fromUtf8Lossy : List UInt8 → List UInt8} {env : String → Decoder}
  {env' : String → List UInt8 → Nat → Option Value} {rnd : Rat → Rat} {ctx : Context}
  {scope : Scope} {buf : List UInt8} {base : Nat}

/-- A read in the rest of a slice is a read in the slice. -/
theorem load_drop (h : base ≤ buf.length) (off n : Nat) :
    load (buf.drop base) off n = load buf (base + off) n := by
  unfold load
  rw [List.length_drop, List.drop_drop]
  by_cases hin : base + off + n ≤ buf.length
  · rw [if_pos hin, if_pos (by omega)]
  · rw [if_neg hin, if_neg (by omega)]

theorem load_one {p : Nat} (h : p < buf.length) : load buf p 1 = some [buf[p]] := by
  rw [load, if_pos (by omega), List.drop_eq_getElem_cons h]
  rfl

/-- The decoders of the nested types read in place. -/
def InPlace (scope : Scope) (buf : List UInt8) (env : String → Decoder)
    (env' : String → List UInt8 → Nat → Option Value) : Prop :=
  ∀ m t, scope.lookup m = some t → t.isPacked = false → (env m).wireSize = t.total ∧
    ∀ base, base + t.total ≤ buf.length →
      (env m).decode (buf.drop base) = (env' m buf base).map some

theorem loadSize_eq {e : Elem} (hl : e.Leaf rnd ctx false) (hs : e.isString = false) :
    AlignDecoder.loadSize e.size e = some e.size := by
  unfold AlignDecoder.loadSize
  rw [if_neg (by rw [hs]; exact Bool.false_ne_true)]
  split
  next h =>
    rw [Bool.or_eq_true] at h
    rw [byte_size hl hs h]
  next => rfl

/-- A bool, an enum or a number is made of its bytes. -/
theorem alignedExpr_eq (fromUtf8Lossy : List UInt8 → List UInt8) {e : Elem}
    (hl : e.Leaf rnd ctx false) (hs : e.isString = false) {off : Nat}
    (hin : base + off + e.size ≤ buf.length) (s : Bool) :
    alignedExpr (buf.drop base) e off
      = (load buf (base + off) e.size).bind (unleaf fromUtf8Lossy s e) := by
  have hstr : ¬ e.isString = true := by
    rw [hs]
    exact Bool.false_ne_true
  unfold alignedExpr unleaf
  simp only [if_neg hstr]
  by_cases hb : e.isBool = true
  · have hsize := byte_size hl hs (Or.inl hb)
    rw [hsize] at hin ⊢
    rw [load_one (by omega), List.getElem?_drop, List.getElem?_eq_getElem (by omega)]
    simp [if_pos hb]
  by_cases he : e.isEnum = true
  · have hsize := byte_size hl hs (Or.inr he)
    rw [hsize] at hin ⊢
    rw [load_one (by omega), List.getElem?_drop, List.getElem?_eq_getElem (by omega)]
    simp [if_neg hb, if_pos he]
  · have hsize := number_size hl hs (by simpa using hb) (by simpa using he)
    have hwidth : numberWidth e.size = e.size := by rw [hsize, numberWidth_typeSize]
    simp only [if_neg hb, if_neg he, hwidth, load_drop (show base ≤ buf.length by omega)]
    rfl

/-- An element is read where its precomputed offset says. -/
theorem alignedElem_eq (fromUtf8Lossy : List UInt8 → List UInt8)
    (henv : InPlace scope buf env env') {e : Elem}
    (he : e.Laid rnd ctx scope false) (hs : e.isString = false) {off : Nat}
    (hin : base + off + e.size ≤ buf.length) (s : Bool) :
    alignedElem env (buf.drop base) e off
      = ((alignDecoder fromUtf8Lossy).reader env' ((alignDecoder fromUtf8Lossy).add base) buf).elem
          off s e.size e := by
  have hadd : (alignDecoder fromUtf8Lossy).add base off = some (base + off) := rfl
  simp only [AlignDecoder.reader, hadd, alignedElem, Option.bind_eq_bind, Option.bind_some]
  by_cases hn : e.isNested = true
  · obtain ⟨t, ht, hpk, hsize⟩ := he.nested hn
    have hdec := (henv _ t ht hpk).2 (base + off) (by omega)
    rw [if_pos hn, if_pos hn, if_pos (by rw [List.length_drop]; omega), List.drop_drop, hdec]
    cases env' e.type buf (base + off) <;> rfl
  · have hl := he.leaf (by simpa using hn)
    rw [if_neg hn, if_neg hn, loadSize_eq hl hs, Option.bind_some]
    exact alignedExpr_eq fromUtf8Lossy hl hs hin s

/-- So are the elements of an array, one behind the other. -/
theorem alignedArray_eq (fromUtf8Lossy : List UInt8 → List UInt8)
    (henv : InPlace scope buf env env') {f : Field}
    (he : f.elem.Laid rnd ctx scope false) (hs : f.elem.isString = false) :
    ∀ (n i : Nat), base + f.offset + (i + n) * f.elem.size ≤ buf.length →
      alignedArray env (buf.drop base) f.elem f.offset n i
        = ((alignDecoder fromUtf8Lossy).reader env' ((alignDecoder fromUtf8Lossy).add base)
            buf).array f n i := by
  intro n
  induction n with
  | zero => intro i _; rfl
  | succ n ih =>
    intro i hin
    have hlast : (i + (n + 1)) * f.elem.size = i * f.elem.size + f.elem.size + n * f.elem.size := by
      ring
    have hrest := ih (i + 1) (by rw [Nat.add_assoc i 1 n, Nat.add_comm 1 n]; exact hin)
    rw [hlast] at hin
    rw [alignedArray, Reader.array, hrest,
      alignedElem_eq fromUtf8Lossy henv he hs (by omega) false]

/-- A field that is a single value. -/
theorem alignedScalar_eq (henv : InPlace scope buf env env') {f : Field} {off : Nat}
    (hf : f.Laid rnd ctx scope false off) (ha : f.isArray = false) (ho : f.isOptional = false)
    (hin : base + off + f.size ≤ buf.length) :
    alignedScalar fromUtf8Lossy env (buf.drop base) f off
      = (((alignDecoder fromUtf8Lossy).reader env' ((alignDecoder fromUtf8Lossy).add base)
          buf).elem f.offset true f.size f.elem).map some := by
  have hsize := scalar_size hf ha ho
  have hoff := hf.offset_eq
  rw [hsize] at hin
  have hadd : (alignDecoder fromUtf8Lossy).add base f.offset = some (base + f.offset) := rfl
  simp only [AlignDecoder.reader, hadd, alignedScalar, Option.bind_eq_bind, Option.bind_some]
  -- the nested decoder is called on a slice that starts at the value
  by_cases hn : f.elem.isNested = true
  · obtain ⟨t, ht, hpk, htotal⟩ := hf.elem.nested hn
    have hdec := (henv _ t ht hpk).2 (base + off) (by omega)
    rw [if_pos hn, if_pos hn, if_pos (by rw [List.length_drop]; omega), List.drop_drop, hdec, hoff]
  rw [if_neg hn, if_neg hn]
  have hl := hf.elem.leaf (by simpa using hn)
  by_cases hs : f.elem.isString = true
  · rw [if_pos hs, AlignDecoder.loadSize, if_pos hs, alignedString]
    cases f.elem.maxLength with
    | none => rfl
    | some n =>
      simp only [Option.bind_eq_bind, Option.bind_some, hoff,
        load_drop (show base ≤ buf.length by omega)]
      cases load buf (base + off) n with
      | none => rfl
      | some bs => simp [alignDecoder, unleaf, hs]
  have hstr : f.elem.isString = false := by simpa using hs
  rw [if_neg hs, hsize, loadSize_eq hl hstr, Option.bind_some, hoff]
  by_cases hbe : (f.elem.isBool || f.elem.isEnum) = true
  · rw [if_pos hbe, alignedExpr_eq fromUtf8Lossy hl hstr hin true]
    rfl
  · -- the bytes of a number are as many as the array has
    rw [if_neg hbe]
    simp only [Bool.or_eq_true, not_or, Bool.not_eq_true] at hbe
    have hnum := number_size hl hstr hbe.1 hbe.2
    have hload : load buf (base + off) f.elem.size
        = some ((buf.drop (base + off)).take f.elem.size) := if_pos hin
    have hlen : ((buf.drop (base + off)).take f.elem.size).length
        = numberWidth f.elem.size := by
      rw [List.length_take, List.length_drop, hnum, numberWidth_typeSize]
      omega
    rw [load_drop (by omega), hload, Option.bind_some, Option.bind_some, if_pos hlen]
    simp [alignDecoder, unleaf, hstr, hbe.1, hbe.2]

/-- A field of any kind fills its room, so the offset behind it is that of the next one. -/
theorem alignedField_eq (henv : InPlace scope buf env env') {f : Field} {off : Nat}
    (hf : f.Laid rnd ctx scope false off) (hv : f.Valid)
    (hin : base + off + f.size ≤ buf.length) :
    alignedField fromUtf8Lossy env (buf.drop base) f off
      = (((alignDecoder fromUtf8Lossy).reader env' ((alignDecoder fromUtf8Lossy).add base)
          buf).field f).map some := by
  have hoff := hf.offset_eq
  unfold alignedField Reader.field
  by_cases ha : f.isArray = true
  · have hsize := array_size hf hv ha
    rw [hsize] at hin
    rw [if_pos ha, if_pos ha, ← hoff, alignedArray_eq fromUtf8Lossy henv hf.elem
      (hv.array (hf.array_eq ▸ ha)).2 f.arrayLen 0 (by rw [Nat.zero_add, hoff]; exact hin)]
    cases Reader.array _ f f.arrayLen 0 <;> rfl
  rw [if_neg ha, if_neg ha]
  by_cases ho : f.isOptional = true
  · have hsize := optional_size hf (by simpa using ha) ho
    have hval := hf.value_eq
    rw [Field.flagSize, if_pos ho] at hval
    obtain ⟨b, hb⟩ : ∃ b, buf[base + off]? = some b := ⟨_, List.getElem?_eq_getElem (by omega)⟩
    have hget : (buf.drop base)[off]? = some b := by rw [List.getElem?_drop, hb]
    have hflag : ((alignDecoder fromUtf8Lossy).reader env' ((alignDecoder fromUtf8Lossy).add base)
        buf).flag f.offset = some (decide (b ≠ 0)) := by
      show (buf[base + f.offset]?).bind _ = _
      rw [hoff, hb]
      rfl
    rw [if_pos ho, if_pos ho, hget, hflag, hval,
      alignedElem_eq fromUtf8Lossy henv hf.elem
        (hv.optional (hf.optional_eq ▸ ho)) (by omega) false]
    simp only [Option.bind_eq_bind, Option.bind_some]
    by_cases hset : b ≠ 0
    · rw [if_pos hset, if_pos (decide_eq_true hset)]
      cases Reader.elem _ (off + 1) false f.elem.size f.elem <;> rfl
    · rw [if_neg hset, if_neg (by simpa using hset)]
      rfl
  · rw [if_neg ho, if_neg ho]
    exact alignedScalar_eq henv hf (by simpa using ha) (by simpa using ho) hin

/-- A field that is decoded is passed by its size: a string has a `max_length`. -/
theorem advance_of_field (henv : InPlace scope buf env env') {f : Field} {off : Nat} {v : Value}
    (hf : f.Laid rnd ctx scope false off) (hv : f.Valid)
    (h : ((alignDecoder fromUtf8Lossy).reader env' ((alignDecoder fromUtf8Lossy).add base)
      buf).field f = some v) : alignLang.advance (fun m => (env m).wireSize) f = some f.size := by
  by_cases hn : f.elem.isNested = true
  · obtain ⟨t, ht, hpk, htotal⟩ := hf.elem.nested hn
    exact alignLang_advancesNested hf hv hn ((henv _ t ht hpk).1.trans htotal.symm)
  · refine alignLang_advances hf hv (fun hs => ?_) (by simpa using hn)
    obtain ⟨ha, ho⟩ := single_of_string hf hv hs
    rw [Reader.field, if_neg (by simp [ha]), if_neg (by simp [ho])] at h
    have hadd : (alignDecoder fromUtf8Lossy).add base f.offset = some (base + f.offset) := rfl
    simp only [AlignDecoder.reader, hadd, if_neg hn, AlignDecoder.loadSize, if_pos hs,
      Option.bind_eq_bind, Option.bind_some, Option.bind_eq_some_iff] at h
    obtain ⟨n, hmax, _⟩ := h
    rw [hmax]
    rfl

/-- The fields of a struct in a row. -/
theorem alignedFields_eq (henv : InPlace scope buf env env') :
    ∀ (fs : List Field) {off : Nat}, FieldsLaid rnd ctx scope false off fs →
      (∀ f ∈ fs, f.Valid) → base + off + (fs.map Field.size).sum ≤ buf.length →
      alignedFields fromUtf8Lossy env (buf.drop base) off fs
        = (((alignDecoder fromUtf8Lossy).reader env' ((alignDecoder fromUtf8Lossy).add base)
            buf).fields fs).map some := by
  intro fs
  induction fs with
  | nil => intro off _ _ _; rfl
  | cons f fs ih =>
    intro off hlaid hvalid hin
    rw [List.map_cons, List.sum_cons] at hin
    have hv := hvalid f (List.mem_cons_self ..)
    rw [alignedFields, Reader.fields, alignedField_eq henv hlaid.1
      hv (by omega)]
    cases hfield : Reader.field _ f with
    | none => rfl
    | some v =>
      have hrest := ih hlaid.2 (fun g hg => hvalid g (List.mem_cons_of_mem _ hg)) (by omega)
      simp only [Option.map_some, Option.bind_eq_bind, Option.bind_some,
        advance_of_field henv hlaid.1 hv hfield, hrest]
      cases Reader.fields _ fs <;> rfl

/-- A type, given that the types before it are read in place. -/
theorem alignedType_eq (henv : InPlace scope buf env env') {t : TypeDef}
    (ht : t.Laid rnd ctx scope) (hv : t.Valid) (hpk : t.isPacked = false)
    (hin : base + t.total ≤ buf.length) :
    alignedType fromUtf8Lossy env (buf.drop base) t
      = (((alignDecoder fromUtf8Lossy).reader env' ((alignDecoder fromUtf8Lossy).add base)
          buf).type t).map some := by
  cases t with
  | struct s =>
    have hs : s.Laid rnd ctx scope := ht
    have hfields := hs.fields
    rw [show s.isPacked = false from hpk] at hfields
    have htotal : base + s.total ≤ buf.length := hin
    rw [hs.total_eq] at htotal
    rw [alignedType, Reader.type,
      alignedFields_eq henv s.fields hfields hv (by omega)]
    cases Reader.fields _ s.fields <;> rfl
  | union u =>
    have hu : u.Laid rnd ctx := ht
    have hpk' : u.isPacked = false := hpk
    have hpay := hu.payload_eq
    have hle := hu.payload_le
    have hsize : u.tagSize = 1 := by
      rw [Union.tagSize, hpk']
      rfl
    have hin' : base + u.total ≤ buf.length := hin
    -- the payload is in the buffer, so the tag in front of it is
    obtain ⟨b, hb⟩ : ∃ b, buf[base]? = some b := ⟨_, List.getElem?_eq_getElem (by omega)⟩
    have hget : (buf.drop base)[0]? = some b := by rw [List.getElem?_drop, Nat.add_zero, hb]
    have htag : ((alignDecoder fromUtf8Lossy).reader env' ((alignDecoder fromUtf8Lossy).add base)
        buf).tag 0 u.tagSize = some b.toNat := by
      show (buf[base + 0]?).bind _ = _
      rw [Nat.add_zero, hb]
      rfl
    rw [alignedType, Reader.type, hget, htag]
    simp only [Option.bind_eq_bind, Option.bind_some]
    -- an unknown tag is an error in both
    cases hw : u.variants[b.toNat]? with
    | none =>
      show (u.variants[0]?.map _).map some = _
      rfl
    | some w =>
      have hmem := List.mem_of_getElem? hw
      obtain ⟨hlaid, hstr⟩ := hu.variant hv hmem scope
      rw [hpk'] at hlaid
      have hfits := hu.fits w hmem
      have hleaf := (hv w hmem).leaf
      have helem := alignedElem_eq fromUtf8Lossy henv hlaid hstr
        (show base + u.payloadOffset + w.elem.size ≤ buf.length by omega) false
      rw [alignedElem, if_neg (by rw [hleaf]; exact Bool.false_ne_true)] at helem
      simp only [helem]
      cases Reader.elem _ u.payloadOffset false w.elem.size w.elem <;> rfl

/-- **The decoder of an aligned type reads in place.** -/
theorem alignedDecoder_inPlace :
    ∀ (scope : Scope) (name : String) (t : TypeDef), scope.lookup name = some t →
      scope.Accepted rnd ctx → t.isPacked = false →
      (alignedDecoder fromUtf8Lossy scope name).wireSize = t.total ∧
        ∀ base, base + t.total ≤ buf.length →
          (alignedDecoder fromUtf8Lossy scope name).decode (buf.drop base)
            = ((alignDecoder fromUtf8Lossy).decodeAt scope name buf base).map some := by
  refine scope_induction ?_ ?_
  · intro n t rest ih hacc hpk
    have ht : t.Laid rnd ctx rest := hacc.laid.1
    have hwire : t.wireSize = t.total := by
      rw [ht.wire_eq, hpk]
      rfl
    have henv : InPlace rest buf (alignedDecoder fromUtf8Lossy rest)
        ((alignDecoder fromUtf8Lossy).decodeAt rest) :=
      fun m c hc hcpk => ih m c hc hacc.tail hcpk
    unfold alignedDecoder AlignDecoder.decodeAt
    rw [resolve_head, resolve_head]
    refine ⟨hwire, fun base hin => ?_⟩
    have hlen : ¬ (buf.drop base).length < t.wireSize := by
      rw [List.length_drop]
      omega
    show (if (buf.drop base).length < t.wireSize then some none else _) = _
    rw [if_neg hlen]
    exact alignedType_eq henv ht (hacc.valid _ (List.mem_cons_self ..)) hpk hin
  · intro n t₀ rest m t hm ih hacc hpk
    unfold alignedDecoder AlignDecoder.decodeAt
    rw [resolve_tail t₀ rest hm, resolve_tail t₀ rest hm]
    exact ih hacc.tail hpk

end InPlace

end ProtoEmb.Codec.Rust
