import ProtoEmb.Codec.Agreement
import ProtoEmb.Codec.RustAligned
import ProtoEmb.Codec.TotalLeaves
import ProtoEmb.Codec.Visits

/-!
# `T::decode` on any bytes

Whatever is in the slice, the `T::decode` of `protocol.rs.j2` for an accepted type returns `None`
if the slice is shorter than `WIRE_SIZE` (`decodeOf_none_iff`). Otherwise it returns `Some`, or it
panics at a part that cannot take what stands there. Since any part is visited on some bytes, and
with any contents, the decoder is total exactly if every part of the type is (`decode_total_iff`):
it lies below bit `2 ^ 32`, has at most 32 bits, and its expression has a value for every pattern.

Code that does not compile decodes nothing. A struct derives `Default`, which the standard
library has for arrays of at most 32 elements; and a negative width, which the schema may give
with `bits`, is no literal of `unpack_bits`, whose width is a `u32`.
-/

namespace ProtoEmb.Codec.Rust

open ProtoEmb.Lib ProtoEmb.Schema

/-! ## Packed types -/

/-- A part of a packed type that can be read whatever is in it. -/
def PackedTotal : Part → Prop
  | .flag off => off < 4294967296
  | .tag off size => off < 4294967296 ∧ off + size ≤ 4294967296 ∧ size ≤ 32
  | .nested off => off < 4294967296
  | .leaf off s k e => off < 4294967296 ∧ off + k ≤ 4294967296 ∧ k ≤ 32 ∧ LeafTotal s e

instance : (p : Part) → Decidable (PackedTotal p)
  | .flag off => inferInstanceAs (Decidable (off < _))
  | .tag off size => inferInstanceAs (Decidable (off < _ ∧ off + size ≤ _ ∧ size ≤ 32))
  | .nested off => inferInstanceAs (Decidable (off < _))
  | .leaf off s k e =>
    inferInstanceAs (Decidable (off < _ ∧ off + k ≤ _ ∧ k ≤ 32 ∧ LeafTotal s e))

section Packed

variable {fl : FloatExprs} {buf : List UInt8} {rnd : Rat → Rat} {ctx : Context} {p : Part}
  {total : Nat}

theorem addU32_eq_some_iff {a b c : Nat} :
    addU32 a b = some c ↔ a + b < 4294967296 ∧ a + b = c := by
  unfold addU32
  split
  next h => simp [h]
  next h => simp [h]

theorem unpackBits_eq_some_iff {off bits u : Nat} :
    unpackBits buf off bits = some u ↔
      (∀ i < bits, off + i < 4294967296 ∧ (off + i) / 8 < buf.length ∧
        (bitAt buf (off + i) = true → i < 32)) ∧
      ofBits (bitsAt buf off bits) = u := by
  refine unpackLoop_eq_some_iff (fun v i w => ?_) bits u
  unfold unpackBit
  simp only [Option.bind_eq_bind, Option.bind_eq_some_iff, addU32_eq_some_iff]
  constructor
  · intro h
    obtain ⟨_, ⟨hlt, rfl⟩, h⟩ := h
    split at h
    next hin =>
      split at h
      next hb =>
        split at h
        next => cases h
        next h32 =>
          rw [if_pos hb]
          exact ⟨⟨hlt, hin, fun _ => by omega⟩, Option.some.inj h⟩
      next hb =>
        rw [if_neg hb]
        exact ⟨⟨hlt, hin, fun h => absurd h hb⟩, Option.some.inj h⟩
    next => cases h
  · intro h
    obtain ⟨⟨hlt, hin, h32⟩, rfl⟩ := h
    refine ⟨_, ⟨hlt, rfl⟩, ?_⟩
    rw [if_pos hin]
    by_cases hb : bitAt buf (off + i) = true
    · have := h32 hb
      rw [if_pos hb, if_neg (by omega), if_pos hb]
    · rw [if_neg hb, if_neg hb]

/-- The offset of a bit, a `u32`. -/
def addr (p : Nat) : Option Nat := if p < 4294967296 then some p else none

theorem addr_eq_some_iff {p o : Nat} : addr p = some o ↔ p < 4294967296 ∧ p = o := by
  unfold addr
  split
  next h => simp [h]
  next h => simp [h]

theorem addressed (fl : FloatExprs) : (lang fl).Addressed addr where
  zero := rfl
  add {base o} h off := by
    obtain ⟨-, rfl⟩ := addr_eq_some_iff.mp h
    rfl

theorem sees (fl : FloatExprs) (buf : List UInt8) : (lang fl).Sees addr buf (bitAt buf) where
  unpack {p o size u} ho hu := by
    obtain ⟨-, rfl⟩ := addr_eq_some_iff.mp ho
    exact (unpackBits_eq_some_iff.mp hu).2.symm

/-- The width literal of a leaf of an accepted type is its size. -/
theorem leafWidth_of_within {off k : Nat} {s : Bool} {e : Elem} {lo hi : Nat}
    (hw : (Part.leaf off s k e).Within rnd ctx true lo hi) :
    k = e.size ∧ PackLang.leafWidth e k = e.size := by
  obtain ⟨rfl, hin⟩ := hw.leaf _ _ _ _ rfl
  refine ⟨rfl, ?_⟩
  unfold PackLang.leafWidth
  split
  next hb => exact (hin.leaf.bool_size hb).symm
  next => rfl

/-- A total part is read from any buffer it lies in. -/
theorem PackedTotal.reads (hfl : FloatsTotal fl) (h : PackedTotal p)
    (hw : p.Within rnd ctx true 0 total) (hbuf : total ≤ 8 * buf.length) :
    (lang fl).Reads addr buf p := by
  have hle := hw.le_hi
  have hread : ∀ {off bits}, off + bits ≤ 4294967296 → bits ≤ 32 → off + bits ≤ total →
      unpackBits buf off bits = some (ofBits (bitsAt buf off bits)) := fun h₁ h₂ h₃ =>
    unpackBits_eq_some_iff.mpr
      ⟨fun i hi => ⟨by omega, by omega, fun _ => by omega⟩, rfl⟩
  cases p with
  | flag off =>
    have hoff : off < 4294967296 := h
    exact ⟨off, _, addr_eq_some_iff.mpr ⟨hoff, rfl⟩, hread (by omega) (by decide) hle⟩
  | tag off size => exact ⟨off, _, addr_eq_some_iff.mpr ⟨h.1, rfl⟩, hread h.2.1 h.2.2 hle⟩
  | nested off => exact ⟨off, addr_eq_some_iff.mpr ⟨h, rfl⟩⟩
  | leaf off s k e =>
    obtain ⟨hoff, hend, h32, hleaf⟩ := h
    obtain ⟨rfl, hwidth⟩ := leafWidth_of_within hw
    have hlt := ofBits_lt (bitsAt buf off e.size)
    rw [bitsAt_length] at hlt
    obtain ⟨v, hv⟩ := (leaf_total_iff hfl h32).mpr hleaf _ hlt
    refine ⟨off, _, v, addr_eq_some_iff.mpr ⟨hoff, rfl⟩, ?_, hv⟩
    rw [hwidth]
    exact hread hend h32 hle

/-- A part that is read whatever is in it is total. -/
theorem packedTotal_of_reads (hfl : FloatsTotal fl) (hw : p.Within rnd ctx true 0 total)
    (h : ∀ x : List Bool, x.length = p.width → ∃ buf,
      bitsAt buf p.off p.width = x ∧ (lang fl).Reads addr buf p) : PackedTotal p := by
  -- with every bit set, all of them have to be below 32
  have hwidth : ∀ {off bits}, (∃ buf u, bitsAt buf off bits = List.replicate bits true ∧
      off < 4294967296 ∧ unpackBits buf off bits = some u) →
      off < 4294967296 ∧ off + bits ≤ 4294967296 ∧ bits ≤ 32 := by
    intro off bits h
    obtain ⟨buf, u, hset, hoff, hu⟩ := h
    have hok := (unpackBits_eq_some_iff.mp hu).1
    rcases Nat.eq_zero_or_pos bits with rfl | hpos
    · exact ⟨hoff, by omega, by omega⟩
    · obtain ⟨hlast, -, h32⟩ := hok (bits - 1) (by omega)
      have hbit : bitAt buf (off + (bits - 1)) = true := by
        have hget := congrArg (fun l : List Bool => l[bits - 1]?) hset
        simpa [bitsAt, hpos] using hget
      have := h32 hbit
      exact ⟨hoff, by omega, by omega⟩
  cases p with
  | flag off =>
    obtain ⟨buf, -, o, u, ho, -⟩ := h [true] rfl
    exact (addr_eq_some_iff.mp ho).1
  | tag off size =>
    obtain ⟨buf, hset, o, u, ho, hu⟩ := h (List.replicate size true) (List.length_replicate ..)
    obtain ⟨hoff, rfl⟩ := addr_eq_some_iff.mp ho
    exact hwidth ⟨buf, u, hset, hoff, hu⟩
  | nested off =>
    obtain ⟨buf, -, o, ho⟩ := h [] rfl
    exact (addr_eq_some_iff.mp ho).1
  | leaf off s k e =>
    obtain ⟨rfl, hlw⟩ := leafWidth_of_within hw
    obtain ⟨buf, hset, o, u, v, ho, hu, -⟩ :=
      h (List.replicate e.size true) (List.length_replicate ..)
    obtain ⟨hoff, rfl⟩ := addr_eq_some_iff.mp ho
    rw [hlw] at hu
    obtain ⟨-, hend, h32⟩ := hwidth ⟨buf, u, hset, hoff, hu⟩
    refine ⟨hoff, hend, h32, (leaf_total_iff hfl h32).mp fun x hx => ?_⟩
    obtain ⟨buf', hbits, o', u', v', ho', hu', hv'⟩ := h (natBits e.size x) (natBits_length ..)
    obtain ⟨-, rfl⟩ := addr_eq_some_iff.mp ho'
    rw [hlw] at hu'
    have hval := (unpackBits_eq_some_iff.mp hu').2
    have hbits' : bitsAt buf' off e.size = natBits e.size x := hbits
    rw [hbits', ofBits_natBits, Nat.mod_eq_of_lt hx] at hval
    rw [hval]
    exact ⟨v', hv'⟩

/-- **When a packed decoder is total.** -/
theorem packed_total_iff (hfl : FloatsTotal fl) {scope : Scope} (hacc : scope.Accepted rnd ctx)
    (hknows : KnowsTags (lang fl).unknownTag scope) {name : String} {t : TypeDef}
    (ht : scope.lookup name = some t) (hpk : t.isPacked = true) :
    (∀ buf, t.wireSize ≤ buf.length → ∃ v, (lang fl).decode scope name buf = some v) ↔
      ∀ p ∈ parts packedCells scope name 0, PackedTotal p := by
  have hwire := packed_wireSize hacc ht hpk
  have hwithin := parts_within (C := packedCells) scope name t ht hacc hpk 0
  rw [Nat.zero_add] at hwithin
  have hiff := fun buf => PackLang.decode_isSome_iff lang_lawful (addressed fl)
    (sees fl buf) hacc hknows ht hpk
  constructor
  · intro h p hp
    refine packedTotal_of_reads hfl (hwithin p hp) fun x hx => ?_
    obtain ⟨r, hr, hvisit⟩ :=
      exists_visit packedCells_lawful scope name t ht hacc hpk 0 p hp x hx
    have hlook : ∀ i, i < t.total → bitAt (fromBits t.wireSize r) i = r i := fun i hi =>
      bitAt_fromBits r (by omega)
    have hin := hvisit (bitAt (fromBits t.wireSize r)) fun i _ hi => hlook i (by omega)
    refine ⟨fromBits t.wireSize r, ?_, ?_⟩
    · have hle := (hwithin p hp).le_hi
      rw [← hr]
      exact Cells.read_congr fun i _ hi => hlook i (by omega)
    · exact (hiff _).mp (h _ (by rw [fromBits_length])) p hin
  · intro h buf hbuf
    refine (hiff buf).mpr fun p hp => ?_
    have hpart := visit_subset packedCells_lawful _ _ _ hp
    exact (h p hpart).reads hfl (hwithin p hpart) (by omega)

end Packed

/-! ## Aligned types -/

/-- A leaf of an aligned type that has a value for all bytes. -/
def AlignedLeafTotal (e : Elem) : Prop :=
  if e.isString then e.maxLength.isSome = true
  else if e.isBool then True
  else if e.isEnum then ∃ t ∈ e.enum, t.count ≤ 256
  else e.isFloat = false ∧ ((e.rawStorage || !e.hasScale) = true ∨
    ∃ k ∈ scaleLit (!e.isSigned) e, k ≠ 0 ∧ ¬ (e.isSigned = true ∧ e.size = 4 ∧ k = -1))

instance (e : Elem) : Decidable (AlignedLeafTotal e) := by
  unfold AlignedLeafTotal
  infer_instance

/-- A part of an aligned type that can be read whatever is in it. -/
def AlignedTotal : Part → Prop
  | .leaf _ _ _ e => AlignedLeafTotal e
  | _ => True

instance : (p : Part) → Decidable (AlignedTotal p)
  | .flag _ | .tag _ _ | .nested _ => inferInstanceAs (Decidable True)
  | .leaf _ _ _ e => inferInstanceAs (Decidable (AlignedLeafTotal e))

section Aligned

variable {fromUtf8Lossy : List UInt8 → List UInt8} {buf : List UInt8} {rnd : Rat → Rat}
  {ctx : Context} {p : Part} {total : Nat} {e : Elem}

/-- A number as it is read from its bytes. -/
def nativeInt (e : Elem) (bs : List UInt8) : Int :=
  if e.isSigned then wrapS (8 * bs.length) (ofLeBytes bs) else ofLeBytes bs

theorem alignedNumber_defined_iff {bs : List UInt8} :
    (∃ v, alignedNumber e bs = some v) ↔ e.isFloat = false ∧
      ((e.rawStorage || !e.hasScale) = true ∨ ∃ k ∈ scaleLit (!e.isSigned) e,
        k ≠ 0 ∧ Fits (!e.isSigned) ((nativeInt e bs).tdiv k)) := by
  have hdef : alignedNumber e bs = if e.isFloat then none
      else if e.rawStorage || !e.hasScale then some (.int (nativeInt e bs))
      else (divScale (!e.isSigned) e (nativeInt e bs)).map .int := rfl
  rw [hdef]
  by_cases hf : e.isFloat = true
  · simp [hf]
  by_cases hr : (e.rawStorage || !e.hasScale) = true
  · simp [hf, hr]
  have hscale : e.hasScale = true := by
    simp only [Bool.or_eq_true, not_or, Bool.not_eq_true', Bool.not_eq_false] at hr
    exact hr.2
  rw [if_neg hf, if_neg hr, divScale, if_pos hscale]
  simp only [Option.map_eq_some_iff, Option.bind_eq_bind, Option.bind_eq_some_iff]
  constructor
  · intro h
    obtain ⟨v, n, ⟨k, hk, hn⟩, -⟩ := h
    obtain ⟨hk0, hfits⟩ := div_defined_iff.mp ⟨n, hn⟩
    exact ⟨by simpa using hf, Or.inr ⟨k, hk, hk0, hfits⟩⟩
  · intro h
    obtain ⟨-, h⟩ := h
    rcases h with h | ⟨k, hk, hk0, hfits⟩
    · exact absurd h hr
    · obtain ⟨n, hn⟩ := div_defined_iff.mpr ⟨hk0, hfits⟩
      exact ⟨_, n, ⟨k, hk, hn⟩, rfl⟩

/-- Of the quotients of 32-bit numbers only `i32::MIN / -1` overflows. -/
theorem tdiv_fits_iff {n k : Int} (hn : Fits false n) (hk : k ≠ 0) :
    Fits false (n.tdiv k) ↔ ¬ (n = -2147483648 ∧ k = -1) := by
  rw [fits_signed] at hn ⊢
  constructor
  · intro h hbad
    obtain ⟨rfl, rfl⟩ := hbad
    exact absurd h.2 (by decide)
  · intro h
    by_cases hone : k = -1
    · subst hone
      rw [Int.tdiv_neg, Int.tdiv_one]
      omega
    · have hbetween : -2147483648 ≤ n.tdiv k ∧ n.tdiv k < 2147483648 := by
        rcases lt_or_gt_of_ne hk with hneg | hpos
        · -- dividing by -2 or less at least halves the number
          have hswap : n.tdiv k = -(n.tdiv (-k)) := by rw [Int.tdiv_neg, Int.neg_neg]
          have habs : (n.tdiv (-k)).natAbs = n.natAbs / (-k).natAbs := Int.natAbs_tdiv ..
          have hhalf : n.natAbs / (-k).natAbs ≤ n.natAbs / 2 :=
            Nat.div_le_div_left (by omega) (by decide)
          omega
        · have hfit := fits_tdiv (u := false) (fits_signed.mpr hn) (show 1 ≤ k by omega)
          exact fits_signed.mp hfit
      exact hbetween

theorem nativeInt_fits {bs : List UInt8} (hlen : bs.length = 1 ∨ bs.length = 2 ∨ bs.length = 4) :
    Fits (!e.isSigned) (nativeInt e bs) := by
  have hlt := ofLeBytes_lt bs
  unfold nativeInt
  cases e.isSigned with
  | false =>
    simp only [Bool.not_false, fits_unsigned, Bool.false_eq_true, if_false]
    rcases hlen with h | h | h <;> rw [h] at hlt <;> omega
  | true =>
    simp only [Bool.not_true, fits_signed, if_true]
    rcases hlen with h | h | h <;> rw [h] <;>
      simp only [wrapS, Nat.reduceMul, Nat.reduceSub, Int.reducePow] <;> split <;> omega

/-- Only four bytes make `i32::MIN`. -/
theorem nativeInt_ne_min {bs : List UInt8} (hlen : bs.length = 1 ∨ bs.length = 2) :
    nativeInt e bs ≠ -2147483648 := by
  unfold nativeInt
  cases e.isSigned with
  | false =>
    simp only [Bool.false_eq_true, if_false]
    omega
  | true =>
    simp only [if_true]
    rcases hlen with h | h <;> rw [h] <;>
      simp only [wrapS, Nat.reduceMul, Nat.reduceSub, Int.reducePow] <;> split <;> omega

theorem scaleLit_fits {u : Bool} {k : Int} (h : scaleLit u e = some k) : Fits u k := by
  unfold scaleLit at h
  split at h
  · exact (lit_eq_some_iff.mp h).2 ▸ (lit_eq_some_iff.mp h).1
  · cases h

/-- **When a number has a value for all bytes.** -/
theorem number_total_iff (hl : e.Leaf rnd ctx false) (hs : e.isString = false)
    (hb : e.isBool = false) (he : e.isEnum = false) :
    (∀ bs : List UInt8, bs.length = e.size → ∃ v, alignedNumber e bs = some v) ↔
      AlignedLeafTotal e := by
  have hsize : e.size = 1 ∨ e.size = 2 ∨ e.size = 4 := by
    rw [number_size hl hs hb he]
    exact typeSize_cases e.type
  have hleaf : AlignedLeafTotal e ↔ e.isFloat = false ∧ ((e.rawStorage || !e.hasScale) = true ∨
      ∃ k ∈ scaleLit (!e.isSigned) e, k ≠ 0 ∧
        ¬ (e.isSigned = true ∧ e.size = 4 ∧ k = -1)) := by
    unfold AlignedLeafTotal
    simp only [hs, hb, he, Bool.false_eq_true, if_false]
  rw [hleaf]
  simp only [alignedNumber_defined_iff]
  constructor
  · intro h
    -- the bytes of `i32::MIN`, or of zero
    obtain ⟨hf, hzero⟩ := h (List.replicate e.size 0) (List.length_replicate ..)
    refine ⟨hf, ?_⟩
    by_cases hr : (e.rawStorage || !e.hasScale) = true
    · exact Or.inl hr
    obtain ⟨k, hk, hk0, -⟩ := hzero.resolve_left hr
    refine Or.inr ⟨k, hk, hk0, fun hbad => ?_⟩
    obtain ⟨hsg, h4, hone⟩ := hbad
    obtain ⟨-, hmin⟩ := h [0, 0, 0, 128] h4.symm
    obtain ⟨k', hk', -, hfits⟩ := hmin.resolve_left hr
    have hval : nativeInt e [0, 0, 0, 128] = -2147483648 := by
      rw [nativeInt, if_pos hsg]
      decide
    cases Option.some.inj (hk'.symm.trans hk)
    rw [hval, hone, hsg] at hfits
    exact absurd hfits (by decide)
  · intro h bs hbs
    obtain ⟨hf, h⟩ := h
    refine ⟨hf, ?_⟩
    rcases h with hr | ⟨k, hk, hk0, hnot⟩
    · exact Or.inl hr
    · refine Or.inr ⟨k, hk, hk0, ?_⟩
      have hfits := @nativeInt_fits e bs (by omega)
      cases hsg : e.isSigned with
      | false =>
        rw [hsg] at hfits hk
        have hk' := scaleLit_fits hk
        have hpos : 1 ≤ k := by
          have := (fits_unsigned.mp hk').1
          omega
        exact fits_tdiv hfits hpos
      | true =>
        rw [hsg] at hfits
        refine (tdiv_fits_iff hfits hk0).mpr fun hbad => ?_
        by_cases h4 : e.size = 4
        · exact hnot ⟨hsg, h4, hbad.2⟩
        · exact nativeInt_ne_min (by omega) hbad.1

theorem load_eq_some_iff {off n : Nat} {bs : List UInt8} :
    load buf off n = some bs ↔
      off + n ≤ buf.length ∧ Cells.read (AlignDecoder.lookByte buf) off n = bs := by
  have hread : off + n ≤ buf.length →
      Cells.read (AlignDecoder.lookByte buf) off n = (buf.drop off).take n := by
    intro hin
    apply List.ext_getElem (by simp; omega)
    intro i h₁ h₂
    rw [Cells.read_length] at h₁
    have hlt : off + i < buf.length := by omega
    simp [Cells.read, AlignDecoder.lookByte, hlt]
  unfold load
  split
  next h => rw [hread h]; simp [h]
  next h => simp [h]

/-- **When a leaf has a value for all bytes.** -/
theorem aligned_leaf_total_iff {s : Bool} (hin : InSchema rnd ctx false s e) :
    ((∃ n, AlignDecoder.loadSize e.size e = some n) ∧ ∀ bs : List UInt8, bs.length = e.size →
      ∃ v, unleaf fromUtf8Lossy s e bs = some v) ↔ AlignedLeafTotal e := by
  -- one byte is enough to have a first one
  have hpos : 1 ≤ e.size → ∀ bs : List UInt8, bs.length = e.size → ∃ b, bs.head? = some b := by
    intro h bs hbs
    cases bs with
    | nil =>
      have : (0 : Nat) = e.size := hbs
      omega
    | cons b bs => exact ⟨b, rfl⟩
  by_cases hs : e.isString = true
  · simp only [AlignedLeafTotal, AlignDecoder.loadSize, unleaf, if_pos hs]
    constructor
    · intro h
      exact Option.isSome_iff_exists.mpr h.1
    · intro h
      exact ⟨Option.isSome_iff_exists.mp h, fun bs _ => ⟨_, rfl⟩⟩
  have hstr : e.isString = false := by simpa using hs
  have hload : ∃ n, AlignDecoder.loadSize e.size e = some n := ⟨_, loadSize_eq hin.leaf hstr⟩
  rw [and_iff_right hload]
  by_cases hb : e.isBool = true
  · have hsize := byte_size hin.leaf hstr (Or.inl hb)
    simp only [AlignedLeafTotal, unleaf, if_neg hs, if_pos hb, iff_true]
    intro bs hbs
    obtain ⟨b, hhead⟩ := hpos (by omega) bs hbs
    rw [hhead]
    exact ⟨_, rfl⟩
  by_cases he : e.isEnum = true
  · have hsize := byte_size hin.leaf hstr (Or.inr he)
    simp only [AlignedLeafTotal, unleaf, if_neg hs, if_neg hb, if_pos he, Option.bind_eq_bind,
      Option.bind_eq_some_iff, Option.pure_def]
    constructor
    · intro h
      -- any byte tells: `from_wire` is defined on all of them or on none
      obtain ⟨_, b, _, t, ht, i, hi, _⟩ := h [0] hsize.symm
      refine ⟨t, ht, ?_⟩
      unfold fromWire at hi
      split at hi
      next hc => exact hc
      next => cases hi
    · intro h bs hbs
      obtain ⟨t, ht, hc⟩ := h
      obtain ⟨b, hhead⟩ := hpos (by omega) bs hbs
      exact ⟨_, b, hhead, t, ht, _, if_pos hc, rfl⟩
  · have hnumber : ∀ bs, unleaf fromUtf8Lossy s e bs = alignedNumber e bs := by
      intro bs
      simp only [unleaf, if_neg hs, if_neg hb, if_neg he]
    simp only [hnumber]
    exact number_total_iff hin.leaf hstr (by simpa using hb) (by simpa using he)

theorem loadSize_size {s : Bool} {n : Nat} (hin : InSchema rnd ctx false s e)
    (h : AlignDecoder.loadSize e.size e = some n) : n = e.size := by
  by_cases hs : e.isString = true
  · rw [AlignDecoder.loadSize, if_pos hs] at h
    rw [string_size hin.leaf hs, h]
    rfl
  · rw [loadSize_eq hin.leaf (by simpa using hs)] at h
    exact (Option.some.inj h).symm

/-- A total part is read from any buffer it lies in. -/
theorem AlignedTotal.reads (h : AlignedTotal p) (hw : p.Within rnd ctx false 0 total)
    (hbuf : total ≤ buf.length) : (alignDecoder fromUtf8Lossy).Reads buf p := by
  have hle := hw.le_hi
  cases p with
  | flag off => exact lt_of_lt_of_le (Nat.lt_of_succ_le hle) hbuf
  | tag off size =>
    cases hw.tag off size rfl rfl
    exact lt_of_lt_of_le (Nat.lt_of_succ_le hle) hbuf
  | nested off => exact trivial
  | leaf off s k e =>
    obtain ⟨rfl, hin⟩ := hw.leaf _ _ _ _ rfl
    obtain ⟨⟨n, hn⟩, hall⟩ := (@aligned_leaf_total_iff fromUtf8Lossy _ _ _ _ hin).mpr h
    cases loadSize_size hin hn
    obtain ⟨v, hv⟩ := hall (Cells.read (AlignDecoder.lookByte buf) off e.size)
      (Cells.read_length ..)
    exact ⟨_, _, v, hn, load_eq_some_iff.mpr ⟨le_trans hle hbuf, rfl⟩, hv⟩

/-- A part that is read whatever is in it is total. -/
theorem alignedTotal_of_reads (hw : p.Within rnd ctx false 0 total)
    (h : ∀ x : List UInt8, x.length = p.width → ∃ buf,
      Cells.read (AlignDecoder.lookByte buf) p.off p.width = x ∧
        (alignDecoder fromUtf8Lossy).Reads buf p) : AlignedTotal p := by
  cases p with
  | leaf off s k e =>
    obtain ⟨rfl, hin⟩ := hw.leaf _ _ _ _ rfl
    refine (@aligned_leaf_total_iff fromUtf8Lossy _ _ _ _ hin).mp ⟨?_, fun bs hbs => ?_⟩
    · obtain ⟨_, _, n, _, _, hn, _⟩ := h (List.replicate e.size 0) (List.length_replicate ..)
      exact ⟨n, hn⟩
    · obtain ⟨buf, hread, n, bs', v, hn, hload, hv⟩ := h bs hbs
      cases loadSize_size hin hn
      have hsame := (load_eq_some_iff.mp hload).2
      have hread' : Cells.read (AlignDecoder.lookByte buf) off e.size = bs := hread
      rw [hread'] at hsame
      rw [hsame]
      exact ⟨v, hv⟩
  | _ => exact trivial

/-- A buffer with given bytes. -/
theorem exists_bytes (n : Nat) (r : Nat → UInt8) :
    ∃ buf : List UInt8, buf.length = n ∧ ∀ i, i < n → AlignDecoder.lookByte buf i = r i := by
  refine ⟨(List.range n).map r, by simp, fun i hi => ?_⟩
  simp [AlignDecoder.lookByte, hi]

/-- **When an aligned decoder is total.** -/
theorem aligned_total_iff {scope : Scope} (hacc : scope.Accepted rnd ctx)
    (hknows : KnowsTags (alignDecoder fromUtf8Lossy).unknownTag scope) {name : String}
    {t : TypeDef} (ht : scope.lookup name = some t) (hpk : t.isPacked = false) :
    (∀ buf, t.total ≤ buf.length →
        ∃ v, (alignDecoder fromUtf8Lossy).decodeAt scope name buf 0 = some v) ↔
      ∀ p ∈ parts alignedCells scope name 0, AlignedTotal p := by
  have hwithin := parts_within (C := alignedCells) scope name t ht hacc hpk 0
  rw [Nat.zero_add] at hwithin
  have hiff : ∀ buf, (∃ v, (alignDecoder fromUtf8Lossy).decodeAt scope name buf 0 = some v) ↔
      ∀ p ∈ visit alignedCells (AlignDecoder.lookByte buf) scope name 0,
        (alignDecoder fromUtf8Lossy).Reads buf p := fun buf =>
    AlignDecoder.decodeAt_isSome_iff (fun _ _ => rfl) scope name t ht hacc hpk hknows 0
  constructor
  · intro h p hp
    refine @alignedTotal_of_reads fromUtf8Lossy _ _ _ _ (hwithin p hp) fun x hx => ?_
    obtain ⟨r, hr, hvisit⟩ :=
      exists_visit alignedCells_lawful scope name t ht hacc hpk 0 p hp x hx
    obtain ⟨buf, hlen, hlook⟩ := exists_bytes t.total r
    have hin := hvisit (AlignDecoder.lookByte buf) fun i _ hi => hlook i (by omega)
    refine ⟨buf, ?_, (hiff buf).mp (h buf hlen.ge) p hin⟩
    have hle := (hwithin p hp).le_hi
    rw [← hr]
    exact Cells.read_congr fun i _ hi => hlook i (by omega)
  · intro h buf hbuf
    refine (hiff buf).mpr fun p hp => ?_
    have hpart := visit_subset alignedCells_lawful _ _ _ hp
    exact (h p hpart).reads (hwithin p hpart) hbuf

end Aligned

/-! ## What does not compile -/

/-- The lengths of the arrays of a field, and of those in its type. -/
def fieldArrayLens (env : String → List Nat) (f : Field) : List Nat :=
  (if f.isArray then [f.arrayLen] else []) ++ if f.elem.isNested then env f.elem.type else []

/-- The lengths of the arrays of a type, and of those in the types it embeds. -/
def arrayLens : Scope → String → List Nat :=
  resolve [] fun env t =>
    match t with
    | .struct s => s.fields.flatMap (fieldArrayLens env)
    | .union _ => []

/-- `unpack_bits` as the templates call it: the width is a number of the schema, in the place
of a `u32`. -/
def unpackCall (buf : List UInt8) (off : Nat) (bits : Int) : Option Nat := do
  let bits ← lit true bits
  unpackBits buf off bits.toNat

/-- A call with a negative width does not compile. -/
theorem unpackCall_negative {bits : Int} (h : bits < 0) (buf : List UInt8) (off : Nat) :
    unpackCall buf off bits = none := by
  have hnot : ¬ Fits true bits := fun hfits => by
    have := (fits_unsigned.mp hfits).1
    omega
  rw [unpackCall, lit, if_neg hnot, Option.bind_eq_bind, Option.bind_none]

section Defaults

variable {rnd : Rat → Rat} {ctx : Context} {default : String → Option Value}
  {env : String → List Nat} {scope : Scope} {isPacked : Bool}

theorem mapM_defined_iff {α β : Type} {f : α → Option β} :
    ∀ xs : List α, (∃ ys, xs.mapM f = some ys) ↔ ∀ x ∈ xs, ∃ y, f x = some y := by
  intro xs
  induction xs with
  | nil => simp
  | cons x xs ih =>
    rw [List.forall_mem_cons, ← ih, List.mapM_cons]
    cases f x <;> cases xs.mapM f <;> simp

/-- An element has a default exactly if its type does. -/
theorem defaultElem_defined_iff (henv : ∀ m t, scope.lookup m = some t →
      ((∃ d, default m = some d) ↔ ∀ n ∈ env m, n ≤ 32)) {e : Elem}
    (he : e.Laid rnd ctx scope isPacked) :
    (∃ d, defaultElem default e = some d) ↔
      ∀ n ∈ if e.isNested then env e.type else [], n ≤ 32 := by
  unfold defaultElem
  by_cases hn : e.isNested = true
  · obtain ⟨t, ht, -⟩ := he.nested hn
    rw [if_pos hn, if_pos hn]
    exact henv _ t ht
  · rw [if_neg hn, if_neg hn]
    split <;> simp

/-- A field has a default exactly if it is no array of more than 32 elements and its type has
one. -/
theorem defaultField_defined_iff (henv : ∀ m t, scope.lookup m = some t →
      ((∃ d, default m = some d) ↔ ∀ n ∈ env m, n ≤ 32)) {f : Field}
    (hf : f.elem.Laid rnd ctx scope isPacked) :
    (∃ d, defaultField default f = some d) ↔ ∀ n ∈ fieldArrayLens env f, n ≤ 32 := by
  have helem := defaultElem_defined_iff henv hf
  have hmap : ∀ g : Value → Value, (∃ d, (defaultElem default f.elem).map g = some d) ↔
      ∃ d, defaultElem default f.elem = some d := by
    intro g
    cases defaultElem default f.elem <;> simp
  rw [fieldArrayLens, List.forall_mem_append, ← helem]
  unfold defaultField
  by_cases ha : f.isArray = true
  · rw [if_pos ha, if_pos ha, List.forall_mem_singleton]
    by_cases hlen : f.arrayLen ≤ 32
    · rw [if_pos hlen, hmap, and_iff_right hlen]
    · simp [hlen]
  · rw [if_neg ha, if_neg ha]
    simp only [List.not_mem_nil, false_implies, implies_true, true_and]
    split
    · exact hmap _
    · exact Iff.rfl

/-- **A type derives `Default` exactly if its arrays have at most 32 elements**, and those of
the types it embeds. -/
theorem default_defined_iff {unknownTag : Union → Nat → Option Value}
    (hunknown : ∀ u tag, unknownTag u tag = u.variants[0]?.map fun v =>
      Value.union 0 (defaultLeaf v.elem)) :
    ∀ (scope : Scope) (name : String) (t : TypeDef), scope.lookup name = some t →
      scope.Accepted rnd ctx → KnowsTags unknownTag scope →
      ((∃ d, defaultOf scope name = some d) ↔ ∀ n ∈ arrayLens scope name, n ≤ 32) := by
  refine scope_induction ?_ ?_
  · intro n t rest ih hacc hknows
    have henv := fun m t ht => ih m t ht hacc.tail hknows.tail
    rw [defaultOf, arrayLens, resolve_head, resolve_head]
    cases t with
    | struct s =>
      have hs : s.Laid rnd ctx rest := hacc.laid.1
      have hfields : ∀ f ∈ s.fields, ((∃ d, defaultField (defaultOf rest) f = some d) ↔
          ∀ n ∈ fieldArrayLens (arrayLens rest) f, n ≤ 32) := by
        intro f hf
        obtain ⟨_, hl⟩ := FieldsLaid.mem s.fields hs.fields f hf
        exact defaultField_defined_iff henv hl.elem
      have hmap : (∃ d, defaultType (defaultOf rest) (.struct s) = some d) ↔
          ∃ vs, s.fields.mapM (defaultField (defaultOf rest)) = some vs := by
        rw [defaultType]
        cases s.fields.mapM (defaultField (defaultOf rest)) <;> simp
      refine hmap.trans ((mapM_defined_iff _).trans ?_)
      simp only [List.mem_flatMap, forall_exists_index, and_imp]
      constructor
      · intro h n f hf hn
        exact (hfields f hf).mp (h f hf) n hn
      · intro h f hf
        exact (hfields f hf).mpr fun n hn => h n f hf hn
    | union u =>
      -- an accepted union has a first variant
      obtain ⟨v, hv⟩ := hknows n u (List.mem_cons_self ..) 0
      refine iff_of_true ⟨v, ?_⟩ fun n hn => absurd hn List.not_mem_nil
      exact (hunknown u 0).symm.trans hv
  · intro n t₀ rest m t hm ih hacc hknows
    rw [defaultOf, arrayLens, resolve_tail t₀ rest hm, resolve_tail t₀ rest hm]
    exact ih hacc.tail hknows.tail

end Defaults

/-! ## Types of either encoding -/

/-- Every part of the type can be read whatever is in it. -/
def TypeTotal (scope : Scope) (name : String) (t : TypeDef) : Prop :=
  if t.isPacked then ∀ p ∈ parts packedCells scope name 0, PackedTotal p
  else ∀ p ∈ parts alignedCells scope name 0, AlignedTotal p

instance (scope : Scope) (name : String) (t : TypeDef) : Decidable (TypeTotal scope name t) := by
  unfold TypeTotal
  infer_instance

section Whole

variable {rnd : Rat → Rat} {schema : SchemaDecl} {data : Data} {name : String} {t : TypeDef}

/-- An accepted union has a variant, so it has a default for a tag it does not know. -/
theorem knowsTags (hval : validateSchema rnd data = []) :
    KnowsTags (fun u _ => u.variants[0]?.map fun v => Value.union 0 (defaultLeaf v.elem))
      data.types := by
  intro n u hmem tag
  unfold validateSchema at hval
  simp only [List.append_eq_nil_iff, List.flatMap_eq_nil_iff] at hval
  obtain ⟨⟨⟨⟨⟨⟨hunions, _⟩, _⟩, _⟩, _⟩, _⟩, _⟩ := hval
  have hu := hunions u
    (List.mem_filterMap.mpr ⟨(n, .union u), List.mem_reverse.mpr hmem, rfl⟩)
  unfold validateUnion at hu
  simp only [List.append_eq_nil_iff, errorIf_eq_nil] at hu
  obtain ⟨⟨hne, _⟩, _⟩ := hu
  obtain ⟨v, vs, hv⟩ := List.exists_cons_of_ne_nil hne
  exact ⟨.union 0 (defaultLeaf v.elem), by simp [hv]⟩

/-- The decoder of a type that compiles. -/
theorem decodeOf_total_iff {fl : FloatExprs} (hfl : FloatsTotal fl)
    (fromUtf8Lossy : List UInt8 → List UInt8) (hproc : processSchema rnd schema = .ok data)
    (hval : validateSchema rnd data = []) (ht : data.types.lookup name = some t) :
    (∀ buf : List UInt8,
        (decodeOf fl fromUtf8Lossy data.types name buf = some none ↔ buf.length < t.wireSize) ∧
        (t.wireSize ≤ buf.length →
          ∃ v, decodeOf fl fromUtf8Lossy data.types name buf = some (some v))) ↔
      TypeTotal data.types name t := by
  obtain ⟨ctx, hacc⟩ := accepted hproc hval
  have hnone := fun buf : List UInt8 =>
    @decodeOf_none_iff fromUtf8Lossy rnd ctx data.types buf fl name t hacc.types ht
  simp only [hnone, true_and]
  unfold TypeTotal
  by_cases hpk : t.isPacked = true
  · rw [if_pos hpk, ← packed_total_iff hfl hacc.types (knowsTags hval) ht hpk]
    refine forall_congr' fun buf => imp_congr_right fun hlen => ?_
    unfold decodeOf decode
    rw [ht]
    simp only [Option.bind_eq_bind, Option.bind_some, if_pos hpk, if_neg (Nat.not_lt.mpr hlen)]
    cases (lang fl).decode data.types name buf <;> simp
  · have hpk' : t.isPacked = false := by simpa using hpk
    have hwire := aligned_wireSize hacc.types ht hpk'
    rw [if_neg hpk, ← aligned_total_iff hacc.types (knowsTags hval) ht hpk', hwire]
    refine forall_congr' fun buf => imp_congr_right fun hlen => ?_
    have hplace := (@alignedDecoder_inPlace fromUtf8Lossy rnd ctx buf data.types name t ht
      hacc.types hpk').2 0 (by omega)
    rw [List.drop_zero] at hplace
    unfold decodeOf
    rw [ht]
    simp only [Option.bind_eq_bind, Option.bind_some, if_neg hpk, hplace]
    cases (alignDecoder fromUtf8Lossy).decodeAt data.types name buf 0 <;> simp

end Whole

section Probe

/-- Floating-point expressions that do not panic, for schemas that have none. -/
def zeroFloats : FloatExprs := ⟨fun _ _ => none, fun _ _ => some (.float 0)⟩

/-- A depth close to the end of `i32`: ten bits above `min`. -/
def probe : SchemaDecl where
  structs :=
    [("Probe", { fields :=
        [{ name := "depth", type := "int32", min := some (.int 2147483000),
            max := some (.int 2147483647) }] })]

def probeData : Data := processed probe

end Probe

end ProtoEmb.Codec.Rust
