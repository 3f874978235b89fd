import ProtoEmb.Codec.AlignedAgreement
import ProtoEmb.Codec.CRoundTrip
import ProtoEmb.Codec.Decoders
import ProtoEmb.Codec.Reencode

/-!
# Values that cross

A value that goes from Rust to C and back: the two languages write the same bytes for it, and
each reads its own form of it from them (`Carried`). For a type of either encoding this is so
if every leaf is in range and is read back by both (`crosses`).

No code of the repository does both: a value crosses between `protocol.rs.j2` on the host and
`protocol.c.j2` on the device.
-/

namespace ProtoEmb.Codec

open ProtoEmb.Lib ProtoEmb.Schema

/-! ## Leaves -/

/-- A leaf of a packed type: in range, and read back by Rust. -/
structure PackedCrosses (s : Bool) (e : Elem) (v : Value) : Prop where
  supported : Supported e v
  c_reads : ∀ n, v = .int n → CReads e n
  rust_reads : Rust.LeafReadsBack s e v

/-- The text has no U+0000. -/
def NoNul (v : Value) : Prop := ∀ bs, v = .str bs → 0 ∉ bs ∧ fromUtf8Lossy bs = bs

/-- A leaf of an aligned type: it fits, its remap values are indices, and its text is UTF-8
without U+0000. -/
structure AlignedCrosses (e : Elem) (v : Value) : Prop where
  leaf : AlignedLeaf e v
  distinct : RemapDistinct e
  index : ValueIsIndex e v
  text : NoNul v
  /-- The scale is a C literal that does not need a wider type. -/
  native : ∀ n, v = .int n → C.NativeNumber e n

instance (s : Bool) (e : Elem) (v : Value) : Decidable (PackedCrosses s e v) :=
  decidable_of_iff (Supported e v ∧ (∀ n ∈ v.int?, CReads e n) ∧ Rust.LeafReadsBack s e v)
    ⟨fun h => ⟨h.1, fun n hn => h.2.1 n (by rw [hn]; rfl), h.2.2⟩,
      fun h => ⟨h.supported, fun n hn => h.c_reads n (int?_eq_some hn), h.rust_reads⟩⟩

instance : (v : Value) → Decidable (NoNul v)
  | .str bs => decidable_of_iff (0 ∉ bs ∧ fromUtf8Lossy bs = bs)
      ⟨fun h bs' heq => by cases heq; exact h, fun h => h bs rfl⟩
  | .bool _ | .enum _ | .int _ | .num _ | .float _ | .absent | .present _ | .array _ | .struct _
  | .union _ _ => .isTrue fun _ h => by cases h

instance (e : Elem) (v : Value) : Decidable (AlignedCrosses e v) :=
  decidable_of_iff (AlignedLeaf e v ∧ RemapDistinct e ∧ ValueIsIndex e v ∧ NoNul v ∧
      ∀ n ∈ v.int?, C.NativeNumber e n)
    ⟨fun ⟨hl, hd, hi, ht, hn⟩ => ⟨hl, hd, hi, ht, fun n heq => hn n (by rw [heq]; rfl)⟩,
      fun h => ⟨h.leaf, h.distinct, h.index, h.text, fun n hn => h.native n (int?_eq_some hn)⟩⟩

/-- A leaf that both ends have in common. -/
def Crosses (isPacked s : Bool) (e : Elem) (v : Value) : Prop :=
  if isPacked then PackedCrosses s e v else AlignedCrosses e v

instance (isPacked s : Bool) (e : Elem) (v : Value) : Decidable (Crosses isPacked s e v) := by
  unfold Crosses
  infer_instance

section Leaf

variable {rnd : Rat → Rat} {ctx : Context} {s : Bool} {e : Elem} {v : Value} {n : Int}
  {cfl : C.FloatExprs}

/-- Rust reads the documented bytes of an aligned leaf. -/
theorem rust_unleaf (hl : InSchema rnd ctx false s e) (h : AlignedCrosses e v) :
    Rust.unleaf fromUtf8Lossy s e (documentedBytes s e v) = some v := by
  have hleaf := h.leaf
  cases hleaf with
  | bool b hb hs => cases b <;> simp [Rust.unleaf, documentedBytes, hb, hs]
  | enum i hi =>
    obtain ⟨t, ht, h0, hlt, h256⟩ := hi.table
    have hbyte : (UInt8.ofNat i.toNat).toNat = i.toNat := toNat_ofNat (by omega)
    have hwire : Rust.fromWire t i.toNat = some i := by
      rw [Rust.fromWire, if_pos h256, Nat.mod_eq_of_lt (by omega), if_pos (by omega),
        Int.toNat_of_nonneg h0]
    simp [Rust.unleaf, documentedBytes, hi.not_string, hi.not_bool, hi.is_enum, ht, hbyte, hwire]
  | int n hn =>
    have hz := Rust.number_cases hl.leaf hn.not_string hn.not_bool hn.not_enum
    have hback := Rust.nativeInt_leBytes (e := e) (m := n * e.factor) hz hn.scaled
    have hunleaf : Rust.unleaf fromUtf8Lossy s e (documentedBytes s e (.int n))
        = Rust.alignedNumber e (leBytes e.size (toU32 (n * e.factor))) := by
      simp [Rust.unleaf, documentedBytes, hn.not_string, hn.not_bool, hn.not_enum]
    rw [hunleaf]
    show (if e.isFloat then none
      else if e.rawStorage || !e.hasScale then some (.int (Rust.nativeInt e _))
      else (Rust.divScale (!e.isSigned) e (Rust.nativeInt e _)).map Value.int) = _
    rw [hn.not_float, if_neg Bool.false_ne_true, hback]
    by_cases hplain : (e.rawStorage || !e.hasScale) = true
    · rw [if_pos hplain, hn.factor_one hl.leaf hplain]
    · obtain ⟨k, hk, hfac, hfit⟩ := hn.factor_eq (by simpa using hplain)
      obtain ⟨k', hk', h1, -⟩ := (h.native n rfl).scale_int
      cases hk.symm.trans hk'
      have hscale : e.hasScale = true := by
        simp only [Bool.or_eq_true, Bool.not_eq_true', not_or, Bool.not_eq_false] at hplain
        exact hplain.2
      have hlit : Rust.scaleLit (!e.isSigned) e = some k := by
        rw [Rust.scaleLit, hk]
        exact Rust.lit_eq hfit
      rw [if_neg hplain, Rust.divScale, if_pos hscale, hlit, hfac, Option.bind_eq_bind,
        Option.bind_some, Rust.div, if_neg (by omega), Int.mul_tdiv_cancel n (by omega),
        Rust.checked_eq hn.rust, Option.map_some]
  | str bs n hs hn hle =>
    obtain ⟨hnul, hlossy⟩ := h.text bs rfl
    have htake : bs.takeWhile (fun b => b ≠ 0) = bs :=
      List.takeWhile_eq_self_iff.mpr fun b hb => decide_eq_true fun h0 => hnul (h0 ▸ hb)
    rw [Rust.unleaf, if_pos hs]
    show some (Value.str (fieldText (padTo e.size bs))) = _
    rw [fieldText, takeWhile_padTo, htake, hlossy]

/-- C reads them as its own form of the leaf. -/
theorem c_unleaf (hl : InSchema rnd ctx false s e) (hctx : ctx.EnumsLaid)
    (h : AlignedCrosses e v) :
    C.alignedUnleaf cfl s e (documentedBytes s e v) = toCLeaf s e v := by
  have hleaf := h.leaf
  cases hleaf with
  | bool b hb hs => cases b <;> simp [C.alignedUnleaf, documentedBytes, toCLeaf, hb, hs, ofLeBytes]
  | enum i hi =>
    obtain ⟨t, ht, hlaid, h0, hlt, h256, _⟩ := hi.laid hl.leaf hctx
    obtain ⟨hidx, hc⟩ := constant_eq hlaid h0 hlt
    -- the constant is the index
    have hconst : constant t i = some i := by
      by_cases hr : t.isRemap = true
      · exact h.index i rfl t ht hr
      · rw [hc, if_neg hr]
    have hbyte : ((ofLeBytes [UInt8.ofNat i.toNat] : Nat) : Int) = i := by
      show (((UInt8.ofNat i.toNat).toNat : Nat) : Int) = i
      rw [toNat_ofNat (by omega), Int.toNat_of_nonneg h0]
    simp [C.alignedUnleaf, documentedBytes, toCLeaf, hi.not_string, hi.not_bool, hi.is_enum, ht,
      hconst, hbyte]
  | int n hn => exact C.native_readBack_int s (h.native n rfl) hl.leaf
  | str bs n hs hn hle =>
    have hscalar := scalar_of_string hl hs
    have hsize := string_size hl.leaf hs
    rw [hn, Option.getD_some] at hsize
    simp [C.alignedUnleaf, documentedBytes, toCLeaf, hs, hscalar, hn, hsize]

/-- As many bytes as the leaf has are read. -/
theorem loadSize_documented (hl : InSchema rnd ctx false s e) (h : AlignedLeaf e v) :
    AlignDecoder.loadSize e.size e = some e.size := by
  by_cases hs : e.isString = true
  · cases h with
    | str bs n _ hn _ =>
      rw [AlignDecoder.loadSize, if_pos hs, hn, string_size hl.leaf hs, hn, Option.getD_some]
    | bool b _ h' => exact absurd hs (by simp [h'])
    | enum i hi => exact absurd hs (by simp [hi.not_string])
    | int n hn => exact absurd hs (by simp [hn.not_string])
  · exact Rust.loadSize_eq hl.leaf (by simpa using hs)

end Leaf

/-! ## Whole values -/

/-- `v` in Rust and `c` in C go over as these bytes, in both directions. -/
structure Carried (cfl : C.FloatExprs) (rfl' : Rust.FloatExprs) (scope : Scope) (name : String)
    (v c : Value) (bytes : List UInt8) : Prop where
  rust_encode : Rust.encodeOf rfl' scope name v = some bytes
  rust_decode : Rust.decodeOf rfl' fromUtf8Lossy scope name bytes = some (some v)
  c_encode : C.encode cfl scope name c = some bytes
  c_decode : C.decode cfl scope name bytes = some c
  size : bytes.length = ((scope.lookup name).map TypeDef.wireSize).getD 0

section Whole

variable {rnd : Rat → Rat} {ctx : Context} {cfl : C.FloatExprs} {rfl' : Rust.FloatExprs}
  {scope : Scope} {name : String} {t : TypeDef} {v : Value} {cs : List Chunk}

theorem packed_crosses (hacc : scope.Accepted rnd ctx) (hctx : ctx.EnumsLaid)
    (ht : scope.lookup name = some t) (hpk : t.isPacked = true) (hbits : t.total < 4294967296)
    (hlay : layout scope name v = some cs) (hnarrow : ∀ c ∈ cs, c.Narrow)
    (hleaves : AllLeaves PackedCrosses cs) :
    ∃ c, toC scope name v = some c ∧
      Carried cfl rfl' scope name v c (wireBytes t (image wireStep cs)) := by
  have hschema := layout_leaves scope name t ht hacc hpk hlay
  have hpacks : (Rust.lang rfl').Packs wireStep cs :=
    ⟨hnarrow, fun s e v hl => rust_step s (hschema s e v hl) (hleaves s e v hl).supported.rust⟩
  obtain ⟨c, hc, hcenc⟩ := encode_in_terms (@C.lang_lawful cfl) hacc ht hpk hlay hnarrow
    hbits fun s e v hl => c_step s (hschema s e v hl) hctx (hleaves s e v hl).supported
  refine ⟨c, hc, ?_, ?_, ?_, ?_, ?_⟩
  · rw [Rust.encodeOf, ht, Option.bind_eq_bind, Option.bind_some, if_pos hpk]
    exact encode_eq Rust.lang_lawful hacc ht hpk hlay hpacks hbits
  · rw [Rust.decodeOf, ht, Option.bind_eq_bind, Option.bind_some, if_pos hpk,
      Rust.decode_wireBytes_iff hacc ht hpk hlay hnarrow hbits, mapLeaves_eq_self_iff hlay]
    intro s e v hl
    obtain ⟨hsup, hint, hback⟩ := hleaves s e v hl
    exact (Rust.readBack_iff s (hschema s e v hl) hctx (hnarrow _ hl) hsup.rust fun n hn =>
      ⟨(hint n hn).size_pos, stepRange_of_fits (hint n hn).fits⟩).mpr hback
  · rw [C.encode_packed ht hpk]
    exact hcenc
  · rw [C.decode_packed ht hpk, decode_eq C.lang_lawful hacc ht hpk hlay hnarrow hbits]
    refine (mapLeaves_eq_iff hlay hc).mpr fun s e v hl => ?_
    exact c_readBack s (hschema s e v hl) hctx (hnarrow _ hl) (hleaves s e v hl).supported
      (hleaves s e v hl).c_reads
  · rw [ht, wireBytes, orBits_length, List.length_replicate]
    rfl

theorem aligned_crosses (hacc : scope.Accepted rnd ctx) (hctx : ctx.EnumsLaid)
    (hstr : StringsSized scope) (ht : scope.lookup name = some t) (hpk : t.isPacked = false)
    (hsize : t.total < 4294967296) (hlay : layout scope name v = some cs)
    (htags : ∀ c ∈ cs, c.TagFits) (hleaves : AllLeaves (fun _ e v => AlignedCrosses e v) cs) :
    ∃ c, toC scope name v = some c ∧
      Carried cfl rfl' scope name v c (byteImage documentedBytes cs) := by
  have hschema := layout_inSchema scope name t ht hacc hpk hlay
  have hno : ¬ t.isPacked = true := by simp [hpk]
  have hlen : AllLeaves (fun s e v => (documentedBytes s e v).length = e.size) cs := fun s e v hl =>
    documentedBytes_length (hschema s e v hl) (hleaves s e v hl).leaf
  -- C writes the constants, which are the indices
  have himage : byteImage valueBytes cs = byteImage documentedBytes cs :=
    (byteImage_eq_iff cs (fun s e v hl => valueBytes_length (hschema s e v hl)
      (hleaves s e v hl).leaf) hlen).mpr fun s e v hl =>
        (valueBytes_eq_iff (hschema s e v hl) hctx (hleaves s e v hl).leaf
          (hleaves s e v hl).distinct).mpr (hleaves s e v hl).index
  obtain ⟨c, ds, bs, hc, hds, hs, hsame⟩ := @stores_in_terms (C.alignLang cfl) _ _ _ _ _ _ hlay
    (fun s e v hl => c_stores (hschema s e v hl) hctx (hleaves s e v hl).leaf) fun _ _ _ => rfl
  have hstores : Rust.alignLang.Stores documentedBytes cs :=
    ⟨fun s e v hl => rust_stores (hschema s e v hl) (hleaves s e v hl).leaf, fun size i hm =>
      if_pos (htags _ hm)⟩
  have hdef : Rust.alignLang.Defined cs := by
    refine ⟨fun s e v hl => ?_, fun size i hm => Rust.tagByte_iff.mpr (htags _ hm)⟩
    obtain ⟨x, hx, -⟩ := hstores.1 s e v hl
    exact ⟨x, hx⟩
  have hbytes : AllLeaves (fun s e v => Rust.storedBytes s e v = documentedBytes s e v) cs := by
    intro s e v hl
    obtain ⟨x, hx, -, hpad⟩ := rust_stores (hschema s e v hl) (hleaves s e v hl).leaf
    rw [Rust.storedBytes, hx, Option.getD_some, hpad]
  have hstored : byteImage Rust.storedBytes cs = byteImage documentedBytes cs :=
    (byteImage_eq_iff cs (fun s e v hl =>
      (congrArg List.length (hbytes s e v hl)).trans (hlen s e v hl)) hlen).mpr hbytes
  refine ⟨c, hc, ?_, ?_, ?_, ?_, ?_⟩
  · rw [Rust.encodeOf, ht, Option.bind_eq_bind, Option.bind_some, if_neg hno]
    exact encodeCopied_eq Rust.alignLang_advances Rust.alignLang_advancesNested
      Rust.alignLang_sizesStrings (fun _ => rfl) scope name t ht hacc hpk hlay hstores
  · rw [Rust.decodeOf, ht, Option.bind_eq_bind, Option.bind_some, if_neg hno, ← hstored,
      Rust.decode_stored hacc ht hpk hlay hdef,
      (mapLeaves_eq_self_iff hlay).mpr fun s e v hl => ?_, Option.map_some]
    show Rust.unleaf fromUtf8Lossy s e (Rust.storedBytes s e v) = some v
    rw [hbytes s e v hl]
    exact rust_unleaf (hschema s e v hl) (hleaves s e v hl)
  · rw [C.encode, ht, Option.bind_eq_bind, Option.bind_some, if_neg hno, ← himage, ← hsame]
    exact encodeInPlace_eq C.alignLang_advances C.alignLang_add C.alignLang_running hacc hstr ht hpk
      hds hs hsize
  · rw [C.decode, ht, Option.bind_eq_bind, Option.bind_some, if_neg hno]
    rw [@decodeInPlace_eq (C.alignDecoder cfl) rnd ctx scope _ _ name t v cs C.alignLang_advances
      C.alignLang_add C.alignLang_running hacc hstr ht hpk hlay htags (fun s e v hl =>
        ⟨hlen s e v hl, loadSize_documented (hschema s e v hl) (hleaves s e v hl).leaf⟩) hsize]
    exact (mapLeaves_eq_iff hlay hc).mpr fun s e v hl =>
      c_unleaf (hschema s e v hl) hctx (hleaves s e v hl)
  · rw [hstores.length_eq, layout_size scope name t ht hacc hlay, ht,
      ← aligned_wireSize hacc ht hpk]
    rfl

/-- **A value that is in range crosses**, in either encoding. -/
theorem crosses {schema : SchemaDecl} {data : Data}
    (hproc : processSchema rnd schema = .ok data) (hval : validateSchema rnd data = [])
    (hstr : StringsSized data.types) (ht : data.types.lookup name = some t)
    (hsize : t.total < 4294967296) (hlay : layout data.types name v = some cs)
    (hparts : ∀ c ∈ cs, C.PartFits t.isPacked c)
    (hleaves : AllLeaves (Crosses t.isPacked) cs) :
    ∃ c bytes, toC data.types name v = some c ∧
      Carried cfl rfl' data.types name v c bytes := by
  obtain ⟨ctx, hacc⟩ := accepted hproc hval
  cases hpk : t.isPacked with
  | true =>
    rw [hpk] at hparts hleaves
    obtain ⟨c, hc, hcarried⟩ :=
      packed_crosses hacc.types hacc.enums ht hpk hsize hlay hparts hleaves
    exact ⟨c, _, hc, hcarried⟩
  | false =>
    rw [hpk] at hparts hleaves
    obtain ⟨c, hc, hcarried⟩ := aligned_crosses hacc.types hacc.enums hstr ht hpk hsize hlay hparts
      hleaves
    exact ⟨c, _, hc, hcarried⟩

end Whole

end ProtoEmb.Codec
