import ProtoEmb.Codec.Crossing
import ProtoEmb.Codec.Facade
import ProtoEmb.Codec.TypeScriptDecode

/-!
# What a page reads back

The decoders and encoders that `protocol.ts.j2` prints, on their own bytes and beside those of
Rust and C. TypeScript reads the leaves of an aligned type as it has written them, with three
exceptions (`ts_roundTrip_iff`): a number with a scale of zero, by which it divides; a constant
of an enum that is no byte; and a text that has a U+0000 in it or a U+FEFF in front, which the
text decoder takes for a byte order mark.

For a value that crosses between Rust and C this makes three languages with one value and one
sequence of bytes, in either encoding (`three_languages_agree`), and `decodeData` of the page
gives the value that the device has encoded.
-/

namespace ProtoEmb.Codec

open ProtoEmb.Lib ProtoEmb.Schema

/-! ## Leaves -/

/-- A byte order mark in front of a text is dropped. -/
theorem textDecode_mark {bs : List UInt8} (h : bs.take 3 = TypeScript.byteOrderMark)
    (htext : fromUtf8Lossy bs = bs) : TypeScript.textDecode bs = bs.drop 3 := by
  have hmark : TypeScript.byteOrderMark = String.utf8EncodeChar '\uFEFF' := by decide
  have hsplit : bs = String.utf8EncodeChar '\uFEFF' ++ bs.drop 3 := by
    rw [← hmark, ← h, List.take_append_drop]
  rw [hsplit, fromUtf8Lossy, chunks_char, List.flatMap_cons] at htext
  rw [TypeScript.textDecode, if_pos h]
  exact List.append_cancel_left htext

/-- **What `readString` makes of a text.** -/
theorem textDecode_eq_iff (text : List Char) :
    TypeScript.textDecode ((utf8 text).takeWhile fun b => b ≠ 0) = utf8 text ↔
      0 ∉ utf8 text ∧ (utf8 text).take 3 ≠ TypeScript.byteOrderMark := by
  have hle := (List.takeWhile_prefix (l := utf8 text) fun b => decide (b ≠ 0)).length_le
  have hkept := fromUtf8Lossy_utf8 (text.takeWhile fun c => c ≠ '\x00')
  rw [← takeWhile_utf8] at hkept
  constructor
  · intro h
    by_cases hmark : ((utf8 text).takeWhile fun b => b ≠ 0).take 3 = TypeScript.byteOrderMark
    · -- three bytes are missing
      have hlen := congrArg List.length hmark
      rw [textDecode_mark hmark hkept] at h
      have hdrop := congrArg List.length h
      rw [List.length_drop] at hdrop
      rw [List.length_take, show TypeScript.byteOrderMark.length = 3 from rfl] at hlen
      omega
    · rw [TypeScript.textDecode, if_neg hmark, hkept] at h
      refine ⟨fun h0 => ?_, h ▸ hmark⟩
      have hall := List.takeWhile_eq_self_iff.mp h
      simpa using hall 0 h0
  · rintro ⟨hnul, hmark⟩
    have hself : ((utf8 text).takeWhile fun b => b ≠ 0) = utf8 text :=
      List.takeWhile_eq_self_iff.mpr fun b hb => decide_eq_true fun h0 => hnul (h0 ▸ hb)
    rw [hself, TypeScript.textDecode, if_neg hmark, fromUtf8Lossy_utf8]

/-- A leaf that the page can be given: it fits, is not stored raw, and a string is a text. -/
structure PageLeaf (e : Elem) (v : Value) : Prop where
  leaf : AlignedLeaf e v
  not_raw : e.rawStorage = false
  text : ∀ bs, v = .str bs → ∃ text, bs = utf8 text

/-- A leaf that is read as it was written. -/
def PageReads (e : Elem) : Value → Prop
  | .enum i => ∃ c ∈ e.enum.bind fun t => constant t i, 0 ≤ c ∧ c < 256
  | .int _ => e.factor ≠ 0
  | .str bs => 0 ∉ bs ∧ bs.take 3 ≠ TypeScript.byteOrderMark
  | _ => True

instance (e : Elem) : (v : Value) → Decidable (PageReads e v)
  | .enum i => inferInstanceAs
    (Decidable (∃ c ∈ e.enum.bind fun t => constant t i, 0 ≤ c ∧ c < 256))
  | .int _ => inferInstanceAs (Decidable (e.factor ≠ 0))
  | .str bs => inferInstanceAs (Decidable (0 ∉ bs ∧ bs.take 3 ≠ TypeScript.byteOrderMark))
  | .bool _ | .num _ | .float _ | .absent | .present _ | .array _ | .struct _
  | .union _ _ => inferInstanceAs (Decidable True)

section Leaf

variable {rnd js : Rat → Rat} {ctx : Context} {s : Bool} {e : Elem} {v : Value} {n : Int}

/-- The byte of a constant, read again. -/
theorem byte_eq_iff (c : Int) :
    (((UInt8.ofNat (toU32 c)).toNat : Nat) : Int) = c ↔ 0 ≤ c ∧ c < 256 := by
  rw [UInt8.toNat_ofNat']
  constructor
  · intro h
    omega
  · rintro ⟨h0, hlt⟩
    rw [toU32_of_nonneg h0 (by omega), Nat.mod_eq_of_lt (by omega), Int.toNat_of_nonneg h0]

/-- A number is divided by the factor it was multiplied with, if that is not zero. -/
theorem ts_number_eq (hjs : TypeScript.RoundsDouble js) (h : NativeInt e n)
    (hl : e.Leaf rnd ctx false) (hraw : e.rawStorage = false) :
    TypeScript.alignedNumber js e (leBytes e.size (toU32 (n * e.factor)))
      = if e.factor = 0 then none else some (.num n) := by
  have hback := Rust.nativeInt_leBytes (e := e) (m := n * e.factor) (h.size_cases hl) h.scaled
  obtain ⟨k, hk, hkfit⟩ := h.scale_int
  have hfac : e.factor = k := by rw [Elem.factor, hraw, hk]; rfl
  have hscale : e.scale.toFloat js = k := by
    rw [hk]
    exact hjs.fits hkfit
  rw [hfac] at hback ⊢
  show (if e.scale.toFloat js = 0 then none
    else some (Value.num (js (((Rust.nativeInt e _ : Int) : Rat) / e.scale.toFloat js)))) = _
  rw [hback, hscale]
  by_cases hzero : k = 0
  · rw [if_pos hzero, if_pos (by exact_mod_cast hzero)]
  · have hne : (k : Rat) ≠ 0 := by exact_mod_cast hzero
    have hquot : ((n * k : Int) : Rat) / k = n := by
      push_cast
      exact mul_div_cancel_right₀ _ hne
    rw [if_neg hzero, if_neg hne, hquot, hjs.fits h.rust]

/-- **When TypeScript reads an aligned leaf back.** -/
theorem ts_unleaf_iff (hjs : TypeScript.RoundsDouble js) (hl : InSchema rnd ctx false s e)
    (hctx : ctx.EnumsLaid) (h : PageLeaf e v) :
    TypeScript.unleaf js s e (valueBytes s e v) = toTsLeaf s e v ↔ PageReads e v := by
  have hleaf := h.leaf
  cases hleaf with
  | bool b hb hs =>
    refine iff_of_true ?_ trivial
    cases b <;> simp [TypeScript.unleaf, valueBytes, documentedBytes, toTsLeaf, hb, hs]
  | enum i hi =>
    obtain ⟨c, hc⟩ := hi.constant_isSome hl.leaf hctx
    have hunleaf : TypeScript.unleaf js s e (valueBytes s e (.enum i))
        = some (.enum (UInt8.ofNat (toU32 c)).toNat) := by
      simp [TypeScript.unleaf, valueBytes, hi.not_string, hi.not_bool, hi.is_enum, hc]
    rw [hunleaf, toTsLeaf, PageReads, hc, Option.map_some, Option.some.injEq, Value.enum.injEq,
      byte_eq_iff]
    simp
  | int n hn =>
    have hunleaf : TypeScript.unleaf js s e (valueBytes s e (.int n))
        = TypeScript.alignedNumber js e (leBytes e.size (toU32 (n * e.factor))) := by
      simp [TypeScript.unleaf, valueBytes, documentedBytes, hn.not_string, hn.not_bool, hn.not_enum]
    rw [hunleaf, ts_number_eq hjs hn hl.leaf h.not_raw]
    show (if e.factor = 0 then none else some (Value.num n)) = some (.num n) ↔ e.factor ≠ 0
    split
    next hzero => simp [hzero]
    next hne => simp [hne]
  | str bs n hs hn hle =>
    obtain ⟨text, rfl⟩ := h.text bs rfl
    rw [TypeScript.unleaf, if_pos hs]
    show some (Value.str (TypeScript.textDecode
      ((padTo e.size (utf8 text)).takeWhile fun b => b ≠ 0))) = some (.str (utf8 text)) ↔ _
    rw [takeWhile_padTo, Option.some.injEq, Value.str.injEq, textDecode_eq_iff]
    rfl

end Leaf

/-! ## Aligned values -/

section Whole

variable {rnd js : Rat → Rat} {ctx : Context} {schema : SchemaDecl} {data : Data} {scope : Scope}
  {name : String} {t : TypeDef} {v : Value} {cs : List Chunk}

/-- What the encoder makes of a value, and the decoder of its bytes. -/
theorem ts_aligned (hjs : TypeScript.RoundsDouble js) (hacc : scope.Accepted rnd ctx)
    (hctx : ctx.EnumsLaid) (ht : scope.lookup name = some t) (hpk : t.isPacked = false)
    (hlay : layout scope name v = some cs) (htags : ∀ c ∈ cs, c.TagFits)
    (hleaves : AllLeaves (fun _ e v => AlignedLeaf e v ∧ e.rawStorage = false) cs) :
    ∃ x, toTs scope name v = some x ∧
      TypeScript.encodeOf js scope name x = some (byteImage valueBytes cs) ∧
      (TypeScript.decodeOf js scope name (byteImage valueBytes cs) = some x ↔
        AllLeaves (fun s e v =>
          TypeScript.unleaf js s e (valueBytes s e v) = toTsLeaf s e v) cs) := by
  have hschema := layout_inSchema scope name t ht hacc hpk hlay
  have hno : ¬ t.isPacked = true := by simp [hpk]
  obtain ⟨x, ds, bs, hx, hds, hs, hsame⟩ := @stores_in_terms (TypeScript.alignLang js) _ _ _ _ _ _
    hlay (fun s e v hl => ts_stores hjs (hschema s e v hl) hctx (hleaves s e v hl).1
      (hleaves s e v hl).2) fun _ _ _ => rfl
  have hlen : AllLeaves (fun s e v => (valueBytes s e v).length = e.size) cs := fun s e v hl =>
    valueBytes_length (hschema s e v hl) (hleaves s e v hl).1
  have hsize : t.total ≤ (byteImage valueBytes cs).length := by
    rw [byteImage_length hlen, layout_size scope name t ht hacc hlay]
  have hplace := (@TypeScript.alignedDecoder_inPlace js rnd ctx (byteImage valueBytes cs) scope
    name t ht hacc hpk).2 0 (by omega)
  rw [List.drop_zero] at hplace
  have hdec : TypeScript.decodeOf js scope name (byteImage valueBytes cs)
      = mapLeaves ((TypeScript.alignDecoder js).readBack valueBytes) scope name v := by
    rw [TypeScript.decodeOf, ht, Option.bind_eq_bind, Option.bind_some, if_neg hno, hplace]
    have hadd : ∀ base off, base + off < t.total + 1 →
        (TypeScript.alignDecoder js).add base off = some (base + off) := fun _ _ _ => rfl
    exact decodeAt_eq hadd scope name t ht hacc hpk hlay htags (fun s e v hl => ⟨hlen s e v hl,
      loadSize_documented (hschema s e v hl) (hleaves s e v hl).1⟩) (by omega)
      ⟨[], [], by simp, rfl⟩
  refine ⟨x, hx, ?_, ?_⟩
  · rw [TypeScript.encodeOf, ht, Option.bind_eq_bind, Option.bind_some, if_neg hno, ← hsame]
    exact encodeCopied_eq TypeScript.alignLang_advances TypeScript.alignLang_advancesNested
      TypeScript.alignLang_sizesStrings (fun _ => rfl) scope name t ht hacc hpk hds hs
  · rw [hdec]
    exact mapLeaves_eq_iff hlay hx

/-- **`decode*(encode*(v))` is `v`** exactly if no number has a scale of zero, every enum constant
is a byte, and no text has a U+0000 in it or a U+FEFF in front. -/
theorem ts_roundTrip_iff (hproc : processSchema rnd schema = .ok data)
    (hval : validateSchema rnd data = []) (hjs : TypeScript.RoundsDouble js)
    (ht : data.types.lookup name = some t) (hpk : t.isPacked = false)
    (hlay : layout data.types name v = some cs) (htags : ∀ c ∈ cs, c.TagFits)
    (hleaves : AllLeaves (fun _ e v => PageLeaf e v) cs) :
    ∃ x bytes, toTs data.types name v = some x ∧
      TypeScript.encodeOf js data.types name x = some bytes ∧
      (TypeScript.decodeOf js data.types name bytes = some x ↔
        AllLeaves (fun _ e v => PageReads e v) cs) := by
  obtain ⟨ctx, hacc⟩ := accepted hproc hval
  have hschema := layout_inSchema data.types name t ht hacc.types hpk hlay
  obtain ⟨x, hx, henc, hdec⟩ := ts_aligned hjs hacc.types hacc.enums ht hpk hlay htags
    fun s e v hl => ⟨(hleaves s e v hl).leaf, (hleaves s e v hl).not_raw⟩
  have hiff := fun s e v hl => ts_unleaf_iff hjs (hschema s e v hl) hacc.enums (hleaves s e v hl)
  refine ⟨x, _, hx, henc, hdec.trans ⟨fun h s e v hl => (hiff s e v hl).mp (h s e v hl),
    fun h s e v hl => (hiff s e v hl).mpr (h s e v hl)⟩⟩

/-! ## Three languages -/

/-- A leaf that crosses and that the page has too: it is not stored raw, a number in two's
complement is not negative, and no text has a U+FEFF in front. -/
structure PageCrosses (isPacked s : Bool) (e : Elem) (v : Value) : Prop where
  crosses : Crosses isPacked s e v
  not_raw : e.rawStorage = false
  nonneg : isPacked = true → e.isTwos = true → ∀ n, v = .int n → 0 ≤ n
  mark : ∀ bs, v = .str bs → bs.take 3 ≠ TypeScript.byteOrderMark

/-- The text of a value is none that the page takes for another one. -/
def markFree : Value → Bool
  | .str bs => bs.take 3 ≠ TypeScript.byteOrderMark
  | _ => true

instance (isPacked s : Bool) (e : Elem) (v : Value) : Decidable (PageCrosses isPacked s e v) :=
  decidable_of_iff (Crosses isPacked s e v ∧ e.rawStorage = false ∧
      (isPacked = true → e.isTwos = true → ∀ n ∈ v.int?, 0 ≤ n) ∧ markFree v = true)
    ⟨fun h => ⟨h.1, h.2.1, fun hp ht n hn => h.2.2.1 hp ht n (by rw [hn]; rfl), fun bs hb => by
        have hmark := h.2.2.2
        rw [hb] at hmark
        exact of_decide_eq_true hmark⟩,
      fun h => ⟨h.crosses, h.not_raw, fun hp ht n hn => h.nonneg hp ht n (int?_eq_some hn), by
        cases v with
        | str bs => exact decide_eq_true (h.mark bs rfl)
        | _ => rfl⟩⟩

/-- The page has the value as `x`, and these are its bytes. -/
structure Shown (js : Rat → Rat) (scope : Scope) (name : String) (v x : Value)
    (bytes : List UInt8) : Prop where
  value : toTs scope name v = some x
  encode : TypeScript.encodeOf js scope name x = some bytes
  decode : TypeScript.decodeOf js scope name bytes = some x

/-- An aligned leaf that crosses is read back by the page. -/
theorem ts_unleaf (hjs : TypeScript.RoundsDouble js) {s : Bool} {e : Elem}
    (hl : InSchema rnd ctx false s e) (hctx : ctx.EnumsLaid) (h : PageCrosses false s e v) :
    TypeScript.unleaf js s e (valueBytes s e v) = toTsLeaf s e v := by
  have hcross : AlignedCrosses e v := h.crosses
  have hleaf := hcross.leaf
  -- the text is none that was decomposed, but what it is read as
  by_cases hstr : ∃ bs, v = .str bs
  · obtain ⟨bs, rfl⟩ := hstr
    obtain ⟨hnul, hlossy⟩ := hcross.text bs rfl
    cases hleaf with
    | str _ n hs hn hle =>
    have hself : bs.takeWhile (fun b => b ≠ 0) = bs :=
      List.takeWhile_eq_self_iff.mpr fun b hb => decide_eq_true fun h0 => hnul (h0 ▸ hb)
    rw [TypeScript.unleaf, if_pos hs]
    show some (Value.str (TypeScript.textDecode
      ((padTo e.size bs).takeWhile fun b => b ≠ 0))) = some (.str bs)
    rw [takeWhile_padTo, hself, TypeScript.textDecode, if_neg (h.mark bs rfl), hlossy]
  · have hno : ∀ bs, v ≠ .str bs := fun bs hb => hstr ⟨bs, hb⟩
    refine (ts_unleaf_iff hjs hl hctx ⟨hleaf, h.not_raw, fun bs hb => absurd hb (hno bs)⟩).mpr ?_
    cases hleaf with
    | enum i hi =>
      obtain ⟨t, ht, hlaid, h0, hlt, h256, _⟩ := hi.laid hl.leaf hctx
      obtain ⟨hidx, hc⟩ := constant_eq hlaid h0 hlt
      have hconst : constant t i = some i := by
        by_cases hr : t.isRemap = true
        · exact hcross.index i rfl t ht hr
        · rw [hc, if_neg hr]
      exact ⟨i, by rw [ht]; exact hconst, h0, by omega⟩
    | int n hn =>
      have hpos := (hcross.native n rfl).factor_pos
      show e.factor ≠ 0
      omega
    | str bs => exact absurd rfl (hno bs)
    | bool b hb hs => trivial

theorem packed_shown (hjs : TypeScript.RoundsDouble js)
    (hacc : scope.Accepted rnd ctx) (hctx : ctx.EnumsLaid) (ht : scope.lookup name = some t)
    (hpk : t.isPacked = true) (hbits : t.total < 4294967296)
    (hlay : layout scope name v = some cs) (hnarrow : ∀ c ∈ cs, c.Narrow)
    (hleaves : AllLeaves (PageCrosses true) cs) :
    ∃ x, Shown js scope name v x (wireBytes t (image wireStep cs)) := by
  have hschema := layout_leaves scope name t ht hacc hpk hlay
  have hcross : ∀ s e v, .leaf s e v ∈ cs → PackedCrosses s e v := fun s e v hl =>
    (hleaves s e v hl).crosses
  obtain ⟨x, hx, henc⟩ := encode_in_terms (@TypeScript.lang_lawful js) hacc ht hpk hlay hnarrow
    hbits fun s e v hl => ts_step hjs s (hschema s e v hl) hctx (hcross s e v hl).supported
      (hleaves s e v hl).not_raw
  refine ⟨x, hx, ?_, ?_⟩
  · rw [TypeScript.encodeOf, ht, Option.bind_eq_bind, Option.bind_some, if_pos hpk]
    exact henc
  · rw [TypeScript.decodeOf, ht, Option.bind_eq_bind, Option.bind_some, if_pos hpk,
      decode_eq TypeScript.lang_lawful hacc ht hpk hlay hnarrow hbits]
    refine (mapLeaves_eq_iff hlay hx).mpr fun s e v hl => ?_
    obtain ⟨hsup, hint, -⟩ := hcross s e v hl
    by_cases hn : ∃ n, v = .int n
    · obtain ⟨n, rfl⟩ := hn
      cases hsup with
      | int _ hn =>
      exact (ts_readBack_int_iff hjs s (hnarrow _ hl) hn (hleaves s e _ hl).not_raw
        (hint n rfl).size_pos (hint n rfl).fits).mpr fun htwos =>
          (hleaves s e _ hl).nonneg rfl htwos n rfl
    · exact ts_readBack s (hschema s e v hl) hctx hsup.rust fun n h => hn ⟨n, h⟩

theorem aligned_shown (hjs : TypeScript.RoundsDouble js) (hacc : scope.Accepted rnd ctx)
    (hctx : ctx.EnumsLaid) (ht : scope.lookup name = some t) (hpk : t.isPacked = false)
    (hlay : layout scope name v = some cs) (htags : ∀ c ∈ cs, c.TagFits)
    (hleaves : AllLeaves (PageCrosses false) cs) :
    ∃ x, Shown js scope name v x (byteImage documentedBytes cs) := by
  have hschema := layout_inSchema scope name t ht hacc hpk hlay
  have hcross : ∀ s e v, .leaf s e v ∈ cs → AlignedCrosses e v := fun s e v hl =>
    (hleaves s e v hl).crosses
  -- the constants are the indices
  have himage : byteImage valueBytes cs = byteImage documentedBytes cs :=
    (byteImage_eq_iff cs (fun s e v hl => valueBytes_length (hschema s e v hl)
      (hcross s e v hl).leaf) (fun s e v hl => documentedBytes_length (hschema s e v hl)
        (hcross s e v hl).leaf)).mpr fun s e v hl =>
          (valueBytes_eq_iff (hschema s e v hl) hctx (hcross s e v hl).leaf
            (hcross s e v hl).distinct).mpr (hcross s e v hl).index
  obtain ⟨x, hx, henc, hdec⟩ := ts_aligned hjs hacc hctx ht hpk hlay htags fun s e v hl =>
    ⟨(hcross s e v hl).leaf, (hleaves s e v hl).not_raw⟩
  rw [himage] at henc hdec
  exact ⟨x, hx, henc, hdec.mpr fun s e v hl =>
    ts_unleaf hjs (hschema s e v hl) hctx (hleaves s e v hl)⟩

/-- **One value in three languages.** A value of which every leaf is common to the three has one
encoding, in Rust, in C and in TypeScript, and each of them decodes it to its own form of the
value. -/
theorem three_languages_agree {cfl : C.FloatExprs} {rfl' : Rust.FloatExprs}
    (hproc : processSchema rnd schema = .ok data) (hval : validateSchema rnd data = [])
    (hjs : TypeScript.RoundsDouble js) (hstr : StringsSized data.types)
    (ht : data.types.lookup name = some t) (hsize : t.total < 4294967296)
    (hlay : layout data.types name v = some cs) (hparts : ∀ c ∈ cs, C.PartFits t.isPacked c)
    (hleaves : AllLeaves (PageCrosses t.isPacked) cs) :
    ∃ c x bytes, toC data.types name v = some c ∧ Carried cfl rfl' data.types name v c bytes ∧
      Shown js data.types name v x bytes := by
  obtain ⟨ctx, hacc⟩ := accepted hproc hval
  cases hpk : t.isPacked with
  | true =>
    rw [hpk] at hparts hleaves
    obtain ⟨c, hc, hcarried⟩ := packed_crosses hacc.types hacc.enums ht hpk hsize hlay hparts
      fun s e v hl => (hleaves s e v hl).crosses
    obtain ⟨x, hshown⟩ := packed_shown hjs hacc.types hacc.enums ht hpk hsize hlay hparts hleaves
    exact ⟨c, x, _, hc, hcarried, hshown⟩
  | false =>
    rw [hpk] at hparts hleaves
    obtain ⟨c, hc, hcarried⟩ := aligned_crosses hacc.types hacc.enums hstr ht hpk hsize hlay hparts
      fun s e v hl => (hleaves s e v hl).crosses
    obtain ⟨x, hshown⟩ := aligned_shown hjs hacc.types hacc.enums ht hpk hlay hparts hleaves
    exact ⟨c, x, _, hc, hcarried, hshown⟩

end Whole

section Examples

/-- A room with its fans on `AUTO` and `LOW`: the page has `AUTO` as the constant 9. -/
theorem ts_roundTrip_room :
    ∃ x, toTs climateData.types "Room" (Rust.named ['n', 'é']) = some x ∧
      TypeScript.encodeOf id climateData.types "Room" x
        = some [110, 195, 169, 0, 9, 44, 1, 1, 50, 0, 0, 0, 0, 0] ∧
      TypeScript.decodeOf id climateData.types "Room"
        [110, 195, 169, 0, 9, 44, 1, 1, 50, 0, 0, 0, 0, 0] = some x := by
  obtain ⟨x, bytes, hx, henc, hiff⟩ := @ts_roundTrip_iff id id climate climateData "Room" _
    (Rust.named ['n', 'é'])
    [.leaf true _ _, .leaf true _ _, .leaf true _ _, .leaf true _ _, .leaf true _ _, .flag false,
      .pad _] climate_ok climate_valid TypeScript.roundsDouble_id
        rfl rfl rfl (by decide +kernel) <| by
    rw [allLeaves_iff]
    simp only [List.forall_mem_cons, Chunk.OnLeaf, List.not_mem_nil, false_implies, implies_true,
      and_true]
    exact ⟨⟨by decide +kernel, rfl, fun bs h => ⟨['n', 'é'], by cases h; rfl⟩⟩,
      ⟨by decide +kernel, rfl, fun _ h => by cases h⟩,
      ⟨by decide +kernel, rfl, fun _ h => by cases h⟩,
      ⟨by decide +kernel, rfl, fun _ h => by cases h⟩,
      ⟨by decide +kernel, rfl, fun _ h => by cases h⟩⟩
  have hbytes : (toTs climateData.types "Room" (Rust.named ['n', 'é'])).bind
      (TypeScript.encodeOf id climateData.types "Room")
        = some [110, 195, 169, 0, 9, 44, 1, 1, 50, 0, 0, 0, 0, 0] := by decide +kernel
  rw [hx, Option.bind_some, henc] at hbytes
  cases hbytes
  exact ⟨x, hx, henc, hiff.mpr (by decide +kernel)⟩

/-- Both fans are on `LOW`, of which the index and the value are 1. -/
theorem three_languages_agree_room :
    ∃ c x, toC climateData.types "Room" room = some c ∧
      Carried C.noFloats Rust.noFloats climateData.types "Room" room c
        [97, 98, 0, 0, 1, 44, 1, 1, 50, 0, 0, 0, 0, 0] ∧
      Shown id climateData.types "Room" room x
        [97, 98, 0, 0, 1, 44, 1, 1, 50, 0, 0, 0, 0, 0] := by
  obtain ⟨c, x, bytes, hc, hcarried, hshown⟩ := @three_languages_agree id id climate climateData
    "Room" _ room _ C.noFloats Rust.noFloats climate_ok climate_valid TypeScript.roundsDouble_id
    (by decide +kernel) rfl (by decide +kernel) rfl (by decide +kernel) (by decide +kernel)
  have hbytes : Rust.encodeOf Rust.noFloats climateData.types "Room" room
      = some [97, 98, 0, 0, 1, 44, 1, 1, 50, 0, 0, 0, 0, 0] := by decide +kernel
  cases hbytes.symm.trans hcarried.rust_encode
  exact ⟨c, x, hc, hcarried, hshown⟩

end Examples

/-! ## The facade -/

/-- `decodeData` of `protocol.ts.j2`. -/
def TypeScript.decodeData (rnd : Rat → Rat) (data : Data) (command : UInt8)
    (payload : List UInt8) : Option Inbound :=
  match data.dataMessages.find? fun m => m.hasId command with
  | some m => do
    let v ← TypeScript.decodeOf rnd data.types (m.decl.response.getD "") payload
    return .data m.name v
  | none => some (.unknown command payload)

/-- The case of a message with a response. -/
theorem TypeScript.decodeData_shown {rnd js : Rat → Rat} {data : Data} {name : String}
    {v x : Value} {bytes : List UInt8} (hval : validateSchema rnd data = []) {m : Message}
    (hm : m ∈ data.messages) {b : UInt8} (hb : m.hasId b = true)
    (hresponse : m.decl.response = some name) (h : Shown js data.types name v x bytes) :
    TypeScript.decodeData js data b bytes = some (.data m.name x) := by
  have hmem : m ∈ data.dataMessages := by
    refine List.mem_filter.mpr ⟨hm, ?_⟩
    rw [hresponse, Message.hasId_iff.mp hb]
    rfl
  unfold TypeScript.decodeData
  simp only [(uniqueIds_of_accepted hval).2.2.find_eq hmem hb, hresponse, Option.getD_some,
    h.decode]
  rfl

end ProtoEmb.Codec
