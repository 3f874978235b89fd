import ProtoEmb.Codec.CRoundTrip
import ProtoEmb.Codec.RustAligned
import ProtoEmb.Schema.Order

/-!
# Being nested does not change the wire

`protocol.c.j2` and its two siblings have two copies of every codec: a flat one for a struct
outside of any nesting, and a helper at a base offset for a struct that is embedded somewhere.
Which one is emitted depends on the other types of the schema. For a struct without nested types
both copies are the same function of the struct alone (`encode_of_leaf` and the like), and the
struct itself is laid out the same in every extension of the schema. So its encoders and decoders
are the same before and after the extension (`nested_same`).

The two copies of C's aligned codec hold offsets differently: the flat one in a `uint32_t`
that runs, the helper as literals. From `2 ^ 32` bytes on they part (`nested_differs`).
-/

namespace ProtoEmb.Codec

open ProtoEmb.Lib ProtoEmb.Schema

section Leaf

variable {rnd : Rat → Rat} {ctx : Context} {scope : Scope} {name : String} {s : Struct}

/-- On its own, such a struct has no helper. -/
theorem isFlat_alone (hn : s.hasNested = false) (name : String) :
    PackLang.isFlat [] name (.struct s) = true := by
  simp [PackLang.isFlat, Scope.needsPackHelper, hn]

/-! ## The packed codec -/

/-- The packed encoder of a struct without nested types is its own body, whether or not the struct
has a helper. -/
theorem PackLang.encode_of_leaf {L : PackLang} (hL : L.Lawful) (hacc : scope.Accepted rnd ctx)
    (hs : scope.lookup name = some (.struct s)) (hn : s.hasNested = false) (v : Value) :
    L.encode scope name v = L.packBody (fun _ _ _ _ => none) L.literal (.struct s)
      (List.replicate s.wireSize 0) v := by
  unfold PackLang.encode
  rw [hs, Option.bind_eq_bind, Option.bind_some]
  split
  next => rfl
  next => exact (encode_eq_pack hL [] scope name _ hs hacc (isFlat_alone hn name) _ v).symm

/-- The packed decoder likewise. -/
theorem PackLang.decode_of_leaf {L : PackLang} (hL : L.Lawful) (hacc : scope.Accepted rnd ctx)
    (hs : scope.lookup name = some (.struct s)) (hn : s.hasNested = false) (buf : List UInt8) :
    L.decode scope name buf = (L.reader (fun _ _ _ => none) L.literal buf).type (.struct s) := by
  unfold PackLang.decode
  rw [hs, Option.bind_eq_bind, Option.bind_some]
  split
  next => rfl
  next => exact (decode_eq_unpack hL [] scope name _ hs hacc (isFlat_alone hn name) buf).symm

/-! ## The aligned codec -/

variable {bound : Nat}

/-- The aligned encoder: the running offset of the flat copy meets the literals of the helper,
below `bound`. -/
theorem AlignLang.encodeInPlace_of_leaf {L : AlignLang} (hL : L.Advances)
    (hrun : ∀ off, off < bound → L.running off = L.add 0 off) (hacc : scope.Accepted rnd ctx)
    (hs : scope.lookup name = some (.struct s)) (hn : s.hasNested = false)
    (hstr : TypeDef.StringsSized (.struct s)) (hpk : s.isPacked = false) (hlim : s.total < bound)
    (v : Value) :
    L.encodeInPlace scope name v = (do
      let placed ← AlignLang.place (L.advance fun _ => 0) (.struct s)
      let ws ← writes placed v
      ws.foldlM (L.storeWrite (fun _ _ _ _ => none) L.running) (zeros s.wireSize)) := by
  unfold AlignLang.encodeInPlace
  rw [hs, Option.bind_eq_bind, Option.bind_some]
  split
  next => rfl
  next =>
    exact (encodeFlat_eq hL hrun [] scope name _ hs hacc hstr hpk hlim (isFlat_alone hn name) _
      v).symm

/-- The aligned helper at offset 0 is the flat body. -/
theorem AlignDecoder.decodeAt_of_leaf {D : AlignDecoder} (hL : D.Advances)
    (hrun : ∀ off, off < bound → D.running off = D.add 0 off) (hacc : scope.Accepted rnd ctx)
    (hs : scope.lookup name = some (.struct s)) (hn : s.hasNested = false)
    (hstr : TypeDef.StringsSized (.struct s)) (hpk : s.isPacked = false) (hlim : s.total < bound)
    (buf : List UInt8) :
    D.decodeAt scope name buf 0 = (do
      let placed ← AlignLang.place (D.advance fun _ => 0) (.struct s)
      (D.reader (fun _ _ _ => none) D.running buf).type placed) :=
  (decodeFlat_eq hL hrun [] scope name _ hs hacc hstr hpk hlim (isFlat_alone hn name) buf).symm

/-- The aligned decoder, flat or by its helper. -/
theorem AlignDecoder.decodeInPlace_of_leaf {D : AlignDecoder} (hL : D.Advances)
    (hrun : ∀ off, off < bound → D.running off = D.add 0 off) (hacc : scope.Accepted rnd ctx)
    (hs : scope.lookup name = some (.struct s)) (hn : s.hasNested = false)
    (hstr : TypeDef.StringsSized (.struct s)) (hpk : s.isPacked = false) (hlim : s.total < bound)
    (buf : List UInt8) :
    D.decodeInPlace scope name buf = (do
      let placed ← AlignLang.place (D.advance fun _ => 0) (.struct s)
      (D.reader (fun _ _ _ => none) D.running buf).type placed) := by
  unfold AlignDecoder.decodeInPlace
  rw [hs, Option.bind_eq_bind, Option.bind_some]
  split
  next => rfl
  next => exact AlignDecoder.decodeAt_of_leaf hL hrun hacc hs hn hstr hpk hlim buf

/-- With nothing to copy, the encoder keeps to its own fields. -/
theorem AlignLang.encodeCopied_of_leaf {L : AlignLang} (hL : L.Advances) :
    ∀ (scope : Scope) (name : String) (t : TypeDef), scope.lookup name = some t →
      scope.Accepted rnd ctx → t = .struct s → s.hasNested = false →
      TypeDef.StringsSized (.struct s) → s.isPacked = false → ∀ v : Value,
        L.encodeCopied scope name v = (do
          let ws ← writes (.struct s) v
          ws.foldlM (L.storeWrite (fun _ _ _ _ => none) L.running) (zeros s.wireSize)) := by
  refine scope_induction ?_ ?_
  · intro n t rest _ hacc ht hn hstr hpk v
    subst ht
    have hs : s.Laid rnd ctx rest := hacc.laid.1
    have hleaf : ∀ f ∈ s.fields, f.elem.isNested = false := by
      rw [hs.nested_eq] at hn
      exact fun f hf => by simpa using List.any_eq_false.mp hn f hf
    rw [AlignLang.encodeCopied, encoder_head]
    show Option.bind _ _ = _
    rw [place_flat hL hacc hstr hpk hleaf _, Option.bind_some]
    cases hws : writes (.struct s) v with
    | none => rfl
    | some ws =>
      refine foldlM_congr_mem ws _ fun w hw buf => ?_
      cases w with
      | elem off sc k e x => simp [AlignLang.storeWrite, writes_leaf hleaf hws hw]
      | _ => rfl
  · intro n t₀ rest m t hm ih hacc ht hn hstr hpk v
    rw [AlignLang.encodeCopied, AlignLang.encoder, resolve_tail t₀ rest hm]
    exact ih hacc.tail ht hn hstr hpk v

end Leaf

/-! ## Before and after -/

section Extension

variable {rnd : Rat → Rat} {ctx ctx' : Context} {scope scope' : Scope} {name : String} {s : Struct}

/-- C encodes such a struct the same in any two scopes that have it. -/
theorem C.encode_same {fl : C.FloatExprs} (hacc : scope.Accepted rnd ctx)
    (hacc' : scope'.Accepted rnd ctx') (hs : scope.lookup name = some (.struct s))
    (hs' : scope'.lookup name = some (.struct s)) (hn : s.hasNested = false)
    (hstr : TypeDef.StringsSized (.struct s)) (hlim : s.isPacked = false → s.total < 4294967296)
    (v : Value) : C.encode fl scope' name v = C.encode fl scope name v := by
  unfold C.encode
  rw [hs, hs']
  simp only [Option.bind_eq_bind, Option.bind_some]
  cases hpk : s.isPacked with
  | true =>
    rw [show TypeDef.isPacked (.struct s) = true from hpk, if_pos rfl, if_pos rfl,
      PackLang.encode_of_leaf C.lang_lawful hacc' hs' hn,
      PackLang.encode_of_leaf C.lang_lawful hacc hs hn]
  | false =>
    have hlt := hlim hpk
    rw [show TypeDef.isPacked (.struct s) = false from hpk, if_neg Bool.false_ne_true,
      if_neg Bool.false_ne_true,
      AlignLang.encodeInPlace_of_leaf C.alignLang_advances C.alignLang_running hacc' hs' hn hstr hpk
        hlt,
      AlignLang.encodeInPlace_of_leaf C.alignLang_advances C.alignLang_running hacc hs hn hstr hpk
        hlt]

/-- C decodes such a struct the same in any two scopes that have it. -/
theorem C.decode_same {fl : C.FloatExprs} (hacc : scope.Accepted rnd ctx)
    (hacc' : scope'.Accepted rnd ctx') (hs : scope.lookup name = some (.struct s))
    (hs' : scope'.lookup name = some (.struct s)) (hn : s.hasNested = false)
    (hstr : TypeDef.StringsSized (.struct s)) (hlim : s.isPacked = false → s.total < 4294967296)
    (buf : List UInt8) : C.decode fl scope' name buf = C.decode fl scope name buf := by
  unfold C.decode
  rw [hs, hs']
  simp only [Option.bind_eq_bind, Option.bind_some]
  cases hpk : s.isPacked with
  | true =>
    rw [show TypeDef.isPacked (.struct s) = true from hpk, if_pos rfl, if_pos rfl,
      PackLang.decode_of_leaf C.lang_lawful hacc' hs' hn,
      PackLang.decode_of_leaf C.lang_lawful hacc hs hn]
  | false =>
    have hlt := hlim hpk
    rw [show TypeDef.isPacked (.struct s) = false from hpk, if_neg Bool.false_ne_true,
      if_neg Bool.false_ne_true,
      @AlignDecoder.decodeInPlace_of_leaf rnd ctx' scope' name s _ (C.alignDecoder fl)
        C.alignLang_advances C.alignLang_running hacc' hs' hn hstr hpk hlt,
      @AlignDecoder.decodeInPlace_of_leaf rnd ctx scope name s _ (C.alignDecoder fl)
        C.alignLang_advances C.alignLang_running hacc hs hn hstr hpk hlt]

/-- Rust encodes it the same; the aligned offsets are `usize`, so there is no bound. -/
theorem Rust.encode_same {fl : Rust.FloatExprs} (hacc : scope.Accepted rnd ctx)
    (hacc' : scope'.Accepted rnd ctx') (hs : scope.lookup name = some (.struct s))
    (hs' : scope'.lookup name = some (.struct s)) (hn : s.hasNested = false)
    (hstr : TypeDef.StringsSized (.struct s)) (v : Value) :
    Rust.encodeOf fl scope' name v = Rust.encodeOf fl scope name v := by
  unfold Rust.encodeOf
  rw [hs, hs']
  simp only [Option.bind_eq_bind, Option.bind_some]
  cases hpk : s.isPacked with
  | true =>
    rw [show TypeDef.isPacked (.struct s) = true from hpk, if_pos rfl, if_pos rfl,
      PackLang.encode_of_leaf Rust.lang_lawful hacc' hs' hn,
      PackLang.encode_of_leaf Rust.lang_lawful hacc hs hn]
  | false =>
    rw [show TypeDef.isPacked (.struct s) = false from hpk, if_neg Bool.false_ne_true,
      if_neg Bool.false_ne_true,
      AlignLang.encodeCopied_of_leaf Rust.alignLang_advances scope' name _ hs' hacc'
        rfl hn hstr hpk,
      AlignLang.encodeCopied_of_leaf Rust.alignLang_advances scope name _ hs hacc rfl hn hstr hpk]

/-- Rust decodes it the same. -/
theorem Rust.decode_same {fl : Rust.FloatExprs} (fromUtf8Lossy : List UInt8 → List UInt8)
    (hacc : scope.Accepted rnd ctx) (hacc' : scope'.Accepted rnd ctx')
    (hs : scope.lookup name = some (.struct s)) (hs' : scope'.lookup name = some (.struct s))
    (hn : s.hasNested = false) (hstr : TypeDef.StringsSized (.struct s)) (buf : List UInt8) :
    Rust.decodeOf fl fromUtf8Lossy scope' name buf
      = Rust.decodeOf fl fromUtf8Lossy scope name buf := by
  by_cases hshort : buf.length < s.wireSize
  · -- both return `None`
    rw [(@Rust.decodeOf_none_iff fromUtf8Lossy rnd ctx' scope' buf fl name _ hacc' hs').mpr hshort,
      (@Rust.decodeOf_none_iff fromUtf8Lossy rnd ctx scope buf fl name _ hacc hs).mpr hshort]
  unfold Rust.decodeOf
  rw [hs, hs']
  simp only [Option.bind_eq_bind, Option.bind_some]
  cases hpk : s.isPacked with
  | true =>
    unfold Rust.decode
    rw [hs, hs', show TypeDef.isPacked (.struct s) = true from hpk, if_pos rfl, if_pos rfl]
    simp only [Option.bind_eq_bind, Option.bind_some,
      PackLang.decode_of_leaf Rust.lang_lawful hacc' hs' hn,
      PackLang.decode_of_leaf Rust.lang_lawful hacc hs hn]
  | false =>
    -- an aligned struct is read in place, by a decoder that never leaves its own fields
    have hwire : s.wireSize = s.total := aligned_wireSize hacc hs hpk
    have hrun : ∀ off, off < s.total + 1 →
        Rust.alignLang.running off = Rust.alignLang.add 0 off := fun off _ => by
      show some off = some (0 + off)
      rw [Nat.zero_add]
    have hin : 0 + TypeDef.total (.struct s) ≤ buf.length := by
      show 0 + s.total ≤ _
      omega
    have hplace := (@Rust.alignedDecoder_inPlace fromUtf8Lossy rnd ctx buf scope name _ hs hacc
      hpk).2 0 hin
    have hplace' := (@Rust.alignedDecoder_inPlace fromUtf8Lossy rnd ctx' buf scope' name _ hs' hacc'
      hpk).2 0 hin
    rw [List.drop_zero] at hplace hplace'
    rw [show TypeDef.isPacked (.struct s) = false from hpk, if_neg Bool.false_ne_true,
      if_neg Bool.false_ne_true, hplace, hplace',
      @AlignDecoder.decodeAt_of_leaf rnd ctx' scope' name s _ (Rust.alignDecoder fromUtf8Lossy)
        Rust.alignLang_advances hrun hacc' hs' hn hstr hpk (Nat.lt_succ_self _),
      @AlignDecoder.decodeAt_of_leaf rnd ctx scope name s _ (Rust.alignDecoder fromUtf8Lossy)
        Rust.alignLang_advances hrun hacc hs hn hstr hpk (Nat.lt_succ_self _)]

variable {schema schema' : SchemaDecl} {data data' : Data}

/-- **A struct without nested types has the same codec before and after it is embedded**, in C
as long as an aligned one has fewer than `2 ^ 32` bytes. -/
theorem nested_same {cfl : C.FloatExprs} {fl : Rust.FloatExprs}
    (fromUtf8Lossy : List UInt8 → List UInt8) (hext : schema.Extends schema' name)
    (hproc : processSchema rnd schema = .ok data) (hval : validateSchema rnd data = [])
    (hproc' : processSchema rnd schema' = .ok data') (hval' : validateSchema rnd data' = [])
    (hs : data.types.lookup name = some (.struct s)) (hn : s.hasNested = false)
    (hstr : TypeDef.StringsSized (.struct s)) :
    ((s.isPacked = false → s.total < 4294967296) →
      (∀ v, C.encode cfl data'.types name v = C.encode cfl data.types name v) ∧
      ∀ buf, C.decode cfl data'.types name buf = C.decode cfl data.types name buf) ∧
    (∀ v, Rust.encodeOf fl data'.types name v = Rust.encodeOf fl data.types name v) ∧
    ∀ buf, Rust.decodeOf fl fromUtf8Lossy data'.types name buf
      = Rust.decodeOf fl fromUtf8Lossy data.types name buf := by
  have hs' := hext.struct_same hproc hproc' hs hn
  obtain ⟨ctx, hacc⟩ := accepted hproc hval
  obtain ⟨ctx', hacc'⟩ := accepted hproc' hval'
  refine ⟨fun hlim => ⟨fun v => ?_, fun buf => ?_⟩, fun v => ?_, fun buf => ?_⟩
  · exact C.encode_same hacc.types hacc'.types hs hs' hn hstr hlim v
  · exact C.decode_same hacc.types hacc'.types hs hs' hn hstr hlim buf
  · exact Rust.encode_same hacc.types hacc'.types hs hs' hn hstr v
  · exact Rust.decode_same fromUtf8Lossy hacc.types hacc'.types hs hs' hn hstr buf

end Extension

/-! ## A label on its own and on a shelf -/

section Shelf

/-- A struct with a field of each kind that needs no other type. -/
def label : SchemaDecl where
  structs :=
    [("Label", { encoding := some "aligned", fields :=
        [{ name := "text", type := "string", maxLength := some 6 },
          { name := "codes", type := "uint16", count := some 3 },
          { name := "slot", type := "uint8", optional := true },
          { name := "price", type := "int32", scale := some (.int 100) }] })]

/-- A shelf has four labels, a rack has shelves. -/
def shelves : Dict StructDecl :=
  [("Rack", { encoding := some "aligned", fields :=
      [{ name := "shelves", type := "Shelf", count := some 2 }] }),
    ("Shelf", { encoding := some "aligned", fields :=
      [{ name := "height", type := "uint8" },
        { name := "labels", type := "Label", count := some 4 }] })]

def labelData : Data := processed label

def rackData : Data := processed { label with structs := label.structs ++ shelves }

/-- Shelves that embed labels leave the label as it was. -/
theorem label_extends :
    label.Extends { label with structs := label.structs ++ shelves } "Label" := by
  have hshelf : RefersTo (label.structs ++ shelves) label.unions "Shelf" "Label" :=
    ⟨by decide +kernel, rfl⟩
  have hrack : RefersTo (label.structs ++ shelves) label.unions "Rack" "Shelf" :=
    ⟨by decide +kernel, rfl⟩
  refine label.extends_append shelves fun d hd => ?_
  rcases List.mem_cons.mp hd with rfl | hd
  · exact .head hrack (.single hshelf)
  · rw [List.mem_singleton.mp hd]
    exact .single hshelf

/-- The label loses its flat code and keeps its bytes. -/
theorem nested_same_label :
    ∃ s, labelData.types.lookup "Label" = some (.struct s) ∧
      PackLang.isFlat labelData.types "Label" (.struct s) = true ∧
      PackLang.isFlat rackData.types "Label" (.struct s) = false ∧
      (∀ v, C.encode C.noFloats rackData.types "Label" v
        = C.encode C.noFloats labelData.types "Label" v) ∧
      (∀ buf, C.decode C.noFloats rackData.types "Label" buf
        = C.decode C.noFloats labelData.types "Label" buf) ∧
      (∀ v, Rust.encodeOf Rust.noFloats rackData.types "Label" v
        = Rust.encodeOf Rust.noFloats labelData.types "Label" v) ∧
      ∀ buf, Rust.decodeOf Rust.noFloats id rackData.types "Label" buf
        = Rust.decodeOf Rust.noFloats id labelData.types "Label" buf := by
  refine ⟨_, rfl, by decide +kernel, by decide +kernel, ?_⟩
  obtain ⟨hc, hrust⟩ := @nested_same id "Label" _ label _ labelData rackData C.noFloats
    Rust.noFloats id label_extends rfl (by decide +kernel) rfl (by decide +kernel) rfl rfl
    (by decide +kernel)
  obtain ⟨henc, hdec⟩ := hc fun _ => by decide +kernel
  exact ⟨henc, hdec, hrust⟩

end Shelf

/-! ## A struct of more than `2 ^ 32` bytes -/

section Archive

/-- A text of `2 ^ 32` bytes and a flag behind it. -/
def archive : SchemaDecl where
  structs :=
    [("Archive", { encoding := some "aligned", fields :=
        [{ name := "data", type := "string", maxLength := some 4294967296 },
          { name := "sealed", type := "bool" }] })]

def vault : Dict StructDecl :=
  [("Vault", { encoding := some "aligned", fields := [{ name := "content", type := "Archive" }] })]

def archiveData : Data := processed archive

def vaultData : Data := processed { archive with structs := archive.structs ++ vault }

/-- A vault around the archive, so that the archive gets a helper. -/
theorem archive_extends :
    archive.Extends { archive with structs := archive.structs ++ vault } "Archive" := by
  refine archive.extends_append vault fun d hd => ?_
  rw [List.mem_singleton.mp hd]
  exact .single ⟨by decide +kernel, rfl⟩

/-- The statements of both encoders, of a string of the full length and a flag behind it. -/
theorem archive_writes (text : List UInt8) :
    ∃ s d b, archiveData.types.lookup "Archive" = some (.struct s) ∧
      vaultData.types.lookup "Archive" = some (.struct s) ∧
      s.isPacked = false ∧ s.wireSize = 4294967297 ∧
      AlignLang.place ((C.alignLang C.noFloats).advance fun _ => 0) (.struct s)
        = some (.struct s) ∧
      writes (.struct s) (.struct [.str text, .bool true])
        = some [.elem 0 true 4294967296 d (.str text), .elem 4294967296 true 1 b (.bool true)] ∧
      (d.isNested = false ∧ d.isString = true ∧ d.maxLength = some 4294967296) ∧
      b.isNested = false ∧ b.isString = false ∧ b.isBool = true :=
  ⟨_, _, _, rfl, rfl, rfl, rfl, rfl, rfl, ⟨rfl, rfl, rfl⟩, rfl, rfl, rfl⟩

/-- Two fields, the first of them at offset 0. -/
theorem two_leaves {L : AlignLang} {env : String → List UInt8 → Nat → Value → Option (List UInt8)}
    {offset : Nat → Option Nat} {d b : Elem} {x y : Value} {xs ys : List UInt8} {k k' off o : Nat}
    {buf buf' : List UInt8} (hd : d.isNested = false) (hb : b.isNested = false)
    (hx : L.leaf true k d x = some xs) (hy : L.leaf true k' b y = some ys)
    (h0 : offset 0 = some 0) (ho : offset off = some o) (hstore : store buf 0 xs = some buf') :
    [Write.elem 0 true k d x, Write.elem off true k' b y].foldlM (L.storeWrite env offset) buf
      = store buf' o ys := by
  simp only [List.foldlM_cons, List.foldlM_nil, AlignLang.storeWrite, h0, hd, hx, hstore, ho, hb,
    hy, Option.bind_eq_bind, Option.bind_some, Bool.false_eq_true, if_false, Option.pure_def,
    Option.bind_fun_some]

/-- The string, and the flag over it or behind it. -/
theorem archive_store {a : UInt8} {text : List UInt8} (hlen : (a :: text).length = 4294967296) :
    store (zeros 4294967297) 0 (a :: text) = some (a :: text ++ zeros 1) ∧
      store (a :: text ++ zeros 1) 0 [1] = some (1 :: (text ++ zeros 1)) ∧
      store (a :: text ++ zeros 1) 4294967296 [1] = some (a :: (text ++ [1])) := by
  have hfirst := @store_append [] (zeros 1) (a :: text) 4294967296 (le_of_eq hlen)
  rw [padTo_of_length hlen, List.nil_append, List.nil_append, ← zeros_add] at hfirst
  have hover : store (a :: text ++ zeros 1) 0 [1] = some (1 :: (text ++ zeros 1)) := by
    rw [store, if_pos (by rw [List.length_append, hlen]; exact Nat.le_add_left 1 _)]
    rfl
  have hbehind := @store_append (a :: text) [] [1] 1 le_rfl
  rw [hlen, List.append_nil, List.append_nil, @padTo_of_length 1 [1] rfl] at hbehind
  exact ⟨hfirst, hover, hbehind⟩

/-- On its own the archive is encoded at a running `uint32_t`, which is back at 0 behind the
string: the flag is stored over its first byte. In the vault the flag is stored behind it. -/
theorem archive_encode (a : UInt8) (text : List UInt8) (hlen : (a :: text).length = 4294967296) :
    C.encode C.noFloats archiveData.types "Archive" (.struct [.str (a :: text), .bool true])
        = some (1 :: (text ++ zeros 1)) ∧
      C.encode C.noFloats vaultData.types "Archive" (.struct [.str (a :: text), .bool true])
        = some (a :: (text ++ [1])) := by
  obtain ⟨s, d, b, hs, hs', hpk, hwire, hplace, hws, ⟨hdn, hds, hdm⟩, hbn, hbs, hbb⟩ :=
    archive_writes (a :: text)
  have hflat : PackLang.isFlat archiveData.types "Archive" (.struct s) = true := by
    cases hs
    rfl
  have hhelper : PackLang.isFlat vaultData.types "Archive" (.struct s) = false := by
    cases hs
    rfl
  have htext : ∀ k, (C.alignLang C.noFloats).leaf true k d (.str (a :: text))
      = some (a :: text) := by
    intro k
    show C.alignedLeaf C.noFloats true k d _ = _
    unfold C.alignedLeaf
    rw [if_pos hds, hdm]
    exact if_pos hlen
  have hflag : ∀ k, (C.alignLang C.noFloats).leaf true k b (.bool true) = some [1] := by
    intro k
    show C.alignedLeaf C.noFloats true k b _ = _
    unfold C.alignedLeaf
    rw [if_neg (by rw [hbs]; exact Bool.false_ne_true), if_pos hbb]
    rfl
  obtain ⟨hfirst, hover, hbehind⟩ := archive_store hlen
  -- the offset of the flag is all that differs
  have hfold := fun env offset o (h0 : offset 0 = some 0) (ho : offset 4294967296 = some o) =>
    @two_leaves (C.alignLang C.noFloats) env offset d b _ _ _ _ _ _ _ o _ _ hdn hbn
      (htext 4294967296) (hflag 1) h0 ho hfirst
  refine ⟨?_, ?_⟩
  · unfold C.encode AlignLang.encodeInPlace
    rw [hs, Option.bind_eq_bind, Option.bind_some,
      if_neg (by rw [show TypeDef.isPacked (.struct s) = false from hpk]; exact Bool.false_ne_true),
      Option.bind_some, if_pos hflat, hplace, Option.bind_some, hws]
    show List.foldlM _ (zeros s.wireSize) _ = _
    rw [hwire, hfold _ (C.alignLang C.noFloats).running 0 rfl rfl, hover]
  · obtain ⟨env, henv⟩ : ∃ env, ∀ buf v, (C.alignLang C.noFloats).encodeAt vaultData.types
        "Archive" buf 0 v = (writes (.struct s) v).bind fun ws =>
          ws.foldlM ((C.alignLang C.noFloats).storeWrite env ((C.alignLang C.noFloats).add 0))
            buf := by
      cases hs
      exact ⟨_, fun _ _ => rfl⟩
    unfold C.encode AlignLang.encodeInPlace
    rw [hs', Option.bind_eq_bind, Option.bind_some,
      if_neg (by rw [show TypeDef.isPacked (.struct s) = false from hpk]; exact Bool.false_ne_true),
      Option.bind_some, if_neg (by rw [hhelper]; exact Bool.false_ne_true),
      show TypeDef.wireSize (.struct s) = 4294967297 from hwire, henv, hws, Option.bind_some,
      hfold _ ((C.alignLang C.noFloats).add 0) 4294967296 rfl rfl, hbehind]

/-- **Embedded in a vault, the archive is encoded differently.** -/
theorem nested_differs :
    processSchema id archive = .ok archiveData ∧ validateSchema id archiveData = [] ∧
      processSchema id { archive with structs := archive.structs ++ vault } = .ok vaultData ∧
      validateSchema id vaultData = [] ∧
      archive.Extends { archive with structs := archive.structs ++ vault } "Archive" ∧
      (∃ s, archiveData.types.lookup "Archive" = some (.struct s) ∧ s.hasNested = false ∧
        TypeDef.StringsSized (.struct s) ∧ s.total = 4294967297) ∧
      ∃ v bytes bytes', C.encode C.noFloats archiveData.types "Archive" v = some bytes ∧
        C.encode C.noFloats vaultData.types "Archive" v = some bytes' ∧ bytes ≠ bytes' := by
  obtain ⟨hflat, hhelper⟩ := archive_encode 0 (zeros 4294967295)
    (by rw [List.length_cons, zeros_length])
  refine ⟨rfl, by decide +kernel, rfl, by decide +kernel, archive_extends,
    ⟨_, rfl, rfl, by decide +kernel, rfl⟩, _, _, _, hflat, hhelper, fun h => ?_⟩
  have hhead : (1 : UInt8) = 0 := (List.cons.inj h).1
  exact absurd hhead (by decide)

end Archive

end ProtoEmb.Codec
