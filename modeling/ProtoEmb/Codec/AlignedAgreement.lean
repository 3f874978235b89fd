import ProtoEmb.Codec.Agreement
import ProtoEmb.Codec.Native

/-!
# The aligned encoders side by side

Rust writes the documented bytes of an aligned type. C and TypeScript write the same,
except that an enum is its constant, so a remap enum goes out as its semantic value and
not as the compact index `docs/wire-format.md` promises. The three encoders produce the
documented bytes exactly if every remap enum in the value holds a variant whose value is
its index (`aligned_encoders_identical_iff`).
-/

namespace ProtoEmb.Codec

open ProtoEmb.Lib ProtoEmb.Schema

/-- `*_encode` of an aligned type in C. -/
def C.encodeAligned (fl : C.FloatExprs) : Scope → String → Value → Option (List UInt8) :=
  (C.alignLang fl).encodeInPlace

/-- `encode` of an aligned type in Rust. -/
def Rust.encodeAligned : Scope → String → Value → Option (List UInt8) :=
  Rust.alignLang.encodeCopied

/-- `encode*` of an aligned type in TypeScript. -/
def TypeScript.encodeAligned (rnd : Rat → Rat) : Scope → String → Value → Option (List UInt8) :=
  (TypeScript.alignLang rnd).encodeCopied

/-- A remap enum leaf holds a variant whose value is its index. -/
def ValueIsIndex (e : Elem) (v : Value) : Prop :=
  ∀ i, v = .enum i → ∀ t ∈ e.enum, t.isRemap = true → constant t i = some i

instance (e : Elem) : (v : Value) → Decidable (ValueIsIndex e v)
  | .enum i => decidable_of_iff (∀ t ∈ e.enum, t.isRemap = true → constant t i = some i)
      ⟨fun h j hj => by cases hj; exact h, fun h => h i rfl⟩
  | .bool _ | .int _ | .num _ | .float _ | .str _ | .absent | .present _ | .array _ | .struct _
  | .union _ _ => .isTrue fun _ h => by cases h

section Leaf

variable {rnd : Rat → Rat} {ctx : Context} {e : Elem} {v : Value} {s : Bool}

/-- The constant has the byte of the index exactly if it is the index: both are bytes. -/
theorem valueBytes_eq_iff (hl : InSchema rnd ctx false s e) (hctx : ctx.EnumsLaid)
    (h : AlignedLeaf e v) (hd : RemapDistinct e) :
    valueBytes s e v = documentedBytes s e v ↔ ValueIsIndex e v := by
  cases h with
  | enum i hi =>
    obtain ⟨t, ht, hlaid, h0, hlt, h256, _⟩ := hi.laid hl.leaf hctx
    obtain ⟨hidx, hc⟩ := constant_eq hlaid h0 hlt
    have hiff : ValueIsIndex e (.enum i) ↔ (t.isRemap = true → constant t i = some i) :=
      ⟨fun h => h i rfl t ht, fun h j hj t' ht' => by
        cases hj
        rw [Option.mem_def, ht, Option.some.injEq] at ht'
        exact ht' ▸ h⟩
    rw [hiff, hc, valueBytes, documentedBytes, ht, Option.bind_some, hc, Option.getD_some]
    by_cases hr : t.isRemap = true
    · obtain ⟨hlo, hhi⟩ := (hd t ht hr).byte _ (List.getElem_mem hidx)
      generalize (t.variants[i.toNat]).value = c at hlo hhi
      rw [if_pos hr, toU32_of_nonneg hlo (by omega), List.cons.injEq, Option.some.injEq]
      constructor
      · rintro ⟨hbyte, _⟩ _
        have hnat : (UInt8.ofNat c.toNat).toNat = (UInt8.ofNat i.toNat).toNat := by rw [hbyte]
        rw [UInt8.toNat_ofNat', UInt8.toNat_ofNat', Nat.mod_eq_of_lt (by omega),
          Nat.mod_eq_of_lt (by omega)] at hnat
        omega
      · intro heq
        rw [heq hr]
        exact ⟨rfl, rfl⟩
    · rw [if_neg hr, toU32_of_nonneg h0 (by omega)]
      exact ⟨fun _ h => absurd h hr, fun _ => rfl⟩
  | bool b _ _ => exact ⟨fun _ i hi => (by cases hi), fun _ => rfl⟩
  | int n _ => exact ⟨fun _ i hi => (by cases hi), fun _ => rfl⟩
  | str bs n _ _ _ => exact ⟨fun _ i hi => (by cases hi), fun _ => rfl⟩

end Leaf

/-- **The three aligned encoders produce the documented bytes exactly if no remap enum
has another value than its index.** -/
theorem aligned_encoders_identical_iff {rnd js : Rat → Rat} {cfl : C.FloatExprs}
    {schema : SchemaDecl} {data : Data} (hproc : processSchema rnd schema = .ok data)
    (hval : validateSchema rnd data = []) (hjs : TypeScript.RoundsDouble js)
    (hstr : StringsSized data.types) {name : String} {t : TypeDef}
    (ht : data.types.lookup name = some t) (hpk : t.isPacked = false)
    (hbytes : t.wireSize < 4294967296) {v : Value} {cs : List Chunk}
    (hlay : layout data.types name v = some cs) (htags : ∀ c ∈ cs, c.TagFits)
    (hleaves : AllLeaves
      (fun _ e v => AlignedLeaf e v ∧ RemapDistinct e ∧ e.rawStorage = false) cs) :
    (Rust.encodeAligned data.types name v = some (byteImage documentedBytes cs) ∧
      (∃ c, toC data.types name v = some c ∧
        C.encodeAligned cfl data.types name c = some (byteImage documentedBytes cs)) ∧
      ∃ x, toTs data.types name v = some x ∧
        TypeScript.encodeAligned js data.types name x = some (byteImage documentedBytes cs)) ↔
      AllLeaves (fun _ e v => ValueIsIndex e v) cs := by
  obtain ⟨ctx, hacc⟩ := accepted hproc hval
  have hschema := layout_inSchema data.types name t ht hacc.types hpk hlay
  have hlim : t.total < 4294967296 := by
    rw [← aligned_wireSize hacc.types ht hpk]
    exact hbytes
  have hrust : Rust.encodeAligned data.types name v = some (byteImage documentedBytes cs) := by
    refine encodeCopied_eq Rust.alignLang_advances Rust.alignLang_advancesNested
      Rust.alignLang_sizesStrings (fun _ => rfl) data.types name t ht hacc.types hpk hlay
      ⟨fun s e v hl => rust_stores (hschema s e v hl) (hleaves s e v hl).1, fun size i hm => ?_⟩
    exact if_pos (htags _ hm)
  -- C and TypeScript write the constants
  have hc : ∃ c, toC data.types name v = some c ∧
      C.encodeAligned cfl data.types name c = some (byteImage valueBytes cs) := by
    obtain ⟨c, ds, bs, hc, hds, hs, himage⟩ := @stores_in_terms (C.alignLang cfl) _ _ _ _ _ _ hlay
      (fun s e v hl => c_stores (hschema s e v hl) hacc.enums (hleaves s e v hl).1)
      fun _ _ _ => rfl
    refine ⟨c, hc, ?_⟩
    rw [← himage]
    exact encodeInPlace_eq C.alignLang_advances C.alignLang_add C.alignLang_running hacc.types hstr
      ht hpk hds hs hlim
  have hts : ∃ x, toTs data.types name v = some x ∧
      TypeScript.encodeAligned js data.types name x = some (byteImage valueBytes cs) := by
    obtain ⟨x, ds, bs, hx, hds, hs, himage⟩ := @stores_in_terms (TypeScript.alignLang js) _ _ _ _ _
      _ hlay (fun s e v hl => ts_stores hjs (hschema s e v hl) hacc.enums (hleaves s e v hl).1
        (hleaves s e v hl).2.2) fun _ _ _ => rfl
    refine ⟨x, hx, ?_⟩
    rw [← himage]
    exact encodeCopied_eq TypeScript.alignLang_advances TypeScript.alignLang_advancesNested
      TypeScript.alignLang_sizesStrings (fun _ => rfl) data.types name t ht hacc.types hpk hds hs
  have himage : byteImage valueBytes cs = byteImage documentedBytes cs ↔
      AllLeaves (fun _ e v => ValueIsIndex e v) cs := by
    rw [byteImage_eq_iff cs (fun s e v hl => valueBytes_length (hschema s e v hl)
        (hleaves s e v hl).1)
      (fun s e v hl => documentedBytes_length (hschema s e v hl) (hleaves s e v hl).1)]
    have hiff := fun s e v hl => valueBytes_eq_iff (hschema s e v hl) hacc.enums
      (hleaves s e v hl).1 (hleaves s e v hl).2.1
    exact ⟨fun h s e v hl => (hiff s e v hl).mp (h s e v hl),
      fun h s e v hl => (hiff s e v hl).mpr (h s e v hl)⟩
  rw [← himage]
  constructor
  · rintro ⟨_, ⟨c, hc₁, hc₂⟩, _⟩
    obtain ⟨c', hc₁', hc₂'⟩ := hc
    rw [hc₁, Option.some.injEq] at hc₁'
    subst hc₁'
    rw [hc₂] at hc₂'
    exact (Option.some.inj hc₂').symm
  · intro heq
    rw [heq] at hc hts
    exact ⟨hrust, hc, hts⟩

section Examples

/-- A remap enum, a scaled number and a name in aligned types. -/
def climate : SchemaDecl where
  enums := [("FanCmd", { remap := true, variants := [.valued "OFF" 0, .valued "LOW" 1,
    .valued "HIGH" 2, .valued "AUTO" 9] })]
  structs :=
    [("Fan", { encoding := some "aligned", fields :=
      [{ name := "cmd", type := "FanCmd" },
        { name := "speed", type := "uint16", scale := some (.int 10) }] }),
      ("Room", { encoding := some "aligned", fields :=
        [{ name := "name", type := "string", maxLength := some 4 },
          { name := "fans", type := "Fan", count := some 2 },
          { name := "spare", type := "Fan", optional := true }] })]

def climateData : Data := processed climate

theorem climate_ok : processSchema id climate = .ok climateData := rfl

theorem climate_valid : validateSchema id climateData = [] := by decide +kernel

/-- A room with both fans on `LOW`, the value and the index of which are 1. -/
def room : Value :=
  .struct [.str [97, 98], .array [.struct [.enum 1, .int 30], .struct [.enum 1, .int 5]], .absent]

theorem aligned_encoders_identical_room :
    Rust.encodeAligned climateData.types "Room" room
        = some [97, 98, 0, 0, 1, 44, 1, 1, 50, 0, 0, 0, 0, 0] ∧
      (∃ c, toC climateData.types "Room" room = some c ∧
        C.encodeAligned C.noFloats climateData.types "Room" c
          = some [97, 98, 0, 0, 1, 44, 1, 1, 50, 0, 0, 0, 0, 0]) ∧
      ∃ x, toTs climateData.types "Room" room = some x ∧
        TypeScript.encodeAligned id climateData.types "Room" x
          = some [97, 98, 0, 0, 1, 44, 1, 1, 50, 0, 0, 0, 0, 0] :=
  (@aligned_encoders_identical_iff id id C.noFloats climate climateData climate_ok climate_valid
    TypeScript.roundsDouble_id (by decide +kernel) "Room" _ rfl rfl (by decide +kernel) room _ rfl
    (by decide +kernel) (by decide +kernel)).mpr (by decide +kernel)

/-- A fan on `AUTO`: Rust writes the index 3, C and TypeScript the value 9. -/
theorem aligned_encoders_differ :
    processSchema id climate = .ok climateData ∧ validateSchema id climateData = [] ∧
      Rust.encodeAligned climateData.types "Fan" (.struct [.enum 3, .int 30]) = some [3, 44, 1] ∧
      toC climateData.types "Fan" (.struct [.enum 3, .int 30])
        = some (.struct [.enum 9, .int 30]) ∧
      C.encodeAligned C.noFloats climateData.types "Fan" (.struct [.enum 9, .int 30])
        = some [9, 44, 1] ∧
      toTs climateData.types "Fan" (.struct [.enum 3, .int 30])
        = some (.struct [.enum 9, .num 30]) ∧
      TypeScript.encodeAligned id climateData.types "Fan" (.struct [.enum 9, .num 30])
        = some [9, 44, 1] :=
  ⟨climate_ok, climate_valid, by decide +kernel, rfl, by decide +kernel, rfl, by decide +kernel⟩

end Examples

end ProtoEmb.Codec
