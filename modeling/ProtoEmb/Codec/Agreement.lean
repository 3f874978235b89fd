import ProtoEmb.Codec.Logical

/-!
# The packed encoders agree

For every accepted schema the C, Rust and TypeScript encoders that `protocol.c.j2`,
`protocol.rs.j2` and `protocol.ts.j2` generate turn one logical value into the same bytes
(`packed_encoders_identical`): the bytes of the documented bit string, in which every language
finds the same wire steps.

C keeps bit offsets in a `uint32_t`, so this needs a type of less than `2 ^ 32` bits.
Beyond that C writes into the front of the buffer and TypeScript does not
(`packed_encoders_differ`).
-/

namespace ProtoEmb.Codec

open ProtoEmb.Lib ProtoEmb.Schema

/-- **The three packed encoders write the same bytes.** -/
theorem packed_encoders_identical {rnd js : Rat → Rat} {cfl : C.FloatExprs}
    {rfl' : Rust.FloatExprs} {schema : SchemaDecl} {data : Data}
    (hproc : processSchema rnd schema = .ok data) (hval : validateSchema rnd data = [])
    (hjs : TypeScript.RoundsDouble js) {name : String} {t : TypeDef}
    (ht : data.types.lookup name = some t) (hpk : t.isPacked = true)
    (hbits : t.total < 4294967296) {v : Value} {cs : List Chunk}
    (hlay : layout data.types name v = some cs) (hnarrow : ∀ c ∈ cs, c.Narrow)
    (hleaves : AllLeaves (fun _ e v => Supported e v) cs) :
    ∃ bytes, (Rust.lang rfl').encode data.types name v = some bytes ∧
      (∃ w, toC data.types name v = some w ∧
        (C.lang cfl).encode data.types name w = some bytes) ∧
      (AllLeaves (fun _ e _ => e.rawStorage = false) cs →
        ∃ x, toTs data.types name v = some x ∧
          (TypeScript.lang js).encode data.types name x = some bytes) := by
  obtain ⟨ctx, hacc⟩ := accepted hproc hval
  have hschema := layout_leaves data.types name t ht hacc.types hpk hlay
  refine ⟨wireBytes t (image wireStep cs), ?_, ?_, ?_⟩
  · have hpacks : (Rust.lang rfl').Packs wireStep cs :=
      ⟨hnarrow, fun s e v hl => rust_step s (hschema s e v hl) (hleaves s e v hl).rust⟩
    exact encode_eq Rust.lang_lawful hacc.types ht hpk hlay hpacks hbits
  · exact encode_in_terms C.lang_lawful hacc.types ht hpk hlay hnarrow hbits
      fun s e v hl => c_step s (hschema s e v hl) hacc.enums (hleaves s e v hl)
  · intro hraw
    exact encode_in_terms TypeScript.lang_lawful hacc.types ht hpk hlay hnarrow hbits
      fun s e v hl => ts_step hjs s (hschema s e v hl) hacc.enums (hleaves s e v hl)
        (hraw s e v hl)

/-- The data of a schema that is known to be accepted. -/
def processed (schema : SchemaDecl) : Data :=
  match processSchema id schema with
  | .ok data => data
  | .error _ => { enums := [], types := [], messages := [], nodes := [] }

section Thermostat

/-- The packed types of `thermostat.yaml`. -/
def thermostat : SchemaDecl where
  enums :=
    [("Mode", { variants := [.plain "OFF", .plain "HEAT", .plain "COOL", .plain "AUTO"] }),
      ("FanCmd", { remap := true, variants := [.valued "OFF" 0, .valued "LOW" 1, .valued "HIGH" 2,
        .valued "AUTO" 9] })]
  unions :=
    [("Sample", { encoding := some "packed", variants :=
      [{ name := "temperature", type := "int16", scale := some (.int 10),
          min := some (.int (-40)), max := some (.int 85) },
        { name := "humidity", type := "uint8", min := some (.int 0), max := some (.int 100) },
        { name := "fan", type := "FanCmd" }] })]
  structs :=
    [("Reading", { encoding := some "packed", fields :=
      [{ name := "temp", type := "int16", scale := some (.int 10), min := some (.int (-40)),
          max := some (.int 85) },
        { name := "humidity", type := "uint8", min := some (.int 0), max := some (.int 100) }] }),
      ("Datum", { encoding := some "packed", fields :=
        [{ name := "channel", type := "uint8", min := some (.int 0), max := some (.int 15) },
          { name := "value", type := "Sample" }] }),
      ("ZoneState", { encoding := some "packed", fields :=
        [{ name := "mode", type := "Mode" }, { name := "fan", type := "FanCmd" },
          { name := "setpoint", type := "int16", scale := some (.int 10), min := some (.int 0),
            max := some (.int 40) },
          { name := "occupied", type := "bool" }, { name := "current", type := "Reading" }] }),
      ("SensorPacket", { encoding := some "packed", fields :=
        [{ name := "id", type := "uint8", min := some (.int 0), max := some (.int 31) },
          { name := "reading", type := "Reading" },
          { name := "fault", type := "bool", optional := true },
          { name := "zone", type := "ZoneState", optional := true }] })]
  defaultEncoding := some "packed"

def thermostatData : Data := processed thermostat

theorem thermostat_ok : processSchema id thermostat = .ok thermostatData := rfl

theorem thermostat_valid : validateSchema id thermostatData = [] := by decide +kernel

/-- A packet with a zone in which the fan is on `AUTO`: index 3, semantic value 9. -/
def packet : Value :=
  .struct [.int 7, .struct [.int (-12), .int 40], .absent,
    .present (.struct [.enum 1, .enum 3, .int 21, .bool true, .struct [.int 19, .int 38]])]

/-- One packet in the three languages. -/
theorem packed_encoders_identical_packet :
    ∃ bytes, (Rust.lang Rust.noFloats).encode thermostatData.types
        "SensorPacket" packet = some bytes ∧
      (∃ w, toC thermostatData.types "SensorPacket" packet = some w ∧
        (C.lang C.noFloats).encode thermostatData.types "SensorPacket" w
          = some bytes) ∧
      ∃ x, toTs thermostatData.types "SensorPacket" packet = some x ∧
        (TypeScript.lang id).encode thermostatData.types "SensorPacket" x = some bytes := by
  obtain ⟨bytes, hrust, hc, hts⟩ := packed_encoders_identical thermostat_ok thermostat_valid
    TypeScript.roundsDouble_id (show thermostatData.types.lookup "SensorPacket" = some _ from rfl)
    rfl (by decide +kernel)
      (show layout thermostatData.types "SensorPacket" packet = some _ from rfl)
    (by decide +kernel) (by decide +kernel)
  exact ⟨bytes, hrust, hc, hts (by decide +kernel)⟩

end Thermostat

/-! ## A type of more than `2 ^ 32` bits -/

section Wide

/-- Five slots of `2 ^ 30` bits each: an optional body, which may well be absent, and a
flag behind it. No array has more than 32 elements. -/
def wide : SchemaDecl where
  structs :=
    [("S0", { fields := [{ name := "x", type := "uint32", count := some 32 }] }),
      ("S1", { fields := [{ name := "x", type := "S0", count := some 32 }] }),
      ("S2", { fields := [{ name := "x", type := "S1", count := some 32 }] }),
      ("S3", { fields := [{ name := "x", type := "S2", count := some 32 }] }),
      ("Body", { fields := [{ name := "a", type := "S3", count := some 31 },
        { name := "b", type := "S2", count := some 31 },
        { name := "c", type := "S1", count := some 31 },
        { name := "d", type := "S0", count := some 31 },
        { name := "e", type := "uint32", count := some 31 },
        { name := "f", type := "uint32", bits := some 30 }] }),
      ("Slot", { fields := [{ name := "body", type := "Body", optional := true },
        { name := "used", type := "bool" }] }),
      ("Table", { fields := [{ name := "slots", type := "Slot", count := some 5 }] })]

def wideData : Data := processed wide

theorem wide_ok : processSchema id wide = .ok wideData := rfl

theorem wide_valid : validateSchema id wideData = [] := by decide +kernel

/-- A slot without its padding, free or used. -/
def slot (used : Bool) : Value := .struct [.absent, .bool used]

/-- Only the last slot is used. -/
def wideValue : Value :=
  .struct [.array [slot false, slot false, slot false, slot false, slot true]]

/-- The field `used`. -/
def usedElem : Elem where
  type := "bool"
  isEnum := false
  isStruct := false
  isUnion := false
  isBool := true
  isString := false
  isFloat := false
  isNumeric := false
  isSigned := false
  enum := none
  scale := .int 1
  hasScale := false
  rawStorage := false
  min := none
  max := none
  minWire := none
  maxWire := none
  maxLength := none
  size := 1

/-- The elements of `slots`. -/
def slotElem : Elem :=
  { usedElem with type := "Slot", isBool := false, isStruct := true, size := 1073741824 }

/-- The helper of a slot, statement by statement. -/
theorem slot_pack (L : PackLang) (buf : List UInt8) (base : Nat) (used : Bool) :
    L.pack wideData.types.tail "Slot" buf base (slot used)
      = [.flag 0 false, .skip 1 1073741822, .elem 1073741823 true 1 usedElem (.bool used)].foldlM
        (L.packWrite (L.pack wideData.types.tail.tail) (L.add base)) buf := rfl

/-- The encoder of the table calls it at five offsets; the last one is `2 ^ 32`. -/
theorem table_pack (L : PackLang) (buf : List UInt8) :
    L.pack wideData.types "Table" buf 0 wideValue
      = [.elem 0 false 1073741824 slotElem (slot false),
          .elem 1073741824 false 1073741824 slotElem (slot false),
          .elem 2147483648 false 1073741824 slotElem (slot false),
          .elem 3221225472 false 1073741824 slotElem (slot false),
          .elem 4294967296 false 1073741824 slotElem (slot true)].foldlM
        (L.packWrite (L.pack wideData.types.tail) (L.add 0)) buf := rfl

/-- A language packs the table by setting one bit, where its offset arithmetic says. -/
theorem wide_pack {L : PackLang} (hadd : ∀ base off, ∃ o, L.add base off = some o)
    (hzero : ∀ buf off, L.packBits buf off 1 0 = some buf)
    (hstep : ∀ b, L.step true usedElem (.bool b) = some (if b then 1 else 0)) {p q : Nat}
    (hp : L.add 0 4294967296 = some p) (hq : L.add p 1073741823 = some q) (buf : List UInt8) :
    L.pack wideData.types "Table" buf 0 wideValue = L.packBits buf q 1 1 := by
  have hleaf : usedElem.isNested = false := rfl
  have hwidth : PackLang.leafWidth usedElem 1 = 1 := rfl
  have hnested : slotElem.isNested = true := rfl
  have htype : slotElem.type = "Slot" := rfl
  have hempty : ∀ (buf : List UInt8) (base : Nat),
      L.pack wideData.types.tail "Slot" buf base (slot false) = some buf := by
    intro buf base
    obtain ⟨o, ho⟩ := hadd base 0
    obtain ⟨o', ho'⟩ := hadd base 1073741823
    rw [slot_pack]
    simp [PackLang.packWrite, ho, ho', hzero, hstep, hleaf, hwidth]
  have hused : L.pack wideData.types.tail "Slot" buf p (slot true) = L.packBits buf q 1 1 := by
    obtain ⟨o, ho⟩ := hadd p 0
    rw [slot_pack]
    simp [PackLang.packWrite, ho, hq, hzero, hstep, hleaf, hwidth]
  obtain ⟨o₀, h₀⟩ := hadd 0 0
  obtain ⟨o₁, h₁⟩ := hadd 0 1073741824
  obtain ⟨o₂, h₂⟩ := hadd 0 2147483648
  obtain ⟨o₃, h₃⟩ := hadd 0 3221225472
  rw [table_pack]
  simp [PackLang.packWrite, h₀, h₁, h₂, h₃, hp, hnested, htype, hempty, hused]

/-- The table has 671088640 bytes and no flat encoder. -/
theorem wide_lookup : ∃ t, wideData.types.lookup "Table" = some t ∧ t.wireSize = 671088640 ∧
    PackLang.isFlat wideData.types "Table" t = false :=
  ⟨_, rfl, rfl, rfl⟩

/-- The encoder of the table sets one bit of a buffer of the table's size, where the
language's offset arithmetic says. -/
theorem wide_encode {L : PackLang} (hadd : ∀ base off, ∃ o, L.add base off = some o)
    (hzero : ∀ buf off, L.packBits buf off 1 0 = some buf)
    (hstep : ∀ b, L.step true usedElem (.bool b) = some (if b then 1 else 0)) {p q : Nat}
    (hp : L.add 0 4294967296 = some p) (hq : L.add p 1073741823 = some q)
    (hone : ∀ buf : List UInt8, buf.length = 671088640 →
      L.packBits buf q 1 1 = some (orBits buf q (natBits 1 1))) :
    ∃ buf : List UInt8, buf.length = 671088640 ∧ (∀ r, bitAt buf r = false) ∧
      L.encode wideData.types "Table" wideValue = some (setBit buf q) := by
  obtain ⟨table, hlook, hwire, hflat⟩ := wide_lookup
  refine ⟨List.replicate table.wireSize 0, by rw [List.length_replicate, hwire],
    bitAt_zeros _, ?_⟩
  generalize hbuf : List.replicate table.wireSize (0 : UInt8) = buf
  have hlen : buf.length = 671088640 := by rw [← hbuf, List.length_replicate, hwire]
  simp only [PackLang.encode, hlook, Option.bind_eq_bind, Option.bind_some, hflat, hbuf,
    Bool.false_eq_true, if_false]
  rw [wide_pack hadd hzero hstep hp hq, hone buf hlen]
  rfl

/-- In C the last slot sets the flag of the first. -/
theorem wide_encode_c (fl : C.FloatExprs) :
    ∃ buf : List UInt8, buf.length = 671088640 ∧ (∀ r, bitAt buf r = false) ∧
      (C.lang fl).encode wideData.types "Table" wideValue = some (setBit buf 1073741823) :=
  wide_encode (fun _ _ => ⟨_, rfl⟩) (fun _ _ => rfl) (fun _ => rfl) (p := 0) rfl rfl
    fun _ hlen => C.lang_lawful.packBits_eq 1 (by omega) (by omega) (by rw [hlen]; omega)

/-- In TypeScript it sets its own. -/
theorem wide_encode_ts (js : Rat → Rat) :
    ∃ buf : List UInt8, buf.length = 671088640 ∧ (∀ r, bitAt buf r = false) ∧
      (TypeScript.lang js).encode wideData.types "Table" wideValue
        = some (setBit buf 5368709119) :=
  wide_encode (fun _ _ => ⟨_, rfl⟩) (fun _ _ => rfl) (fun _ => rfl) (p := 4294967296) rfl rfl
    fun _ _ => TypeScript.packBits_eq 1 (by omega)

/-- The flag of the last slot is bit `5 * 2 ^ 30 - 1`; C sets bit `2 ^ 30 - 1`, the flag
of the first slot. -/
theorem packed_encoders_differ :
    processSchema id wide = .ok wideData ∧ validateSchema id wideData = [] ∧
      toC wideData.types "Table" wideValue = some wideValue ∧
      toTs wideData.types "Table" wideValue = some wideValue ∧
      ∃ b₁ b₂, (C.lang C.noFloats).encode wideData.types "Table" wideValue
          = some b₁ ∧
        (TypeScript.lang id).encode wideData.types "Table" wideValue = some b₂ ∧ b₁ ≠ b₂ := by
  obtain ⟨buf, hlen, hzero, hc⟩ := wide_encode_c C.noFloats
  obtain ⟨buf', hlen', hzero', hts⟩ := wide_encode_ts id
  refine ⟨wide_ok, wide_valid, rfl, rfl, _, _, hc, hts, fun heq => ?_⟩
  have hset : bitAt (setBit buf 1073741823) 1073741823 = true := by
    rw [bitAt_setBit (by omega), beq_self_eq_true, Bool.or_true]
  rw [heq, bitAt_setBit (by omega), hzero'] at hset
  simp at hset

end Wide

end ProtoEmb.Codec
