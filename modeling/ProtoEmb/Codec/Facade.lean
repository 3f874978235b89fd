import ProtoEmb.Codec.Agreement
import ProtoEmb.Codec.RustDecode
import ProtoEmb.Schema.Commands

/-!
# The typed facade

`Inbound::decode_data` of `protocol.rs.j2`: the payload of a DATA frame, decoded as the
response of the message with that command id. It has one arm for each message that has a
response and an id, in the order of the schema; what no arm takes, and what does not decode,
is kept as it came.

READ and WRITE messages meet here: an id may be read and written, but only one of the two may
return a payload. `dispatch_unambiguous` has this together with the two dispatchers, and says
which schemas `validate_schema` rejects for their ids.
-/

namespace ProtoEmb.Codec

open ProtoEmb.Lib ProtoEmb.Schema

/-- A decoded payload, tagged with its message. -/
inductive Inbound where
  | data (message : String) (value : Value)
  | unknown (command : UInt8) (payload : List UInt8)

/-- `Inbound::decode_data`. -/
def decodeData (fl : Rust.FloatExprs) (fromUtf8Lossy : List UInt8 → List UInt8) (data : Data)
    (command : UInt8) (payload : List UInt8) : Option Inbound :=
  match data.dataMessages.find? fun m => m.hasId command with
  | some m => do
    let v ← Rust.decodeOf fl fromUtf8Lossy data.types (m.decl.response.getD "") payload
    return (v.map (.data m.name)).getD (.unknown command payload)
  | none => some (.unknown command payload)

section Facade

variable {rnd : Rat → Rat} {fl : Rust.FloatExprs} {fromUtf8Lossy : List UInt8 → List UInt8}

/-- The response of a message of an accepted schema is one of its types. -/
theorem response_lookup {schema : SchemaDecl} {data : Data}
    (hp : processSchema rnd schema = .ok data) (hv : validateSchema rnd data = []) {m : Message}
    (hm : m ∈ data.messages) {r : String} (hr : m.decl.response = some r) :
    ∃ t, data.types.lookup r = some t := by
  simp only [validateSchema, List.append_eq_nil_iff, List.flatMap_eq_nil_iff] at hv
  have hmsg := hv.1.1.1.2 m hm
  simp only [validateMessage, List.append_eq_nil_iff, hr, errorIf_eq_nil, not_not] at hmsg
  obtain ⟨s, hs, rfl⟩ := List.mem_map.mp hmsg.1.1.2
  obtain ⟨⟨n, t⟩, ht, htype⟩ := List.mem_filterMap.mp hs
  cases t with
  | union u => cases htype
  | struct s' =>
    cases htype
    have hmem := List.mem_reverse.mp ht
    obtain ⟨ctx, -, hmade⟩ := processSchema_made hp
    rw [(hmade _ hmem).struct_name]
    cases hl : data.types.lookup n with
    | some t => exact ⟨t, rfl⟩
    | none =>
      rw [List.lookup_eq_none_iff] at hl
      exact absurd (hl (n, .struct s) hmem) (by simp)

/-- The arm of a message with a response. -/
theorem decodeData_eq {data : Data} (hv : validateSchema rnd data = []) {m : Message}
    (hm : m ∈ data.messages) {r : String} (hr : m.decl.response = some r) {b : UInt8}
    (hb : m.hasId b = true) (payload : List UInt8) :
    decodeData fl fromUtf8Lossy data b payload
      = (Rust.decodeOf fl fromUtf8Lossy data.types r payload).map fun v =>
          (v.map (.data m.name)).getD (.unknown b payload) := by
  have hmem : m ∈ data.dataMessages := by
    refine List.mem_filter.mpr ⟨hm, ?_⟩
    rw [hr, Message.hasId_iff.mp hb]
    rfl
  unfold decodeData
  simp only [(uniqueIds_of_accepted hv).2.2.find_eq hmem hb, hr, Option.getD_some]
  cases Rust.decodeOf fl fromUtf8Lossy data.types r payload <;> rfl

/-- Command 0 is read and written, and only the READ returns a payload. -/
def hub : SchemaDecl :=
  { thermostat with
    messages :=
      [("reading",
          { txNode := some "sensor", commandId := some 0, periodMs := some 5000,
            response := some "Reading" }),
        ("packet",
          { txNode := some "sensor", commandId := some 1, priority := some "low",
            response := some "SensorPacket" }),
        ("set_zone", { txNode := some "hub", commandId := some 0, request := some "ZoneState" })] }

def hubData : Data := processed hub

theorem hub_ok : processSchema id hub = .ok hubData := rfl

theorem hub_valid : validateSchema id hubData = [] := by decide +kernel

end Facade

end ProtoEmb.Codec
