import ProtoEmb.Codec.Locality
import ProtoEmb.System.Typed

/-!
# Host and device of different versions

The host and the firmware are built from different versions of the schema: one has further
types and messages, or the same ones in another order. Where the versions agree the typed calls
go through as if they were one: what a request or a reply holds is written by the code of one
version and read by that of the other, and this code is the same (`Versions.carried_iff`). An id
that no message of the device has is refused and changes nothing. An id that the device uses for
another message is dispatched to that one: nothing on the wire says which version is meant.
-/

namespace ProtoEmb.System

open ProtoEmb.Lib ProtoEmb.Framing ProtoEmb.Schema ProtoEmb.Client ProtoEmb.Device ProtoEmb.Codec

/-- The device's and the host's version of a schema. They agree on the names in `S`, and the
aligned types under these are smaller than `2 ^ 32` bytes and have sized strings. -/
structure Versions (rnd : Rat → Rat) (S : Set String) (device host : SchemaDecl)
    (data data' : Data) : Prop where
  agree : device.Agrees S host
  processed : processSchema rnd device = .ok data
  valid : validateSchema rnd data = []
  processed' : processSchema rnd host = .ok data'
  valid' : validateSchema rnd data' = []
  aligned : ∀ n ∈ S, ∀ t ∈ data.types.lookup n, t.isPacked = false →
    TypeDef.StringsSized t ∧ t.total < 4294967296

variable {cfg : RuntimeConfig} {σ : Type} {rnd : Rat → Rat} {S : Set String}
  {device host : SchemaDecl} {data data' : Data} {cfl : C.FloatExprs} {rfl' : Rust.FloatExprs}
  {handlers : Handlers cfg σ} {name : String} {v c : Value} {bytes : List UInt8}

/-- A value that crosses in one version crosses in the other, as the same bytes. -/
theorem Versions.carried_iff (h : Versions rnd S device host data data') (hn : name ∈ S) :
    Carried cfl rfl' data'.types name v c bytes ↔ Carried cfl rfl' data.types name v c bytes := by
  obtain ⟨ctx, ctx', hsame⟩ := sameTypes_of_agrees h.agree h.processed h.valid h.processed' h.valid'
  have ht := hsame.agree.same name hn
  have hcode : SameCode cfl rfl' id data.types data'.types name := hsame.code hn (h.aligned name hn)
  constructor
  · rintro ⟨hrenc, hrdec, hcenc, hcdec, hsize⟩
    rw [hcode.rust_encode] at hrenc
    rw [hcode.rust_decode] at hrdec
    rw [hcode.c_encode] at hcenc
    rw [hcode.c_decode] at hcdec
    rw [ht] at hsize
    exact ⟨hrenc, hrdec, hcenc, hcdec, hsize⟩
  · rintro ⟨hrenc, hrdec, hcenc, hcdec, hsize⟩
    rw [← hcode.rust_encode] at hrenc
    rw [← hcode.rust_decode] at hrdec
    rw [← hcode.c_encode] at hcenc
    rw [← hcode.c_decode] at hcdec
    rw [← ht] at hsize
    exact ⟨hrenc, hrdec, hcenc, hcdec, hsize⟩

/-! ## Messages that the device does not have -/

section Unknown

variable (fw : Firmware cfg σ) {b : UInt8}

theorem find_none {p : Message → Bool} (hno : ∀ m ∈ fw.data.messages, m.hasId b = false) :
    (sortById (fw.data.messages.filter p)).find? (fun m => m.hasId b) = none := by
  rw [List.find?_eq_none]
  intro m hm
  have hm := ((List.perm_insertionSort _ _).mem_iff).mp hm
  rw [hno m (List.mem_filter.mp hm).1]
  exact Bool.false_ne_true

theorem read_unknown (hno : ∀ m ∈ fw.data.messages, m.hasId b = false) (state : σ) :
    fw.answer state (.dispatchRead b) = .nack b ∧ fw.after state (.dispatchRead b) = state := by
  have hfind : (fw.data.runtimeReadMessages.find? fun m => m.hasId b) = none := find_none fw hno
  simp only [Firmware.answer, Firmware.after, Firmware.perform, Firmware.dispatchRead, hfind]
  exact ⟨rfl, trivial⟩

theorem write_unknown (hno : ∀ m ∈ fw.data.messages, m.hasId b = false) (state : σ)
    (payload : List UInt8) : fw.answer state (.dispatchWrite b payload) = .nack b ∧
      fw.after state (.dispatchWrite b payload) = state := by
  have hfind : (fw.data.runtimeWriteMessages.find? fun m => m.hasId b) = none := find_none fw hno
  simp only [Firmware.answer, Firmware.after, Firmware.perform, Firmware.dispatchWrite, hfind]
  exact ⟨rfl, trivial⟩

end Unknown

/-! ## A later version of the station -/

section Station

/-- Readings are kept and forecast; `aligned` is the default. -/
def laterStation : SchemaDecl where
  defaultEncoding := some "aligned"
  enums := [("Sky", { variants := [.plain "CLEAR", .plain "CLOUDS", .plain "RAIN"] }),
    ("Mode", { variants := [.plain "OFF", .plain "HEAT", .plain "COOL"] })]
  structs :=
    [("Forecast", { encoding := some "packed", fields :=
      [{ name := "sky", type := "Sky" }, { name := "low", type := "Reading" },
        { name := "high", type := "Reading" }] }),
      ("Setting", { fields :=
        [{ name := "mode", type := "Mode" },
          { name := "target", type := "int16", scale := some (.int 10) },
          { name := "zone", type := "string", maxLength := some 4 }] }),
      ("Notification", { encoding := some "packed", fields :=
        [{ name := "reading", type := "Reading" }, { name := "alarm", type := "bool" }] }),
      ("Reading", { encoding := some "packed", fields :=
        [{ name := "temp", type := "int16", scale := some (.int 10), min := some (.int (-40)),
            max := some (.int 85) },
          { name := "humidity", type := "uint8", min := some (.int 0), max := some (.int 100) }] })]
  messages :=
    [("forecast", { txNode := some "host", commandId := some 7, response := some "Forecast" }),
      ("setting", { txNode := some "host", commandId := some 6, request := some "Setting" }),
      ("reading", { txNode := some "host", commandId := some 5, response := some "Reading" }),
      ("alarm", { txNode := some "sensor", response := some "Notification" })]

def laterData : Data := Codec.processed laterStation

/-- What the two versions of the station have in common. -/
def stationNames : List String :=
  ["Mode", "Reading", "Setting", "Notification", "int16", "uint8", "string", "bool"]

theorem station_versions :
    Versions id {n | n ∈ stationNames} station laterStation stationData laterData where
  agree := ⟨show ∀ n ∈ stationNames, _ by decide +kernel,
    show ∀ n ∈ stationNames, ∀ t ∈ (station.declares n).types, t ∈ stationNames by decide +kernel⟩
  processed := station_ok
  valid := station_valid
  processed' := rfl
  valid' := by decide +kernel
  aligned := show ∀ n ∈ stationNames, ∀ t ∈ stationData.types.lookup n, t.isPacked = false →
    TypeDef.StringsSized t ∧ t.total < 4294967296 by decide +kernel

end Station

/-! ## Calls -/

section Calls

variable (rfl') {config : ClientConfig} {lastInstant : Nat} {now : UInt32} {app : σ}
  {events : List (LoopEvent σ)} {s : Loop cfg σ} {i : Nat} {t : Ticket} {f : ParsedFrame}
  {m : Message} {b : UInt8}

/-- A request that was ended, with its frame. -/
theorem ended_at {l : List (List UInt8 × ParsedFrame)} {frame : List UInt8}
    (h : (ended (ledger s.actions)).map (fun e => (e.1.1.frame, e.2)) = l)
    (hl : l[i]? = some (frame, f)) :
    ∃ t, (ended (ledger s.actions))[i]? = some (t, f) ∧ t.1.frame = frame := by
  rw [← h, List.getElem?_map, Option.map_eq_some_iff] at hl
  obtain ⟨⟨t, f'⟩, hi, heq⟩ := hl
  obtain ⟨hframe, rfl⟩ := Prod.mk.inj heq
  exact ⟨t, hi, hframe⟩

/-- **A read across versions.** A host of one version reads a message with a response from a device
of another. If the device's version has the message, its handler has been called, once and in its
turn; if it refused, the caller gets NACK, and if it gave the C form of a value, the caller gets
DATA that the host's `Inbound::decode_data` takes for this value of this message. If no message of
the device has this id, the caller gets NACK, and the application's state stays as it was. -/
theorem versions_read (h : Versions rnd S device host data data') (hmax : cfg.maxPayload ≤ 65535)
    (hrun : Machine.run
      (Loop.step (generated cfl data handlers)
        (setup (generated cfl data handlers) config lastInstant))
      (Loop.start config now app) events = some s)
    (hpolite : Polite (generated cfl data handlers) s) (hsmooth : ∀ a ∈ s.actions, smooth a = true)
    (hi : (ended (ledger s.actions))[i]? = some (t, f))
    (hm : m ∈ data'.messages) (hb : m.hasId b = true) (hkind : m.commandFrame = some .read)
    (hresponse : m.decl.response = some name) (hn : name ∈ S)
    (hsmall : wireSizeOf data name < 65536)
    (hframe : t.1.frame = buildReadFrame b) :
    ∃ state, s.served[i]? = some (state, .dispatchRead b) ∧
      (m ∈ data.messages →
        ((handlers.onRead m.name state).2.1 = false → f = .nack b) ∧
        ((handlers.onRead m.name state).2.1 = true → ∀ v bytes,
          Carried cfl rfl' data'.types name v (handlers.onRead m.name state).2.2 bytes →
          f = .data b bytes ∧
            decodeData rfl' fromUtf8Lossy data' b bytes = some (.data m.name v))) ∧
      ((∀ m ∈ data.messages, m.hasId b = false) →
        f = .nack b ∧ (generated cfl data handlers).after state (.dispatchRead b) = state) := by
  have hclosed := run_closed hmax hrun
  obtain ⟨state, hserved, hf⟩ := hclosed.ended_served hmax hpolite hsmooth hi
  rw [hframe, show actionOf (buildReadFrame b) = .dispatchRead b from actionOf_frame (.read b)]
    at hserved hf
  refine ⟨state, hserved, fun hm₀ => ?_, fun hno => ?_⟩
  · obtain ⟨state', hserved', hno, hok⟩ := hclosed.read_ended rfl' h.processed h.valid hmax hpolite
      hsmooth hi hm₀ hb hkind hresponse hsmall hframe
    cases hserved.symm.trans hserved'
    exact ⟨hno, fun hyes v bytes hcarried => ⟨hok hyes v bytes ((h.carried_iff hn).mp hcarried),
      decodeData_carried h.valid' hm hb hresponse hcarried⟩⟩
  · obtain ⟨hnack, hstay⟩ := read_unknown (generated cfl data handlers) hno state
    exact ⟨hf.trans hnack, hstay⟩

/-- The later host reads the station. -/
theorem versions_read_station :
    ∃ s, settled = some s ∧
      ∃ t state, (ended (ledger s.actions))[1]? = some (t, .data 5 [24, 65, 1]) ∧
      s.served[1]? = some (state, .dispatchRead 5) ∧
      decodeData Rust.noFloats fromUtf8Lossy laterData 5 [24, 65, 1]
        = some (.data "reading" cold) := by
  obtain ⟨s, hs, -, hsmooth, hserved, hended, -⟩ := settled_eq
  obtain ⟨t, hi, hframe⟩ := ended_at (i := 1) hended rfl
  obtain ⟨state, hat, hknown, -⟩ := versions_read Rust.noFloats station_versions (by decide) hs
    (settled_polite hserved) (List.all_eq_true.mp hsmooth) hi (m := processMessage "reading" _)
    (List.mem_cons_of_mem _ (List.mem_cons_of_mem _ (List.mem_cons_self ..))) rfl rfl rfl
    (show "Reading" ∈ stationNames by decide) (by decide +kernel) hframe
  have hcarried :
      Carried C.noFloats Rust.noFloats laterData.types "Reading" cold cold [24, 65, 1] :=
    (station_versions.carried_iff (show "Reading" ∈ stationNames by decide)).mpr cold_carried
  exact ⟨s, hs, t, state, hi, hat,
    ((hknown (List.mem_cons_self ..)).2 rfl cold _ hcarried).2⟩

end Calls

end ProtoEmb.System
