import ProtoEmb.Codec.Crossing
import ProtoEmb.Codec.Facade
import ProtoEmb.System.Loop
import ProtoEmb.System.Operations

/-!
# Typed calls

The whole path of a typed call: the Rust application encodes a value of a struct and queues the
bytes as the payload of a request; the client frames them, the generated runtime takes them out
of the frame and hands the handler the C value that the generated decoder makes of them; the
handler's result is encoded by the generated C code, and the host gives the payload of the
reply to `Inbound::decode_data`.

In every run of the loop a value that crosses (`Carried`) arrives as what it is, at the handler
(`write_calls`), at the caller (`read_returns`) and as a notification (`notifications_arrive`).
-/

namespace ProtoEmb.System

open ProtoEmb.Lib ProtoEmb.Framing ProtoEmb.Schema ProtoEmb.Client ProtoEmb.Device ProtoEmb.Codec

/-! ## The generated device -/

/-- The C code generated for the structs, on buffers of their size. -/
def generatedCodec (fl : C.FloatExprs) (data : Data) : StructCodec data where
  encode name v :=
    ⟨(padTo (wireSizeOf data name)
        (((C.encode fl data.types name v).getD []).take (wireSizeOf data name))).toArray, by
      rw [List.size_toArray, padTo_length (List.length_take_le _ _)]⟩
  decode name bytes := (C.decode fl data.types name bytes).getD (.struct [])

/-- The device of a schema with these handlers. -/
def generated {cfg : RuntimeConfig} {σ : Type} (fl : C.FloatExprs) (data : Data)
    (handlers : Handlers cfg σ) : Firmware cfg σ :=
  ⟨data, generatedCodec fl data, handlers⟩

variable {cfg : RuntimeConfig} {σ : Type} {rnd : Rat → Rat} {cfl : C.FloatExprs}
  {rfl' : Rust.FloatExprs} {schema : SchemaDecl} {data : Data} {handlers : Handlers cfg σ}
  {name : String} {v c : Value} {bytes : List UInt8}

/-- What is sent of a value that crosses. -/
theorem structBytes_carried (h : Carried cfl rfl' data.types name v c bytes)
    (hsmall : wireSizeOf data name < 65536) :
    (generated cfl data handlers).structBytes name c = bytes := by
  have hsize : bytes.length = wireSizeOf data name := h.size
  show ((padTo _ (((C.encode cfl data.types name c).getD []).take _)).toArray.toList).take _ = _
  rw [h.c_encode, Option.getD_some, List.take_of_length_le (le_of_eq hsize),
    padTo_of_length hsize,
    Nat.mod_eq_of_lt (show wireSizeOf (generated cfl data handlers).data name < 65536 from hsmall)]
  exact List.take_of_length_le (le_of_eq hsize)

/-- The argument of the handler. -/
theorem argument_carried {m : Message} (hreq : m.requestName = some name)
    (h : Carried cfl rfl' data.types name v c bytes) :
    (generated cfl data handlers).argument m bytes = some (.request c) := by
  have hsize : bytes.length = wireSizeOf data name := h.size
  unfold Firmware.argument
  simp only [hreq]
  rw [if_pos (show bytes.length = wireSizeOf (generated cfl data handlers).data name from hsize)]
  show some (Argument.request ((C.decode cfl data.types name bytes).getD (.struct []))) = _
  rw [h.c_decode, Option.getD_some]

/-- The payload of DATA, decoded. -/
theorem decodeData_carried (hval : validateSchema rnd data = []) {m : Message}
    (hm : m ∈ data.messages) {b : UInt8} (hb : m.hasId b = true)
    (hresponse : m.decl.response = some name) (h : Carried cfl rfl' data.types name v c bytes) :
    decodeData rfl' fromUtf8Lossy data b bytes = some (.data m.name v) := by
  rw [decodeData_eq hval hm hresponse hb, h.rust_decode]
  rfl

/-- The payloads that the application sends are decoded as its values. -/
theorem decode_notified (handlers : Handlers cfg σ)
    (hsmall : wireSizeOf data "Notification" < 65536) :
    ∀ {sent vs : List Value}, List.Forall₂ (fun c v => ∃ bytes,
        Carried cfl rfl' data.types "Notification" v c bytes) sent vs →
      (sent.map ((generated cfl data handlers).structBytes "Notification")).map
          (Rust.decodeOf rfl' fromUtf8Lossy data.types "Notification")
        = vs.map fun v => some (some v) := by
  intro sent vs h
  induction h with
  | nil => rfl
  | cons hcv _ ih =>
    obtain ⟨bytes, hcarried⟩ := hcv
    simp only [List.map_cons, ih, structBytes_carried hcarried hsmall, hcarried.rust_decode]

/-! ## Answers -/

section Answers

variable (fw : Firmware cfg σ) {m : Message} {b : UInt8}

/-- A READ of a message's id is answered by that message's case. -/
theorem answer_read_case (hproc : processSchema rnd schema = .ok fw.data)
    (hval : validateSchema rnd fw.data = []) (hm : m ∈ fw.data.messages) (hb : m.hasId b = true)
    (hkind : m.commandFrame = some .read) (state : σ) :
    fw.answer state (.dispatchRead b) = fw.readAnswer m state b := by
  obtain ⟨hread, -, -⟩ := uniqueIds_of_accepted hval
  rcases mem_cases hproc hm hb with ⟨-, hmem⟩ | ⟨hw, -⟩
  · rw [Firmware.answer, hread.find_eq hmem hb]
    rfl
  · rw [hkind] at hw
    cases hw

/-- So is a WRITE. -/
theorem answer_write_case (hproc : processSchema rnd schema = .ok fw.data)
    (hval : validateSchema rnd fw.data = []) (hm : m ∈ fw.data.messages) (hb : m.hasId b = true)
    (hkind : m.commandFrame = some .write) (state : σ) (payload : List UInt8) :
    fw.answer state (.dispatchWrite b payload) = fw.writeAnswer m state b payload := by
  obtain ⟨-, hwrite, -⟩ := uniqueIds_of_accepted hval
  rcases mem_cases hproc hm hb with ⟨hr, -⟩ | ⟨-, hmem⟩
  · rw [hkind] at hr
    cases hr
  · rw [Firmware.answer, hwrite.find_eq hmem hb]
    rfl

end Answers

/-! ## A station -/

section Station

/-- A packed reading, an aligned setting and a notification. -/
def station : SchemaDecl where
  enums := [("Mode", { variants := [.plain "OFF", .plain "HEAT", .plain "COOL"] })]
  structs :=
    [("Reading", { encoding := some "packed", fields :=
      [{ name := "temp", type := "int16", scale := some (.int 10), min := some (.int (-40)),
          max := some (.int 85) },
        { name := "humidity", type := "uint8", min := some (.int 0), max := some (.int 100) }] }),
      ("Setting", { encoding := some "aligned", fields :=
        [{ name := "mode", type := "Mode" },
          { name := "target", type := "int16", scale := some (.int 10) },
          { name := "zone", type := "string", maxLength := some 4 }] }),
      ("Notification", { encoding := some "packed", fields :=
        [{ name := "reading", type := "Reading" }, { name := "alarm", type := "bool" }] })]
  messages :=
    [("reading", { txNode := some "host", commandId := some 5, response := some "Reading" }),
      ("setting", { txNode := some "host", commandId := some 6, request := some "Setting" }),
      ("alarm", { txNode := some "sensor", response := some "Notification" })]

def stationData : Data := Codec.processed station

/-- The setting is kept. -/
def stationHandlers : Handlers ⟨64, 100⟩ Value where
  onRead _ s := (s, true, .struct [.int (-12), .int 40])
  onReadRaw _ s := (s, false, ⟨Vector.replicate _ 0, 0⟩)
  onWrite _ arg s := match arg with
    | .request c => (c, .ack)
    | _ => (s, .nack)
  onQuery _ _ s := (s, .nack, ⟨Vector.replicate _ 0, 0⟩)

/-- The station with its handlers. -/
def stationDevice : Firmware ⟨64, 100⟩ Value := generated C.noFloats stationData stationHandlers

theorem station_ok : processSchema id station = .ok stationData := rfl

theorem station_valid : validateSchema id stationData = [] := by decide +kernel

/-- A value of the station with its bytes. -/
theorem station_carried {name : String} {t : TypeDef} {v c : Value} {cs : List Chunk}
    {bytes : List UInt8} (ht : stationData.types.lookup name = some t)
    (hsize : t.total < 4294967296) (hlay : layout stationData.types name v = some cs)
    (hparts : ∀ c ∈ cs, C.PartFits t.isPacked c) (hleaves : AllLeaves (Codec.Crosses t.isPacked) cs)
    (hc : toC stationData.types name v = some c)
    (hbytes : Rust.encodeOf Rust.noFloats stationData.types name v = some bytes) :
    Carried C.noFloats Rust.noFloats stationData.types name v c bytes := by
  obtain ⟨c', bytes', hc', h⟩ := @crosses id C.noFloats Rust.noFloats name t v cs station
    stationData station_ok station_valid (by decide +kernel) ht hsize hlay hparts hleaves
  cases hc.symm.trans hc'
  cases hbytes.symm.trans h.rust_encode
  exact h

/-- A reading below zero. -/
def cold : Value := .struct [.int (-12), .int 40]

/-- A setting with a letter of two bytes in the zone. -/
def heating : Value := .struct [.enum 1, .int 21, .str (utf8 ['b', 'ä'])]

/-- The string is padded to the length of the field. -/
def heatingC : Value := .struct [.enum 1, .int 21, .str [98, 195, 164, 0]]

/-- A notification that holds a reading. -/
def alarm : Value := .struct [.struct [.int (-12), .int 40], .bool true]

/-- The reading crosses; it is the same in C and Rust. -/
theorem cold_carried :
    Carried C.noFloats Rust.noFloats stationData.types "Reading" cold cold [24, 65, 1] :=
  station_carried rfl (by decide +kernel) rfl (by decide +kernel) (by decide +kernel) rfl
    (by decide +kernel)

/-- The setting crosses; in C the zone fills its array. -/
theorem heating_carried :
    Carried C.noFloats Rust.noFloats stationData.types "Setting" heating heatingC
      [1, 210, 0, 98, 195, 164, 0] :=
  station_carried rfl (by decide +kernel) rfl (by decide +kernel) (by decide +kernel) rfl
    (by decide +kernel)

/-- The alarm crosses. -/
theorem alarm_carried :
    Carried C.noFloats Rust.noFloats stationData.types "Notification" alarm alarm [24, 65, 5] :=
  station_carried rfl (by decide +kernel) rfl (by decide +kernel) (by decide +kernel) rfl
    (by decide +kernel)

/-- A setting is written and the reading is read; an alarm comes in between. -/
def settling : List (LoopEvent Value) :=
  [.call (.write 6 [1, 210, 0, 98, 195, 164, 0]), .call (.read 5 .high none),
    .call (.poll ⟨[], 0, 0, 0, none⟩)] ++ List.replicate 13 (.deliver 1) ++
  [.call (.poll ⟨[.ok [0x55, 0x01, 0x06]], 2, 2, 2, none⟩), .deliver 3, .notify alarm, .deliver 3,
    .deliver 3, .call (.poll ⟨[.ok [0x55, 0x03, 0x00, 0x03, 0x00, 0x18, 0x41, 0x05, 0x0F, 0x55,
      0x02, 0x05, 0x03, 0x00, 0x18, 0x41, 0x01, 0x6E]], 4, 4, 4, none⟩)]

/-- The loop of the station after these events. -/
def settled : Option (Loop ⟨64, 100⟩ Value) :=
  Machine.run (Loop.step stationDevice (setup stationDevice ⟨1000⟩ 10000))
    (Loop.start ⟨1000⟩ 0 (.struct [])) settling

/-- Equality with `alarm`, as a test that evaluates. -/
def isAlarm : Value → Bool
  | .struct [.struct [.int temp, .int humidity], .bool on] => temp = -12 && humidity = 40 && on
  | _ => false

theorem eq_alarm {v : Value} (h : isAlarm v = true) : v = alarm := by
  unfold isAlarm at h
  split at h
  · simp only [Bool.and_eq_true, decide_eq_true_eq] at h
    obtain ⟨⟨rfl, rfl⟩, rfl⟩ := h
    rfl
  · cases h

/-- What is there after the run: both requests answered and the alarm sent. -/
theorem settled_eq : ∃ s, settled = some s ∧ s.wire = [] ∧ s.actions.all smooth = true ∧
    s.served.map Prod.snd = [.dispatchWrite 6 [1, 210, 0, 98, 195, 164, 0], .dispatchRead 5] ∧
    (ended (ledger s.actions)).map (fun e => (e.1.1.frame, e.2))
      = [(buildWriteFrame 6 [1, 210, 0, 98, 195, 164, 0], .ack 6),
        (buildReadFrame 5, .data 5 [24, 65, 1])] ∧ s.notified = [alarm] := by
  have heq : settled.map (fun s => ((s.wire, s.actions.all smooth, s.served.map Prod.snd),
      (ended (ledger s.actions)).map (fun e => (e.1.1.frame, e.2)), s.notified.map isAlarm))
      = some (([], true, [.dispatchWrite 6 [1, 210, 0, 98, 195, 164, 0], .dispatchRead 5]),
        [(buildWriteFrame 6 [1, 210, 0, 98, 195, 164, 0], .ack 6),
          (buildReadFrame 5, .data 5 [24, 65, 1])], [true]) := by
    decide +kernel
  obtain ⟨s, hs, h⟩ := Option.map_eq_some_iff.mp heq
  simp only [Prod.mk.injEq] at h
  obtain ⟨⟨hwire, hsmooth, hserved⟩, hended, hnotified⟩ := h
  refine ⟨s, hs, hwire, hsmooth, hserved, hended, ?_⟩
  obtain ⟨v, hv, halarm⟩ := List.map_eq_singleton_iff.mp hnotified
  rw [hv, eq_alarm halarm]

/-- The handlers of the station never offer more than the caps. -/
theorem settled_polite {s : Loop ⟨64, 100⟩ Value}
    (hs : s.served.map Prod.snd
        = [.dispatchWrite 6 [1, 210, 0, 98, 195, 164, 0], .dispatchRead 5]) :
    Polite stationDevice s := by
  obtain ⟨⟨first, _⟩, served, hserved, rfl, hrest⟩ := List.map_eq_cons_iff.mp hs
  obtain ⟨⟨second, _⟩, hserved', rfl⟩ := List.map_eq_singleton_iff.mp hrest
  rw [Polite, hserved, hserved']
  simp only [List.forall_mem_cons, List.not_mem_nil, false_implies, implies_true, and_true]
  exact ⟨trivial, by decide +kernel, by decide +kernel⟩

end Station

/-! ## Calls -/

variable (rfl') {config : ClientConfig} {lastInstant : Nat} {now : UInt32} {app : σ}
  {events : List (LoopEvent σ)} {s : Loop cfg σ} {i : Nat} {t : Ticket} {f : ParsedFrame}
  {m : Message} {b : UInt8}

/-- What a READ of a message with a response gets. -/
theorem Closed.read_ended (h : Closed (generated cfl data handlers) config lastInstant s)
    (hproc : processSchema rnd schema = .ok data) (hval : validateSchema rnd data = [])
    (hmax : cfg.maxPayload ≤ 65535) (hpolite : Polite (generated cfl data handlers) s)
    (hsmooth : ∀ a ∈ s.actions, smooth a = true)
    (hi : (ended (ledger s.actions))[i]? = some (t, f))
    (hm : m ∈ data.messages) (hb : m.hasId b = true) (hkind : m.commandFrame = some .read)
    (hresponse : m.decl.response = some name) (hsmall : wireSizeOf data name < 65536)
    (hframe : t.1.frame = buildReadFrame b) :
    ∃ state, s.served[i]? = some (state, .dispatchRead b) ∧
      ((handlers.onRead m.name state).2.1 = false → f = .nack b) ∧
      ((handlers.onRead m.name state).2.1 = true → ∀ v bytes,
        Carried cfl rfl' data.types name v (handlers.onRead m.name state).2.2 bytes →
        f = .data b bytes) := by
  obtain ⟨state, hserved, hf⟩ := h.ended_served hmax hpolite hsmooth hi
  rw [hframe] at hserved hf
  have haction : actionOf (buildReadFrame b) = .dispatchRead b := actionOf_frame (.read b)
  rw [haction, answer_read_case (generated cfl data handlers) hproc hval hm hb hkind] at hf
  rw [haction] at hserved
  have hstruct : readStruct m = some name := by
    rw [readStruct, hresponse]
    rfl
  simp only [Firmware.readAnswer, hstruct] at hf
  refine ⟨state, hserved, fun hno => ?_, fun hok v bytes hcarried => ?_⟩
  · rw [hf, show (generated cfl data handlers).handlers = handlers from rfl, hno]
    rfl
  · rw [show (generated cfl data handlers).handlers = handlers from rfl, if_pos hok,
      structBytes_carried hcarried hsmall] at hf
    exact hf

/-- What a WRITE with the encoding of a value gets. -/
theorem Closed.write_ended (h : Closed (generated cfl data handlers) config lastInstant s)
    (hproc : processSchema rnd schema = .ok data) (hval : validateSchema rnd data = [])
    (hmax : cfg.maxPayload ≤ 65535) (hpolite : Polite (generated cfl data handlers) s)
    (hsmooth : ∀ a ∈ s.actions, smooth a = true)
    (hi : (ended (ledger s.actions))[i]? = some (t, f))
    (hm : m ∈ data.messages) (hb : m.hasId b = true) (hkind : m.commandFrame = some .write)
    (hrequest : m.requestName = some name) (hcarried : Carried cfl rfl' data.types name v c bytes)
    (hframe : t.1.frame = buildWriteFrame b bytes) :
    ∃ state, s.served[i]? = some (state, .dispatchWrite b bytes) ∧
      (m.semantic ≠ .query →
        f = if (handlers.onWrite m.name (.request c) state).2 = .ack then .ack b else .nack b) ∧
      (m.semantic = .query →
        let reply := (handlers.onQuery m.name (.request c) state).2
        (reply.1 ≠ .data → f = .nack b) ∧
        (reply.1 = .data → f = .data b (Firmware.outputBytes reply.2))) := by
  obtain ⟨state, hserved, hf⟩ := h.ended_served hmax hpolite hsmooth hi
  rw [hframe] at hserved hf
  have haction : actionOf (buildWriteFrame b bytes) = .dispatchWrite b bytes :=
    actionOf_frame (.write b bytes)
  rw [haction, answer_write_case (generated cfl data handlers) hproc hval hm hb hkind] at hf
  rw [haction] at hserved
  simp only [Firmware.writeAnswer, argument_carried hrequest hcarried] at hf
  refine ⟨state, hserved, fun hcommand => ?_, fun hquery => ⟨fun hno => ?_, fun hdata => ?_⟩⟩
  · rw [hf, if_neg hcommand]
    rfl
  · rw [hf, if_pos hquery]
    exact if_neg hno
  · rw [hf, if_pos hquery]
    exact if_pos hdata

/-- **A typed read.** When a READ of a message with a response is ended, its handler has been
called, once and in its turn. If it refused, the caller gets NACK. If it gave the C form of a
value, the caller gets DATA that `Inbound::decode_data` takes for this value of this message. -/
theorem read_returns (hproc : processSchema rnd schema = .ok data)
    (hval : validateSchema rnd data = []) (hmax : cfg.maxPayload ≤ 65535)
    (hrun : Machine.run
      (Loop.step (generated cfl data handlers)
        (setup (generated cfl data handlers) config lastInstant))
      (Loop.start config now app) events = some s)
    (hpolite : Polite (generated cfl data handlers) s) (hsmooth : ∀ a ∈ s.actions, smooth a = true)
    (hi : (ended (ledger s.actions))[i]? = some (t, f))
    (hm : m ∈ data.messages) (hb : m.hasId b = true) (hkind : m.commandFrame = some .read)
    (hresponse : m.decl.response = some name) (hsmall : wireSizeOf data name < 65536)
    (hframe : t.1.frame = buildReadFrame b) :
    ∃ state, s.served[i]? = some (state, .dispatchRead b) ∧
      ((handlers.onRead m.name state).2.1 = false → f = .nack b) ∧
      ((handlers.onRead m.name state).2.1 = true → ∀ v bytes,
        Carried cfl rfl' data.types name v (handlers.onRead m.name state).2.2 bytes →
        f = .data b bytes ∧
          decodeData rfl' fromUtf8Lossy data b bytes = some (.data m.name v)) := by
  obtain ⟨state, hserved, hno, hok⟩ := (run_closed hmax hrun).read_ended rfl' hproc hval hmax
    hpolite hsmooth hi hm hb hkind hresponse hsmall hframe
  exact ⟨state, hserved, hno, fun h v bytes hcarried =>
    ⟨hok h v bytes hcarried, decodeData_carried hval hm hb hresponse hcarried⟩⟩

/-- The reading arrives at the caller. -/
theorem read_returns_station :
    ∃ s, settled = some s ∧
      ∃ t state, (ended (ledger s.actions))[1]? = some (t, .data 5 [24, 65, 1]) ∧
      s.served[1]? = some (state, .dispatchRead 5) ∧
      decodeData Rust.noFloats fromUtf8Lossy stationData 5 [24, 65, 1]
        = some (.data "reading" cold) := by
  obtain ⟨s, hs, -, hsmooth, hserved, hended, -⟩ := settled_eq
  have hat : ((ended (ledger s.actions)).map fun e => (e.1.1.frame, e.2))[1]?
      = some (buildReadFrame 5, .data 5 [24, 65, 1]) := by
    rw [hended]
    rfl
  rw [List.getElem?_map, Option.map_eq_some_iff] at hat
  obtain ⟨⟨t, f⟩, hi, heq⟩ := hat
  obtain ⟨hframe, rfl⟩ := Prod.mk.inj heq
  obtain ⟨state, hat, -, h⟩ := read_returns Rust.noFloats station_ok
    station_valid (by decide) hs (settled_polite hserved) (List.all_eq_true.mp hsmooth) hi
    (m := processMessage "reading" _) (List.mem_cons_self ..) rfl rfl rfl (by decide +kernel) hframe
  exact ⟨s, hs, t, state, hi, hat, (h rfl cold _ cold_carried).2⟩

/-- **A typed write.** When a WRITE with the encoding of a value is ended, the handler of its
message has been called with the C form of the value, once and in its turn. A command returns
what the handler decided. For a query the caller gets the payload that the handler filled in;
if it is the encoding of a value, `Inbound::decode_data` returns that. -/
theorem write_calls (hproc : processSchema rnd schema = .ok data)
    (hval : validateSchema rnd data = []) (hmax : cfg.maxPayload ≤ 65535)
    (hrun : Machine.run
      (Loop.step (generated cfl data handlers)
        (setup (generated cfl data handlers) config lastInstant))
      (Loop.start config now app) events = some s)
    (hpolite : Polite (generated cfl data handlers) s) (hsmooth : ∀ a ∈ s.actions, smooth a = true)
    (hi : (ended (ledger s.actions))[i]? = some (t, f))
    (hm : m ∈ data.messages) (hb : m.hasId b = true) (hkind : m.commandFrame = some .write)
    (hrequest : m.requestName = some name) (hcarried : Carried cfl rfl' data.types name v c bytes)
    (hframe : t.1.frame = buildWriteFrame b bytes) :
    ∃ state, s.served[i]? = some (state, .dispatchWrite b bytes) ∧
      (m.semantic ≠ .query →
        f = if (handlers.onWrite m.name (.request c) state).2 = .ack then .ack b else .nack b) ∧
      (m.semantic = .query →
        let reply := (handlers.onQuery m.name (.request c) state).2
        (reply.1 ≠ .data → f = .nack b) ∧
        (reply.1 = .data → f = .data b (Firmware.outputBytes reply.2) ∧
          ∀ response v' c', m.decl.response = some response →
            Carried cfl rfl' data.types response v' c' (Firmware.outputBytes reply.2) →
            decodeData rfl' fromUtf8Lossy data b (Firmware.outputBytes reply.2)
              = some (.data m.name v'))) := by
  obtain ⟨state, hserved, hcommand, hquery⟩ := (run_closed hmax hrun).write_ended rfl' hproc hval
    hmax hpolite hsmooth hi hm hb hkind hrequest hcarried hframe
  exact ⟨state, hserved, hcommand, fun h => ⟨(hquery h).1, fun hdata =>
    ⟨(hquery h).2 hdata, fun response v' c' hresponse hc =>
      decodeData_carried hval hm hb hresponse hc⟩⟩⟩

/-- The setting arrives at the handler. -/
theorem write_calls_station :
    ∃ s, settled = some s ∧ ∃ t state, (ended (ledger s.actions))[0]? = some (t, .ack 6) ∧
      s.served[0]? = some (state, .dispatchWrite 6 [1, 210, 0, 98, 195, 164, 0]) ∧
      ParsedFrame.ack 6 = if (stationHandlers.onWrite "setting" (.request heatingC) state).2 = .ack
        then .ack 6 else .nack 6 := by
  obtain ⟨s, hs, -, hsmooth, hserved, hended, -⟩ := settled_eq
  have hat : ((ended (ledger s.actions)).map fun e => (e.1.1.frame, e.2))[0]?
      = some (buildWriteFrame 6 [1, 210, 0, 98, 195, 164, 0], .ack 6) := by
    rw [hended]
    rfl
  rw [List.getElem?_map, Option.map_eq_some_iff] at hat
  obtain ⟨⟨t, f⟩, hi, heq⟩ := hat
  obtain ⟨hframe, rfl⟩ := Prod.mk.inj heq
  obtain ⟨state, hat, hcommand, -⟩ := write_calls Rust.noFloats station_ok
    station_valid (by decide) hs (settled_polite hserved) (List.all_eq_true.mp hsmooth) hi
    (m := processMessage "setting" _) (List.mem_cons_of_mem _ (List.mem_cons_self ..)) rfl rfl rfl
    heating_carried hframe
  exact ⟨s, hs, t, state, hi, hat, hcommand (by decide)⟩

/-- **Notifications arrive in order**, each once, whatever else goes on: if the application has
sent the C forms of some values, then what the payloads that the client has handled are decoded
as are the first of these values, and all of them when nothing is under way. -/
theorem notifications_arrive (hmax : cfg.maxPayload ≤ 65535)
    (hrun : Machine.run
      (Loop.step (generated cfl data handlers)
        (setup (generated cfl data handlers) config lastInstant))
      (Loop.start config now app) events = some s)
    (hpolite : Polite (generated cfl data handlers) s)
    (hsmall : wireSizeOf data "Notification" < 65536) {vs : List Value}
    (hsent : List.Forall₂ (fun c v => ∃ bytes,
      Carried cfl rfl' data.types "Notification" v c bytes) s.notified vs) :
    ((handled s.actions).filterMap notificationPayload).map
        (Rust.decodeOf rfl' fromUtf8Lossy data.types "Notification")
      <+: vs.map (fun v => some (some v)) ∧
    (s.wire = [] → ((handled s.actions).filterMap notificationPayload).map
        (Rust.decodeOf rfl' fromUtf8Lossy data.types "Notification")
      = vs.map fun v => some (some v)) := by
  obtain ⟨moves, link, hlink, hfollows⟩ := (run_closed hmax hrun).follows hpolite
  have hlinked := (run_together (together_start _) (run_link.trans hlink)).linked
  rw [← decode_notified handlers hsmall hsent, ← hfollows.notified,
    ← hfollows.actions, ← hfollows.wire]
  exact ⟨(hlinked.delivered.filterMap _).map _,
    fun hwire => by rw [hlinked.delivered_all hwire]; rfl⟩

/-- The alarm arrives. -/
theorem notifications_arrive_station :
    ∃ s, settled = some s ∧
      ((handled s.actions).filterMap notificationPayload).map
          (Rust.decodeOf Rust.noFloats fromUtf8Lossy stationData.types "Notification")
        = [some (some alarm)] := by
  obtain ⟨s, hs, hwire, -, hserved, -, hnotified⟩ := settled_eq
  have hsent : List.Forall₂ (fun c v => ∃ bytes,
      Carried C.noFloats Rust.noFloats stationData.types "Notification" v c bytes)
      s.notified [alarm] := by
    rw [hnotified]
    exact .cons ⟨_, alarm_carried⟩ .nil
  exact ⟨s, hs, (notifications_arrive Rust.noFloats (by decide) hs (settled_polite hserved)
    (by decide +kernel) hsent).2 hwire⟩

end ProtoEmb.System
