import ProtoEmb.Codec.TypeScriptRoundTrip
import ProtoEmb.System.Browser
import ProtoEmb.System.Typed

/-!
# A page and a device that share a schema

The page has `encode*`, `decode*` and `decodeData` of `protocol.ts.j2` and the client that is
compiled to WASM; the device has the C code of the same schema. Whenever the page feeds, polls
and takes, its typed values reach the handlers of the device as their C forms, and what the
handlers answer comes back as the page's own form of it (`page_reads`, `page_writes`).
-/

namespace ProtoEmb.System

open ProtoEmb.Client ProtoEmb.Codec ProtoEmb.Device ProtoEmb.Framing ProtoEmb.Lib ProtoEmb.Schema

/-- The loop that a browser shows has run. -/
theorem browser_closed {cfg : RuntimeConfig} {σ : Type} {fw : Firmware cfg σ}
    {responseTimeoutMs : UInt32} {lastInstant : Nat} {now : UInt32} {app : σ}
    {page : List (BrowserEvent σ)} {b : Browser cfg σ} (hmax : cfg.maxPayload ≤ 65535)
    (hrun : Machine.run
      (Browser.step fw (setup fw ⟨millis responseTimeoutMs⟩ lastInstant))
      (Browser.start responseTimeoutMs now app) page = some b) :
    Closed fw ⟨millis responseTimeoutMs⟩ lastInstant b.loop := by
  obtain ⟨events, hevents⟩ := browser_loops hrun
  exact run_closed hmax hevents

/-! ## A page at the station -/

section Station

/-- The page writes a setting and reads, each in two parts. -/
def settlingPage : List (BrowserEvent Value) :=
  [.call (.write 6 [1, 210, 0, 98, 195, 164, 0]), .call (.read 5 true none), .poll 0 0 0, .take] ++
  List.replicate 13 (.device (.deliver 1)) ++
  [.feed 2, .poll 1 1 1, .feed 1, .poll 2 2 2, .take] ++ List.replicate 3 (.device (.deliver 3)) ++
  [.feed 5, .feed 100, .poll 4 4 4]

def settledPage : Option (Browser ⟨64, 100⟩ Value) :=
  Machine.run (Browser.step stationDevice (setup stationDevice ⟨millis 1000⟩ 10000))
    (Browser.start 1000 0 (.struct [])) settlingPage

theorem settledPage_eq : ∃ b, settledPage = some b ∧ b.actions.all smooth = true ∧
    b.served.map Prod.snd = [.dispatchWrite 6 [1, 210, 0, 98, 195, 164, 0], .dispatchRead 5] ∧
    (ended (ledger b.actions)).map (fun e => (e.1.1.frame, e.2))
      = [(buildWriteFrame 6 [1, 210, 0, 98, 195, 164, 0], .ack 6),
        (buildReadFrame 5, .data 5 [24, 65, 1])] := by
  have heq : settledPage.map (fun b => ((b.actions.all smooth, b.served.map Prod.snd),
      (ended (ledger b.actions)).map (fun e => (e.1.1.frame, e.2))))
      = some ((true, [.dispatchWrite 6 [1, 210, 0, 98, 195, 164, 0], .dispatchRead 5]),
        [(buildWriteFrame 6 [1, 210, 0, 98, 195, 164, 0], .ack 6),
          (buildReadFrame 5, .data 5 [24, 65, 1])]) := by
    decide +kernel
  obtain ⟨b, hb, h⟩ := Option.map_eq_some_iff.mp heq
  simp only [Prod.mk.injEq] at h
  obtain ⟨⟨hsmooth, hserved⟩, hended⟩ := h
  exact ⟨b, hb, hsmooth, hserved, hended⟩

/-- The page has the numbers as doubles. -/
theorem cold_shown :
    Shown id stationData.types "Reading" cold (.struct [.num (-12), .num 40]) [24, 65, 1] := by
  obtain ⟨ctx, hacc⟩ := accepted station_ok station_valid
  obtain ⟨x, h⟩ := @packed_shown id id ctx stationData.types "Reading" _ cold _
    TypeScript.roundsDouble_id hacc.types hacc.enums rfl rfl (by decide +kernel) rfl
    (by decide +kernel) (by decide +kernel)
  cases h.value.symm.trans (rfl : toTs stationData.types "Reading" cold = some _)
  exact h

/-- The string is as long as it is. -/
theorem heating_shown :
    Shown id stationData.types "Setting" heating (.struct [.enum 1, .num 21, .str [98, 195, 164]])
      [1, 210, 0, 98, 195, 164, 0] := by
  obtain ⟨ctx, hacc⟩ := accepted station_ok station_valid
  obtain ⟨x, h⟩ := @aligned_shown id id ctx stationData.types "Setting" _ heating _
    TypeScript.roundsDouble_id hacc.types hacc.enums rfl rfl rfl (by decide +kernel)
    (by decide +kernel)
  cases h.value.symm.trans (rfl : toTs stationData.types "Setting" heating = some _)
  exact h

end Station

/-! ## Calls -/

variable {cfg : RuntimeConfig} {σ : Type} {rnd js : Rat → Rat} {cfl : C.FloatExprs}
  (rfl' : Rust.FloatExprs) {schema : SchemaDecl} {data : Data} {handlers : Handlers cfg σ}
  {name : String} {v c x : Value} {bytes : List UInt8} {responseTimeoutMs : UInt32}
  {lastInstant : Nat} {now : UInt32} {app : σ} {page : List (BrowserEvent σ)} {b : Browser cfg σ}
  {i : Nat} {t : Ticket} {f : ParsedFrame} {m : Message} {command : UInt8}

/-- **A read from a page.** When a READ of a message with a response is ended, its handler has
been called, once and in its turn. If it refused, the page gets NACK. If it gave the C form of a
value, the page gets DATA of which `decodeData` makes the page's form of this value. -/
theorem page_reads (hproc : processSchema rnd schema = .ok data)
    (hval : validateSchema rnd data = []) (hmax : cfg.maxPayload ≤ 65535)
    (hrun : Machine.run
      (Browser.step (generated cfl data handlers)
        (setup (generated cfl data handlers) ⟨millis responseTimeoutMs⟩ lastInstant))
      (Browser.start responseTimeoutMs now app) page = some b)
    (hpolite : Polite (generated cfl data handlers) b.loop)
    (hsmooth : ∀ a ∈ b.actions, smooth a = true)
    (hi : (ended (ledger b.actions))[i]? = some (t, f))
    (hm : m ∈ data.messages) (hid : m.hasId command = true)
    (hkind : m.commandFrame = some .read) (hresponse : m.decl.response = some name)
    (hsmall : wireSizeOf data name < 65536) (hframe : t.1.frame = buildReadFrame command) :
    ∃ state, b.served[i]? = some (state, .dispatchRead command) ∧
      ((handlers.onRead m.name state).2.1 = false → f = .nack command) ∧
      ((handlers.onRead m.name state).2.1 = true → ∀ v x bytes,
        Carried cfl rfl' data.types name v (handlers.onRead m.name state).2.2 bytes →
        Shown js data.types name v x bytes →
        f = .data command bytes ∧
          TypeScript.decodeData js data command bytes = some (.data m.name x)) := by
  obtain ⟨state, hserved, hno, hok⟩ := (browser_closed hmax hrun).read_ended rfl' hproc hval hmax
    hpolite hsmooth hi hm hid hkind hresponse hsmall hframe
  exact ⟨state, hserved, hno, fun h v x bytes hcarried hshown =>
    ⟨hok h v bytes hcarried, TypeScript.decodeData_shown hval hm hid hresponse hshown⟩⟩

theorem page_reads_station :
    ∃ b, settledPage = some b ∧
      ∃ t state, (ended (ledger b.actions))[1]? = some (t, .data 5 [24, 65, 1]) ∧
      b.served[1]? = some (state, .dispatchRead 5) ∧
      TypeScript.decodeData id stationData 5 [24, 65, 1]
        = some (.data "reading" (.struct [.num (-12), .num 40])) := by
  obtain ⟨b, hb, hsmooth, hserved, hended⟩ := settledPage_eq
  have hat : ((ended (ledger b.actions)).map fun e => (e.1.1.frame, e.2))[1]?
      = some (buildReadFrame 5, .data 5 [24, 65, 1]) := by
    rw [hended]
    rfl
  rw [List.getElem?_map, Option.map_eq_some_iff] at hat
  obtain ⟨⟨t, f⟩, hi, heq⟩ := hat
  obtain ⟨hframe, rfl⟩ := Prod.mk.inj heq
  obtain ⟨state, hat, -, h⟩ := page_reads Rust.noFloats station_ok station_valid (by decide) hb
    (settled_polite hserved) (List.all_eq_true.mp hsmooth) hi (m := processMessage "reading" _)
    (List.mem_cons_self ..) rfl rfl rfl (by decide +kernel) hframe
  exact ⟨b, hb, t, state, hi, hat, (h rfl cold _ _ cold_carried cold_shown).2⟩

/-- **A write from a page.** When a WRITE with the page's encoding of a value is ended, the
handler of its message has been called with the C form of the value, once and in its turn. A
command returns what the handler decided, a query the payload that the handler filled in, of
which `decodeData` makes the page's form of the value that it encodes. -/
theorem page_writes (hproc : processSchema rnd schema = .ok data)
    (hval : validateSchema rnd data = []) (hmax : cfg.maxPayload ≤ 65535)
    (hrun : Machine.run
      (Browser.step (generated cfl data handlers)
        (setup (generated cfl data handlers) ⟨millis responseTimeoutMs⟩ lastInstant))
      (Browser.start responseTimeoutMs now app) page = some b)
    (hpolite : Polite (generated cfl data handlers) b.loop)
    (hsmooth : ∀ a ∈ b.actions, smooth a = true)
    (hi : (ended (ledger b.actions))[i]? = some (t, f))
    (hm : m ∈ data.messages) (hid : m.hasId command = true)
    (hkind : m.commandFrame = some .write) (hrequest : m.requestName = some name)
    (hcarried : Carried cfl rfl' data.types name v c bytes)
    (hshown : Shown js data.types name v x bytes) {written : List UInt8}
    (hwritten : TypeScript.encodeOf js data.types name x = some written)
    (hframe : t.1.frame = buildWriteFrame command written) :
    ∃ state, b.served[i]? = some (state, .dispatchWrite command written) ∧
      (m.semantic ≠ .query → f = if (handlers.onWrite m.name (.request c) state).2 = .ack
        then .ack command else .nack command) ∧
      (m.semantic = .query →
        let reply := (handlers.onQuery m.name (.request c) state).2
        (reply.1 ≠ .data → f = .nack command) ∧
        (reply.1 = .data → f = .data command (Firmware.outputBytes reply.2) ∧
          ∀ response v' x', m.decl.response = some response →
            Shown js data.types response v' x' (Firmware.outputBytes reply.2) →
            TypeScript.decodeData js data command (Firmware.outputBytes reply.2)
              = some (.data m.name x'))) := by
  cases hshown.encode.symm.trans hwritten
  obtain ⟨state, hserved, hcommand, hquery⟩ := (browser_closed hmax hrun).write_ended rfl' hproc
    hval hmax hpolite hsmooth hi hm hid hkind hrequest hcarried hframe
  exact ⟨state, hserved, hcommand, fun h => ⟨(hquery h).1, fun hdata =>
    ⟨(hquery h).2 hdata, fun response v' x' hresponse hs =>
      TypeScript.decodeData_shown hval hm hid hresponse hs⟩⟩⟩

theorem page_writes_station :
    ∃ b, settledPage = some b ∧ ∃ t state, (ended (ledger b.actions))[0]? = some (t, .ack 6) ∧
      b.served[0]? = some (state, .dispatchWrite 6 [1, 210, 0, 98, 195, 164, 0]) ∧
      ParsedFrame.ack 6 = if (stationHandlers.onWrite "setting" (.request heatingC) state).2 = .ack
        then .ack 6 else .nack 6 := by
  obtain ⟨b, hb, hsmooth, hserved, hended⟩ := settledPage_eq
  have hat : ((ended (ledger b.actions)).map fun e => (e.1.1.frame, e.2))[0]?
      = some (buildWriteFrame 6 [1, 210, 0, 98, 195, 164, 0], .ack 6) := by
    rw [hended]
    rfl
  rw [List.getElem?_map, Option.map_eq_some_iff] at hat
  obtain ⟨⟨t, f⟩, hi, heq⟩ := hat
  obtain ⟨hframe, rfl⟩ := Prod.mk.inj heq
  obtain ⟨state, hat, hcommand, -⟩ := page_writes Rust.noFloats station_ok station_valid
    (by decide) hb (settled_polite hserved) (List.all_eq_true.mp hsmooth) hi
    (m := processMessage "setting" _) (List.mem_cons_of_mem _ (List.mem_cons_self ..)) rfl rfl rfl
    heating_carried heating_shown heating_shown.encode hframe
  exact ⟨b, hb, t, state, hi, hat, hcommand (by decide)⟩

end ProtoEmb.System
