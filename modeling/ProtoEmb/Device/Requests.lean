import ProtoEmb.Device.Receive

/-!
# Host → device framing is lossless

The host's `build_read_frame` and `build_write_frame` (`framing/src/lib.rs`) against the device's
`feedByte` (`protocol_runtime.c.j2`): a list of requests, with idle bytes around the frames and
ticks in time, is dispatched one by one, and nothing else happens.
-/

namespace ProtoEmb.Device

open ProtoEmb.Lib ProtoEmb.Framing

/-- A request of the host. -/
inductive Request where
  | read (command : UInt8)
  | write (command : UInt8) (data : List UInt8)
  deriving DecidableEq, Repr

namespace Request

/-- The frame the host builds for a request. -/
def frame : Request → List UInt8
  | read c => buildReadFrame c
  | write c data => buildWriteFrame c data

/-- The dispatch a request asks for. -/
def action : Request → Action
  | read c => .dispatchRead c
  | write c data => .dispatchWrite c data

/-- The payload a request carries. -/
def payload : Request → List UInt8
  | read _ => []
  | write _ data => data

end Request

namespace Runtime

variable {cfg : RuntimeConfig}

/-- A WRITE frame whose payload fits the buffer is dispatched as it was built. -/
theorem feedBytes_buildWriteFrame {rt : Runtime cfg} (hs : rt.state = .sync) (c : UInt8)
    {data : List UInt8} (hcap : data.length ≤ cfg.maxPayload) (h16 : data.length < 65536) :
    ∃ rt', rt.feedBytes (buildWriteFrame c data) = (rt', [.dispatchWrite c data]) ∧
      rt'.state = .sync := by
  obtain ⟨rt₁, hfeed₁, hst₁, hc₁⟩ := feedBytes_writeHeader hs c
  have hlen : (u16OfLe (loByte (lenU16 data)) (hiByte (lenU16 data))).toNat = data.length := by
    rw [u16OfLe_lenU16, lenU16_toNat, Nat.mod_eq_of_lt h16]
  obtain ⟨rt₂, hfeed₂, hst₂⟩ := feedBytes_body hst₁ (crc8 data) hlen hcap
  refine ⟨rt₂, ?_, hst₂⟩
  rw [show buildWriteFrame c data = [syncByte, 0x01, c]
      ++ (loByte (lenU16 data) :: hiByte (lenU16 data) :: (data ++ [crc8 data])) from rfl,
    feedBytes_append, hfeed₁, hfeed₂, if_pos rfl, hc₁]
  rfl

/-- One request, from SYNC to SYNC. -/
theorem feedBytes_request {rt : Runtime cfg} (hs : rt.state = .sync)
    (hmax : cfg.maxPayload ≤ 65535) {r : Request} (hcap : r.payload.length ≤ cfg.maxPayload) :
    ∃ rt', rt.feedBytes r.frame = (rt', [r.action]) ∧ rt'.state = .sync := by
  cases r with
  | read c => exact feedBytes_read hs c
  | write c data =>
    have hle : data.length ≤ cfg.maxPayload := hcap
    exact feedBytes_buildWriteFrame hs c hle (by omega)

/-- Any number of requests, each followed by idle bytes. -/
theorem feedBytes_requests (hmax : cfg.maxPayload ≤ 65535) :
    ∀ (requests : List (Request × List UInt8)) {rt : Runtime cfg}, rt.state = .sync →
      (∀ rg ∈ requests, rg.1.payload.length ≤ cfg.maxPayload) →
      (∀ rg ∈ requests, syncByte ∉ rg.2) →
      ∃ rt', rt.feedBytes (requests.flatMap fun rg => rg.1.frame ++ rg.2)
        = (rt', requests.map fun rg => rg.1.action) ∧ rt'.state = .sync := by
  intro requests
  induction requests with
  | nil => intro rt hs _ _; exact ⟨rt, rfl, hs⟩
  | cons rg requests ih =>
    intro rt hs hcap hgaps
    have hmem := List.mem_cons_self (a := rg) (l := requests)
    obtain ⟨rt₁, hfeed, hs₁⟩ := feedBytes_request hs hmax (hcap rg hmem)
    have hidle := feedBytes_idle hs₁ (hgaps rg hmem)
    obtain ⟨rt₂, hrest, hs₂⟩ := ih hs₁ (fun x hx => hcap x (List.mem_cons_of_mem _ hx))
      (fun x hx => hgaps x (List.mem_cons_of_mem _ hx))
    refine ⟨rt₂, ?_, hs₂⟩
    simp only [List.flatMap_cons, List.append_assoc, feedBytes_append, hfeed, hidle, hrest]
    rfl

/-- **Host → device framing is lossless.** Feed the frames of any requests whose
payloads fit the receive buffer, with idle bytes before, between and after them,
to a runtime in SYNC, with any ticks that stay inside the frame timeout: the
runtime's actions are exactly the dispatches the requests ask for, in order (so no
NACK is among them), and it ends in SYNC. -/
theorem run_requests {rt : Runtime cfg} {requests : List (Request × List UInt8)}
    {gap : List UInt8} {inputs : List Input} (hs : rt.state = .sync)
    (hmax : cfg.maxPayload ≤ 65535)
    (hcap : ∀ rg ∈ requests, rg.1.payload.length ≤ cfg.maxPayload)
    (hgap : syncByte ∉ gap) (hgaps : ∀ rg ∈ requests, syncByte ∉ rg.2)
    (hbytes : inputs.filterMap Input.byte?
      = gap ++ requests.flatMap fun rg => rg.1.frame ++ rg.2)
    (htime : rt.InTime inputs) :
    (rt.run inputs).2 = (requests.map fun rg => rg.1.action) ∧
      (rt.run inputs).1.state = .sync := by
  obtain ⟨hact, hst⟩ := run_inTime htime
  obtain ⟨rt', hfeed, hs'⟩ := feedBytes_requests hmax requests hs hcap hgaps
  have hall : rt.feedBytes (inputs.filterMap Input.byte?)
      = (rt', requests.map fun rg => rg.1.action) := by
    rw [hbytes, feedBytes_append, feedBytes_idle hs hgap, hfeed]
    rfl
  rw [hact, hst, hall]
  exact ⟨rfl, hs'⟩

/-- The hypotheses are met by a READ and a WRITE carrying a sync byte, with a tick
inside each frame and the clock wrapping in between. -/
theorem run_requests_wrap :
    ((init ⟨4, 10⟩ 0).run
        [.byte 0xFFFFFFFE 0x55, .byte 0xFFFFFFFF 0x00, .tick 8, .byte 8 0x07, .byte 9 0xAA,
          .byte 9 0x55, .byte 9 0x01, .byte 10 0x08, .byte 11 0x02, .tick 12, .byte 12 0x00,
          .byte 12 0x55, .byte 12 0x09, .byte 12 0x14]).2
      = [.dispatchRead 0x07, .dispatchWrite 0x08 [0x55, 0x09]] :=
  (@run_requests _ _ [(.read 0x07, [0xAA]), (.write 0x08 [0x55, 0x09], [])] [] _ rfl (by decide)
    (by decide) (by decide) (by decide) (by decide +kernel) (by decide +kernel)).1

end Runtime

end ProtoEmb.Device
