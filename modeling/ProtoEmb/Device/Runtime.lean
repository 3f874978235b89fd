import ProtoEmb.Framing.Frame

/-!
# The generated device runtime

`protocol_runtime.c.j2`: the checksum, the frame sender and the receive state
machine that every generated C runtime contains. `RUNTIME_MAX_PAYLOAD` and
`RUNTIME_TIMEOUT_MS` are schema settings, so they are parameters
(`RuntimeConfig`); the receive buffer is a `Vector` of exactly that many bytes,
the C array's own bound.

The state machine reports what it does to the outside as a list of `Action`s: the
two dispatch calls and the NACK it sends itself on a CRC mismatch. The handlers
behind the dispatchers run outside this model and, as the runtime requires, do
not re-enter `feedByte`. `getTimeMs()` is the `now` argument of each call.
-/

namespace ProtoEmb.Device

open ProtoEmb.Lib ProtoEmb.Framing

/-- The two `#define`s of the generated runtime header. -/
structure RuntimeConfig where
  maxPayload : Nat
  timeoutMs : UInt32
  deriving DecidableEq, Repr

/-- `Runtime_crc8`: an indexed loop over the first `len` bytes of `data`. -/
def runtimeCrc8 (data : List UInt8) (len : Nat) : UInt8 :=
  (List.range len).foldl (fun crc i => crcByte 0x8C crc (data.getD i 0)) 0

/-- The device's checksum is the host's. -/
theorem runtimeCrc8_eq {data : List UInt8} {len : Nat} (h : len ≤ data.length) :
    runtimeCrc8 data len = crc8 (data.take len) :=
  crc_indexed 0x8C data h

/-! ## Sending -/

/-- `Runtime_sendFrame`. `sendBytes k bytes` is the result of the `k`-th
`sendBytes` call this function makes; the second component lists the arguments of
the calls made, in order. A `none` payload is the NULL pointer. -/
def sendFrame (cfg : RuntimeConfig) (sendBytes : Nat → List UInt8 → Bool)
    (frameType command : UInt8) (payload : Option (List UInt8)) (payloadSize : UInt16) :
    Bool × List (List UInt8) :=
  if payloadSize > 0 ∧ payload = none then (false, [])
  else if payloadSize.toNat > cfg.maxPayload then (false, [])
  else if frameType = 0x00 ∨ frameType = 0x01 then
    let frame := [syncByte, frameType, command]
    (sendBytes 0 frame, [frame])
  else
    let hdr := [syncByte, frameType, command, (payloadSize &&& 0xFF).toUInt8,
      ((payloadSize >>> 8) &&& 0xFF).toUInt8]
    let bytes := (payload.getD []).take payloadSize.toNat
    let crc := runtimeCrc8 (payload.getD []) payloadSize.toNat
    if sendBytes 0 hdr then
      if payloadSize > 0 then
        if sendBytes 1 bytes then (sendBytes 2 [crc], [hdr, bytes, [crc]])
        else (false, [hdr, bytes])
      else (sendBytes 1 [crc], [hdr, [crc]])
    else (false, [hdr])

/-- The device's four replies through `sendFrame`: `sendNack`, `sendAck`,
`sendData` and `sendNotification` (which sends command byte 0). -/
def sendReply (cfg : RuntimeConfig) (sendBytes : Nat → List UInt8 → Bool) :
    ParsedFrame → Bool × List (List UInt8)
  | .nack c => sendFrame cfg sendBytes 0x00 c none 0
  | .ack c => sendFrame cfg sendBytes 0x01 c none 0
  | .data c payload => sendFrame cfg sendBytes 0x02 c (some payload) (lenU16 payload)
  | .notification payload => sendFrame cfg sendBytes 0x03 0 (some payload) (lenU16 payload)

/-- The bytes a reply puts on the wire when every `sendBytes` call succeeds. -/
def replyBytes (cfg : RuntimeConfig) (reply : ParsedFrame) : List UInt8 :=
  (sendReply cfg (fun _ _ => true) reply).2.flatten

/-! ## Receiving -/

/-- `RuntimeState_E`. -/
inductive RuntimeState where
  | sync
  | type
  | command
  | lengthLo
  | lengthHi
  | data
  | crc
  deriving DecidableEq, Repr

/-- `Runtime_t`. -/
structure Runtime (cfg : RuntimeConfig) where
  state : RuntimeState
  startMs : UInt32
  frameType : UInt8
  command : UInt8
  payloadLength : UInt16
  payloadIndex : UInt16
  payload : Vector UInt8 cfg.maxPayload
  deriving DecidableEq, Repr

/-- What the state machine does to the outside. -/
inductive Action where
  | dispatchRead (command : UInt8)
  | dispatchWrite (command : UInt8) (payload : List UInt8)
  | sendNack (command : UInt8)
  deriving DecidableEq, Repr

namespace Runtime

variable {cfg : RuntimeConfig}

/-- `Runtime_init`: zeroed, in state SYNC, stamped with the current time. -/
def init (cfg : RuntimeConfig) (now : UInt32) : Runtime cfg :=
  { state := .sync, startMs := now, frameType := 0, command := 0, payloadLength := 0,
    payloadIndex := 0, payload := Vector.replicate cfg.maxPayload 0 }

/-- `Runtime_reset`. -/
def reset (rt : Runtime cfg) : Runtime cfg :=
  { rt with state := .sync, payloadLength := 0, payloadIndex := 0 }

/-- The bytes `dispatchWrite` is handed: the first `payloadLength` of the buffer. -/
def received (rt : Runtime cfg) : List UInt8 := rt.payload.toList.take rt.payloadLength.toNat

/-- `Runtime_feedByte`. -/
def feedByte (rt : Runtime cfg) (now : UInt32) (byte : UInt8) : Runtime cfg × List Action :=
  match rt.state with
  | .sync =>
    if byte = syncByte then ({ rt with state := .type, startMs := now }, []) else (rt, [])
  | .type =>
    if byte = 0x00 ∨ byte = 0x01 then ({ rt with frameType := byte, state := .command }, [])
    else (reset { rt with frameType := byte }, [])
  | .command =>
    if rt.frameType = 0x00 then (reset { rt with command := byte }, [.dispatchRead byte])
    else ({ rt with command := byte, state := .lengthLo }, [])
  | .lengthLo => ({ rt with payloadLength := byte.toUInt16, state := .lengthHi }, [])
  | .lengthHi =>
    let len := rt.payloadLength ||| (byte.toUInt16 <<< 8)
    if len.toNat > cfg.maxPayload then
      (reset { rt with payloadLength := len, payloadIndex := 0 }, [])
    else if len = 0 then
      ({ rt with payloadLength := len, payloadIndex := 0, state := .crc }, [])
    else ({ rt with payloadLength := len, payloadIndex := 0, state := .data }, [])
  | .data =>
    if h : rt.payloadIndex.toNat < cfg.maxPayload then
      let index := rt.payloadIndex + 1
      ({ rt with payload := rt.payload.set rt.payloadIndex.toNat byte h, payloadIndex := index,
                 state := if index ≥ rt.payloadLength then .crc else .data }, [])
    else (reset rt, [])
  | .crc =>
    let crc := runtimeCrc8 rt.payload.toList rt.payloadLength.toNat
    if crc = byte then (reset rt, [.dispatchWrite rt.command rt.received])
    else (reset rt, [.sendNack rt.command])

/-- `Runtime_tick`: drop a frame that has been in progress for too long. The
subtraction is `uint32_t` and wraps with the clock. -/
def tick (rt : Runtime cfg) (now : UInt32) : Runtime cfg :=
  if rt.state = .sync then rt
  else if now - rt.startMs > cfg.timeoutMs then reset rt
  else rt

end Runtime

/-- The two calls an application makes, with the clock reading each of them
sees. -/
inductive Input where
  | byte (now : UInt32) (b : UInt8)
  | tick (now : UInt32)
  deriving DecidableEq, Repr

/-- The byte a call carries, if it is `feedByte`. -/
def Input.byte? : Input → Option UInt8
  | .byte _ b => some b
  | .tick _ => none

namespace Runtime

variable {cfg : RuntimeConfig}

/-- One call. -/
def step (rt : Runtime cfg) : Input → Runtime cfg × List Action
  | .byte now b => rt.feedByte now b
  | .tick now => (rt.tick now, [])

/-- A sequence of calls, collecting the actions. -/
def run (rt : Runtime cfg) : List Input → Runtime cfg × List Action
  | [] => (rt, [])
  | i :: rest =>
    let r := rt.step i
    let t := run r.1 rest
    (t.1, r.2 ++ t.2)

/-! ## One equation per branch -/

section Equations

variable {r : Runtime cfg} {t : UInt32} {b : UInt8}

theorem feedByte_sync_idle (hs : r.state = .sync) (hb : b ≠ syncByte) :
    r.feedByte t b = (r, []) := by
  simp only [feedByte, hs, if_neg hb]

theorem feedByte_sync_start (hs : r.state = .sync) :
    r.feedByte t syncByte = ({ r with state := .type, startMs := t }, []) := by
  simp only [feedByte, hs, if_true]

theorem feedByte_type_ok (hs : r.state = .type) (hb : b = 0x00 ∨ b = 0x01) :
    r.feedByte t b = ({ r with frameType := b, state := .command }, []) := by
  simp only [feedByte, hs, if_pos hb]

theorem feedByte_type_bad (hs : r.state = .type) (hb : ¬ (b = 0x00 ∨ b = 0x01)) :
    r.feedByte t b = (reset { r with frameType := b }, []) := by
  simp only [feedByte, hs, if_neg hb]

theorem feedByte_command_read (hs : r.state = .command) (ht : r.frameType = 0x00) :
    r.feedByte t b = (reset { r with command := b }, [.dispatchRead b]) := by
  simp only [feedByte, hs, if_pos ht]

theorem feedByte_command_write (hs : r.state = .command) (ht : r.frameType ≠ 0x00) :
    r.feedByte t b = ({ r with command := b, state := .lengthLo }, []) := by
  simp only [feedByte, hs, if_neg ht]

theorem feedByte_lengthLo (hs : r.state = .lengthLo) :
    r.feedByte t b = ({ r with payloadLength := b.toUInt16, state := .lengthHi }, []) := by
  simp only [feedByte, hs]

theorem feedByte_lengthHi_big {lo : UInt8} (hs : r.state = .lengthHi)
    (hlo : r.payloadLength = lo.toUInt16) (hbig : cfg.maxPayload < (u16OfLe lo b).toNat) :
    r.feedByte t b
      = (reset { r with payloadLength := u16OfLe lo b, payloadIndex := 0 }, []) := by
  simp only [feedByte, hs, hlo]
  rw [if_pos (by exact hbig)]
  rfl

theorem feedByte_lengthHi_zero {lo : UInt8} (hs : r.state = .lengthHi)
    (hlo : r.payloadLength = lo.toUInt16) (hz : u16OfLe lo b = 0) :
    r.feedByte t b = ({ r with payloadLength := 0, payloadIndex := 0, state := .crc }, []) := by
  have hz' : lo.toUInt16 ||| (b.toUInt16 <<< 8) = 0 := hz
  simp only [feedByte, hs, hlo, hz']
  rw [if_neg (by simp)]
  simp

theorem feedByte_lengthHi_data {lo : UInt8} (hs : r.state = .lengthHi)
    (hlo : r.payloadLength = lo.toUInt16) (hle : (u16OfLe lo b).toNat ≤ cfg.maxPayload)
    (hne : u16OfLe lo b ≠ 0) :
    r.feedByte t b
      = ({ r with payloadLength := u16OfLe lo b, payloadIndex := 0, state := .data }, []) := by
  simp only [feedByte, hs, hlo]
  rw [if_neg (by exact Nat.not_lt.mpr hle), if_neg (by exact hne)]
  rfl

theorem feedByte_data (hs : r.state = .data) (h : r.payloadIndex.toNat < cfg.maxPayload) :
    r.feedByte t b
      = ({ r with payload := r.payload.set r.payloadIndex.toNat b h,
                   payloadIndex := r.payloadIndex + 1,
                   state := if r.payloadIndex + 1 ≥ r.payloadLength then .crc else .data },
          []) := by
  simp only [feedByte, hs, dif_pos h]

theorem feedByte_crc (hs : r.state = .crc) (hlen : r.payloadLength.toNat ≤ cfg.maxPayload) :
    r.feedByte t b
      = (reset r, [if b = crc8 r.received then .dispatchWrite r.command r.received
                    else .sendNack r.command]) := by
  have hcrc : runtimeCrc8 r.payload.toList r.payloadLength.toNat = crc8 r.received :=
    runtimeCrc8_eq (by rw [Vector.length_toList]; exact hlen)
  simp only [feedByte, hs, hcrc]
  by_cases hb : b = crc8 r.received
  · rw [if_pos hb.symm, if_pos hb]
  · rw [if_neg (fun h => hb h.symm), if_neg hb]

end Equations

@[simp] theorem reset_state (rt : Runtime cfg) : (reset rt).state = .sync := rfl

end Runtime

end ProtoEmb.Device
