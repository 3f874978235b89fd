import ProtoEmb.Framing.Frame

/-!
# The host frame parser

`FrameParser` of the framing crate: a byte-at-a-time state machine over
device → host frames, with an optional source address after the sync byte.

```text
NACK response:  [0x55] [0x00] [COMMAND]
ACK response:   [0x55] [0x01] [COMMAND]
DATA response:  [0x55] [0x02] [COMMAND] [LEN_LO] [LEN_HI] [DATA...] [CRC8]
NOTIFICATION:   [0x55] [0x03] [0x00]    [LEN_LO] [LEN_HI] [DATA...] [CRC8]
```

`feed` is translated branch by branch; the per-state equations below it
(`feed_sync_idle`, `feed_type`, …) are what every later proof rewrites with, so
a change to one branch of the source touches one equation here.
-/

namespace ProtoEmb.Framing

open ProtoEmb.Lib

/-- `ParseState`. -/
inductive ParseState where
  | sync
  | source
  | type
  | command
  | lengthLo
  | lengthHi
  | data
  | crc
  deriving DecidableEq, Repr

/-- `FrameParser`: the streaming parser's fields. -/
structure FrameParser where
  state : ParseState
  addressing : Bool
  source : UInt8
  frameType : UInt8
  command : UInt8
  dataLen : UInt16
  dataReceived : UInt16
  buf : List UInt8
  deriving DecidableEq, Repr

namespace FrameParser

/-- `FrameParser::new`. -/
def new : FrameParser :=
  { state := .sync, addressing := false, source := 0, frameType := 0, command := 0,
    dataLen := 0, dataReceived := 0, buf := [] }

/-- `FrameParser::with_addressing`. -/
def withAddressing : FrameParser := { new with addressing := true }

/-- `FrameParser::reset`: back to the initial state, keeping the addressing mode
(and the last source address). -/
def reset (p : FrameParser) : FrameParser :=
  { p with state := .sync, frameType := 0, command := 0, dataLen := 0, dataReceived := 0,
           buf := [] }

/-- `FrameParser::feed`: one byte in, at most one frame out. -/
def feed (p : FrameParser) (byte : UInt8) : FrameParser × Option ParsedFrame :=
  match p.state with
  | .sync =>
    if byte = syncByte then
      ({ p with state := if p.addressing then .source else .type }, none)
    else (p, none)
  | .source => ({ p with source := byte, state := .type }, none)
  | .type =>
    -- not a reply type: the byte is dropped, even if it is another sync byte
    if byte > 0x03 then ({ p with frameType := byte, state := .sync }, none)
    else ({ p with frameType := byte, state := .command }, none)
  | .command =>
    if p.frameType = 0x00 then
      ({ p with command := byte, state := .sync }, some (.nack byte))
    else if p.frameType = 0x01 then
      ({ p with command := byte, state := .sync }, some (.ack byte))
    else if p.frameType = 0x02 ∨ p.frameType = 0x03 then
      ({ p with command := byte, state := .lengthLo }, none)
    -- `Type` lets no other type through
    else ({ p with command := byte, state := .sync }, none)
  | .lengthLo => ({ p with dataLen := byte.toUInt16, state := .lengthHi }, none)
  | .lengthHi =>
    let len := p.dataLen ||| (byte.toUInt16 <<< 8)
    -- zero-length payload: straight to the CRC
    if len = 0 then
      ({ p with dataLen := len, buf := [], dataReceived := 0, state := .crc }, none)
    -- payload too large: rejected before its bytes are seen
    else if len.toNat > maxPayloadSize then ({ p with dataLen := len, state := .sync }, none)
    else ({ p with dataLen := len, buf := [], dataReceived := 0, state := .data }, none)
  | .data =>
    let received := p.dataReceived + 1
    ({ p with buf := p.buf ++ [byte], dataReceived := received,
              state := if received ≥ p.dataLen then .crc else .data }, none)
  | .crc =>
    -- CRC mismatch: the frame is discarded, its payload stays in the buffer
    if byte ≠ crc8 p.buf then ({ p with state := .sync }, none)
    else
      -- `std::mem::take` moves the payload out and leaves the buffer empty
      ({ p with state := .sync, buf := [] },
        if p.frameType = 0x02 then some (.data p.command p.buf)
        else if p.frameType = 0x03 then some (.notification p.buf)
        else none)

/-- `FrameParser::feed_bytes`: feed a slice, collecting the frames it completes. -/
def feedBytes (p : FrameParser) : List UInt8 → FrameParser × List ParsedFrame
  | [] => (p, [])
  | b :: rest =>
    let r := p.feed b
    let t := feedBytes r.1 rest
    (t.1, r.2.toList ++ t.2)

/-- Successive `feed_bytes` calls, collecting the frames of all of them. -/
def feedChunks (p : FrameParser) : List (List UInt8) → FrameParser × List ParsedFrame
  | [] => (p, [])
  | c :: cs =>
    let r := p.feedBytes c
    let t := feedChunks r.1 cs
    (t.1, r.2 ++ t.2)

/-! ## Feeding in pieces -/

/-- Feeding two pieces one after the other is feeding them joined. -/
theorem feedBytes_append (p : FrameParser) (a b : List UInt8) :
    p.feedBytes (a ++ b)
      = (((p.feedBytes a).1.feedBytes b).1, (p.feedBytes a).2 ++ ((p.feedBytes a).1.feedBytes b).2)
    := by
  induction a generalizing p with
  | nil => simp [feedBytes]
  | cons x a ih => simp [feedBytes, ih]

/-- Where a stream is cut into calls does not matter. -/
theorem feedChunks_eq (p : FrameParser) (cs : List (List UInt8)) :
    p.feedChunks cs = p.feedBytes cs.flatten := by
  induction cs generalizing p with
  | nil => simp [feedChunks, feedBytes]
  | cons c cs ih => simp [feedChunks, ih, feedBytes_append]

/-! ## One equation per branch -/

/-- Outside of a frame everything but the sync byte is skipped. -/
theorem feed_sync_idle {p : FrameParser} {b : UInt8} (hs : p.state = .sync) (hb : b ≠ syncByte) :
    p.feed b = (p, none) := by
  simp only [feed, hs, if_neg hb]

/-- The sync byte starts a frame, with a source byte to come if the parser is addressed. -/
theorem feed_sync_start {p : FrameParser} (hs : p.state = .sync) :
    p.feed syncByte = ({ p with state := if p.addressing then .source else .type }, none) := by
  simp only [feed, hs, if_true]

/-- The source byte is stored, whatever becomes of the frame. -/
theorem feed_source {p : FrameParser} {b : UInt8} (hs : p.state = .source) :
    p.feed b = ({ p with source := b, state := .type }, none) := by
  simp only [feed, hs]

/-- One of the four types is taken; any other byte ends the frame. -/
theorem feed_type {p : FrameParser} {b : UInt8} (hs : p.state = .type) :
    p.feed b
      = ({ p with frameType := b, state := if b > 0x03 then .sync else .command }, none) := by
  simp only [feed, hs]
  split <;> rfl

/-- A NACK is complete with its command. -/
theorem feed_command_nack {p : FrameParser} {b : UInt8} (hs : p.state = .command)
    (ht : p.frameType = 0x00) :
    p.feed b = ({ p with command := b, state := .sync }, some (.nack b)) := by
  simp only [feed, hs, ht, if_true]

/-- An ACK is complete with its command. -/
theorem feed_command_ack {p : FrameParser} {b : UInt8} (hs : p.state = .command)
    (ht : p.frameType = 0x01) :
    p.feed b = ({ p with command := b, state := .sync }, some (.ack b)) := by
  simp only [feed, hs, ht, if_true]
  rfl

/-- DATA and NOTIFICATION go on with a length. -/
theorem feed_command_payload {p : FrameParser} {b : UInt8} (hs : p.state = .command)
    (ht : p.frameType = 0x02 ∨ p.frameType = 0x03) :
    p.feed b = ({ p with command := b, state := .lengthLo }, none) := by
  have h0 : p.frameType ≠ 0x00 := by rcases ht with h | h <;> rw [h] <;> decide
  have h1 : p.frameType ≠ 0x01 := by rcases ht with h | h <;> rw [h] <;> decide
  simp only [feed, hs, if_neg h0, if_neg h1, if_pos ht]

theorem feed_lengthLo {p : FrameParser} {b : UInt8} (hs : p.state = .lengthLo) :
    p.feed b = ({ p with dataLen := b.toUInt16, state := .lengthHi }, none) := by
  simp only [feed, hs]

/-- A length of zero skips the payload. -/
theorem feed_lengthHi_zero {p : FrameParser} {lo hi : UInt8} (hs : p.state = .lengthHi)
    (hlo : p.dataLen = lo.toUInt16) (hz : u16OfLe lo hi = 0) :
    p.feed hi = ({ p with dataLen := 0, buf := [], dataReceived := 0, state := .crc }, none) := by
  have hz' : lo.toUInt16 ||| (hi.toUInt16 <<< 8) = 0 := hz
  simp only [feed, hs, hlo, hz', if_true]

/-- A length above the cap drops the frame where it stands. -/
theorem feed_lengthHi_big {p : FrameParser} {lo hi : UInt8} (hs : p.state = .lengthHi)
    (hlo : p.dataLen = lo.toUInt16) (hbig : maxPayloadSize < (u16OfLe lo hi).toNat) :
    p.feed hi = ({ p with dataLen := u16OfLe lo hi, state := .sync }, none) := by
  have hne : u16OfLe lo hi ≠ 0 := by
    intro h
    rw [h] at hbig
    exact absurd hbig (by decide)
  simp only [feed, hs, hlo]
  rw [if_neg (by exact hne), if_pos (by exact hbig)]
  rfl

/-- Any other length is taken as announced. -/
theorem feed_lengthHi_data {p : FrameParser} {lo hi : UInt8} (hs : p.state = .lengthHi)
    (hlo : p.dataLen = lo.toUInt16) (hne : u16OfLe lo hi ≠ 0)
    (hle : (u16OfLe lo hi).toNat ≤ maxPayloadSize) :
    p.feed hi = ({ p with dataLen := u16OfLe lo hi, buf := [], dataReceived := 0,
                          state := .data }, none) := by
  simp only [feed, hs, hlo]
  rw [if_neg (by exact hne), if_neg (by exact Nat.not_lt.mpr hle)]
  rfl

/-- A byte of the payload, and the CRC next if it was the last one. -/
theorem feed_data {p : FrameParser} {b : UInt8} (hs : p.state = .data) :
    p.feed b = ({ p with buf := p.buf ++ [b], dataReceived := p.dataReceived + 1,
                         state := if p.dataReceived + 1 ≥ p.dataLen then .crc else .data },
                none) := by
  simp only [feed, hs]

/-- A wrong CRC drops the frame. -/
theorem feed_crc_bad {p : FrameParser} {b : UInt8} (hs : p.state = .crc) (hb : b ≠ crc8 p.buf) :
    p.feed b = ({ p with state := .sync }, none) := by
  simp only [feed, hs, if_pos hb]

/-- The right CRC completes it. -/
theorem feed_crc_ok {p : FrameParser} (hs : p.state = .crc) :
    p.feed (crc8 p.buf)
      = ({ p with state := .sync, buf := [] },
          if p.frameType = 0x02 then some (.data p.command p.buf)
          else if p.frameType = 0x03 then some (.notification p.buf)
          else none) := by
  simp only [feed, hs, ne_eq, not_true_eq_false, if_false]

end FrameParser

end ProtoEmb.Framing
