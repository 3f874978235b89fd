import ProtoEmb.Lib.Crc
import ProtoEmb.Lib.LittleEndian

/-!
# Frames: the host framing crate's constants, checksum and builders

`protoemb-framing` on the host: the sync byte, the payload cap, CRC-8/MAXIM and
the functions that build request frames.

```text
READ request:   [0x55] [0x00] [COMMAND]
WRITE request:  [0x55] [0x01] [COMMAND] [LEN_LO] [LEN_HI] [DATA...] [CRC8]
```

The builders take the length as `data.len() as u16`, so a payload of 65536 bytes
or more announces only its low 16 bits. That truncation is kept here (`lenU16`)
rather than hidden behind a bound: what the device does with such a frame is the
subject of `ProtoEmb.Device.Overlong`.
-/

namespace ProtoEmb.Framing

open ProtoEmb.Lib

/-- `SYNC_BYTE`: starts every frame. -/
def syncByte : UInt8 := 0x55

/-- `MAX_PAYLOAD_SIZE`: the longest payload the parser accepts. -/
def maxPayloadSize : Nat := 4096

/-- `crc8`: CRC-8/MAXIM, polynomial `0x8C` (reflected `0x31`). -/
def crc8 (data : List UInt8) : UInt8 := crcBytes 0x8C data

/-- A fully parsed and validated frame (device → host). -/
inductive ParsedFrame where
  | nack (command : UInt8)
  | ack (command : UInt8)
  | data (command : UInt8) (payload : List UInt8)
  | notification (payload : List UInt8)
  deriving DecidableEq, Repr

/-- `data.len() as u16`. -/
def lenU16 (data : List UInt8) : UInt16 := UInt16.ofNat data.length

/-- `build_read_frame`. -/
def buildReadFrame (command : UInt8) : List UInt8 := [syncByte, 0x00, command]

/-- `build_write_frame`. -/
def buildWriteFrame (command : UInt8) (data : List UInt8) : List UInt8 :=
  [syncByte, 0x01, command, loByte (lenU16 data), hiByte (lenU16 data)] ++ data ++ [crc8 data]

/-! On a shared bus a source address follows the sync byte. -/

/-- `build_read_frame_from`. -/
def buildReadFrameFrom (source command : UInt8) : List UInt8 := [syncByte, source, 0x00, command]

/-- `build_write_frame_from`. -/
def buildWriteFrameFrom (source command : UInt8) (data : List UInt8) : List UInt8 :=
  [syncByte, source, 0x01, command, loByte (lenU16 data), hiByte (lenU16 data)] ++ data
    ++ [crc8 data]

theorem lenU16_toNat (data : List UInt8) : (lenU16 data).toNat = data.length % 65536 :=
  UInt16.toNat_ofNat'

/-- The two length bytes announce the payload length modulo `2 ^ 16`. -/
theorem u16OfLe_lenU16 (data : List UInt8) :
    u16OfLe (loByte (lenU16 data)) (hiByte (lenU16 data)) = lenU16 data :=
  u16OfLe_split _

end ProtoEmb.Framing
