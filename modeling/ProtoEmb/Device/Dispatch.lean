import ProtoEmb.Codec.Value
import ProtoEmb.Device.Replies
import ProtoEmb.Framing.ParserSound
import ProtoEmb.Schema.Commands

/-!
# The generated dispatchers

`dispatchRead` and `dispatchWrite` of `protocol_runtime.c.j2`, between the receive state
machine and the handlers of the application. A handler is any function of the application's
state. A typed handler fills or is given a struct, which the generated codec turns into
bytes; what the codec writes into the `WIRE_SIZE` bytes of the buffer does not matter here,
so it is a parameter (`StructCodec`). A raw handler fills a buffer of `RUNTIME_MAX_PAYLOAD`
bytes and reports a size, which may be anything a `uint16_t` holds.

Every branch ends in one call of `sendFrame`. It refuses a payload above
`RUNTIME_MAX_PAYLOAD`, and the host drops a frame above its own cap. The dispatcher of a READ
checks the reported size and sends a NACK; the dispatcher of a query does not.
-/

namespace ProtoEmb.Device

open ProtoEmb.Lib ProtoEmb.Framing ProtoEmb.Schema ProtoEmb.Codec

/-! ## Handlers -/

/-- `RuntimeWriteDisposition_E`; a C enum may hold other values. -/
inductive WriteDisposition where
  | nack
  | ack
  | other (value : Int)
  deriving DecidableEq, Repr

/-- `RuntimeQueryDisposition_E`. -/
inductive QueryDisposition where
  | nack
  | data
  | other (value : Int)
  deriving DecidableEq, Repr

/-- `outPayload` and `outSize`, as a handler leaves them. -/
structure Output (cfg : RuntimeConfig) where
  payload : Vector UInt8 cfg.maxPayload
  size : UInt16
  deriving DecidableEq, Repr

/-- What the handler of a WRITE message is called with. `raw` is a call of `onWriteRaw_*` or
`onQueryRaw_*`: the payload of a struct request that does not have the struct's size. -/
inductive Argument where
  | request (value : Value)
  | raw (payload : List UInt8)
  | flag (b : Bool)
  | none
  | bytes (payload : List UInt8)

/-- The handlers of the application, by message, on its state. -/
structure Handlers (cfg : RuntimeConfig) (σ : Type) where
  /-- `onRead_*(&response)` -/
  onRead : String → σ → σ × Bool × Value
  /-- `onRead_*(outPayload, &outSize)` -/
  onReadRaw : String → σ → σ × Bool × Output cfg
  onWrite : String → Argument → σ → σ × WriteDisposition
  onQuery : String → Argument → σ → σ × QueryDisposition × Output cfg

/-- `*_WIRE_SIZE`. -/
def wireSizeOf (data : Data) (name : String) : Nat :=
  ((data.types.lookup name).map TypeDef.wireSize).getD 0

/-- `*_encode` and `*_decode` of the structs, on buffers of their size. -/
structure StructCodec (data : Data) where
  encode : (name : String) → Value → Vector UInt8 (wireSizeOf data name)
  decode : String → List UInt8 → Value

/-- What a device is built from. -/
structure Firmware (cfg : RuntimeConfig) (σ : Type) where
  data : Data
  codec : StructCodec data
  handlers : Handlers cfg σ

/-! ## Replies -/

section Send

variable (cfg : RuntimeConfig) (sendBytes : Nat → List UInt8 → Bool) (command : UInt8)

/-- The `sendBytes` calls of `Runtime_sendAck`, and likewise below. -/
def sendAck : List (List UInt8) := (sendFrame cfg sendBytes 0x01 command none 0).2

def sendNack : List (List UInt8) := (sendFrame cfg sendBytes 0x00 command none 0).2

def sendData (payload : List UInt8) (size : UInt16) : List (List UInt8) :=
  (sendFrame cfg sendBytes 0x02 command (some payload) size).2

def applyWriteDisposition : WriteDisposition → List (List UInt8)
  | .ack => sendAck cfg sendBytes command
  | .nack | .other _ => sendNack cfg sendBytes command

def applyQueryDisposition (out : Output cfg) : QueryDisposition → List (List UInt8)
  | .data => sendData cfg sendBytes command out.payload.toList out.size
  | .nack | .other _ => sendNack cfg sendBytes command

end Send

/-! ## Dispatch -/

/-- `_response_name or _payload_name`. -/
def readStruct (m : Message) : Option String :=
  m.decl.response <|> m.payloadName

namespace Firmware

variable {cfg : RuntimeConfig} {σ : Type} (fw : Firmware cfg σ)
  (sendBytes : Nat → List UInt8 → Bool)

/-- The case of a READ message. -/
def readCase (m : Message) (s : σ) (command : UInt8) : σ × List (List UInt8) :=
  match readStruct m with
  | some name =>
    let r := fw.handlers.onRead m.name s
    if r.2.1 then
      (r.1, sendData cfg sendBytes command (fw.codec.encode name r.2.2).toList
        (UInt16.ofNat (wireSizeOf fw.data name)))
    else (r.1, sendNack cfg sendBytes command)
  | none =>
    let r := fw.handlers.onReadRaw m.name s
    if r.2.1 && r.2.2.size.toNat ≤ cfg.maxPayload then
      (r.1, sendData cfg sendBytes command r.2.2.payload.toList r.2.2.size)
    else (r.1, sendNack cfg sendBytes command)

def dispatchRead (s : σ) (command : UInt8) : σ × List (List UInt8) :=
  match fw.data.runtimeReadMessages.find? fun m => m.hasId command with
  | some m => fw.readCase sendBytes m s command
  | none => (s, sendNack cfg sendBytes command)

/-- The handler a payload is for, or none if it has the wrong size. -/
def argument (m : Message) (payload : List UInt8) : Option Argument :=
  match m.requestName with
  | some name =>
    if payload.length = wireSizeOf fw.data name then
      some (.request (fw.codec.decode name payload))
    else some (.raw payload)
  | none =>
    if m.requestScalar = some "bool" then
      if 1 ≤ payload.length then some (.flag (payload.headD 0 ≠ 0)) else none
    else if m.requestScalar = some "none" then
      if payload.length = 0 then some .none else none
    else some (.bytes payload)

/-- The case of a WRITE message. -/
def writeCase (m : Message) (s : σ) (command : UInt8) (payload : List UInt8) :
    σ × List (List UInt8) :=
  match fw.argument m payload with
  | some arg =>
    if m.semantic = .query then
      let r := fw.handlers.onQuery m.name arg s
      (r.1, applyQueryDisposition cfg sendBytes command r.2.2 r.2.1)
    else
      let r := fw.handlers.onWrite m.name arg s
      (r.1, applyWriteDisposition cfg sendBytes command r.2)
  | none => (s, sendNack cfg sendBytes command)

def dispatchWrite (s : σ) (command : UInt8) (payload : List UInt8) : σ × List (List UInt8) :=
  match fw.data.runtimeWriteMessages.find? fun m => m.hasId command with
  | some m => fw.writeCase sendBytes m s command payload
  | none => (s, sendNack cfg sendBytes command)

/-- What an action of the state machine does. -/
def perform (s : σ) : Action → σ × List (List UInt8)
  | .dispatchRead command => fw.dispatchRead sendBytes s command
  | .dispatchWrite command payload => fw.dispatchWrite sendBytes s command payload
  | .sendNack command => (s, sendNack cfg sendBytes command)

def performAll (s : σ) : List Action → σ × List (List UInt8)
  | [] => (s, [])
  | a :: actions =>
    let r := fw.perform sendBytes s a
    let t := performAll r.1 actions
    (t.1, r.2 ++ t.2)

/-- The actions of a longer list are performed one list after the other. -/
theorem performAll_append (s : σ) (xs ys : List Action) :
    fw.performAll sendBytes s (xs ++ ys)
      = ((fw.performAll sendBytes (fw.performAll sendBytes s xs).1 ys).1,
        (fw.performAll sendBytes s xs).2
          ++ (fw.performAll sendBytes (fw.performAll sendBytes s xs).1 ys).2) := by
  induction xs generalizing s with
  | nil => rfl
  | cons a xs ih => simp only [List.cons_append, performAll, ih, List.append_assoc]

end Firmware

end ProtoEmb.Device
