import ProtoEmb.Client.Drain

/-!
# The client in the browser

`wasm.rs`: JavaScript owns the serial port. It hands the client what it has read
(`feed_bytes`), polls it, and writes to the port what it takes out (`take_outgoing`). Between
the two stands a transport in memory. What is fed is kept up to a bound; beyond it the oldest
bytes are dropped.
-/

namespace ProtoEmb.Client

open ProtoEmb.Framing

/-- `RX_CAP`. -/
def rxCap : Nat := 256 * 1024

/-- The client and the two buffers between it and JavaScript. -/
structure WasmClient where
  client : Client
  transport : MemoryTransport

/-- The calls of `WasmClient` that are passed on to the client; on `wasm32` a `usize` is a
`u32`. -/
inductive WasmCall where
  | read (command : UInt8) (highPriority : Bool) (coalesceKey : Option String)
  | write (command : UInt8) (data : List UInt8)
  | query (command : UInt8) (data : List UInt8)
  | registerPeriodic (command : UInt8) (intervalMs storageCount : UInt32)
  | registerPeriodicWithTimeout (command : UInt8)
      (intervalMs storageCount responseTimeoutMs : UInt32)
  | unregisterPeriodic (command : UInt8)
  | clearQueue
  deriving DecidableEq, Repr

/-- `Duration::from_millis` of a `u32`. -/
def millis (ms : UInt32) : Nat := ms.toNat * 1000000

def WasmCall.call : WasmCall → Call
  | .read command highPriority coalesceKey =>
    .read command (if highPriority then .high else .low) coalesceKey
  | .write command data => .write command data
  | .query command data => .query command data
  | .registerPeriodic command intervalMs storageCount =>
    .registerPeriodic command (millis intervalMs) storageCount.toNat none
  | .registerPeriodicWithTimeout command intervalMs storageCount responseTimeoutMs =>
    .registerPeriodic command (millis intervalMs) storageCount.toNat
      (some (millis responseTimeoutMs))
  | .unregisterPeriodic command => .unregisterPeriodic command
  | .clearQueue => .clearQueue

namespace WasmClient

/-- `new` of `wasm.rs`: both buffers are empty. -/
def new (responseTimeoutMs : UInt32) : WasmClient :=
  ⟨withConfig ⟨millis responseTimeoutMs⟩, ⟨[], []⟩⟩

/-- `feed_bytes`: the oldest bytes give way when there are more than `RX_CAP`. -/
def feedBytes (w : WasmClient) (bytes : List UInt8) : WasmClient :=
  let rx := w.transport.rx ++ bytes
  let rx := if rx.length > rxCap then rx.drop (rx.length - rxCap) else rx
  { w with transport := { w.transport with rx } }

/-- `take_outgoing` hands out what waits and empties the buffer. -/
def takeOutgoing (w : WasmClient) : List UInt8 × WasmClient :=
  (w.transport.tx, { w with transport := { w.transport with tx := [] } })

/-- A call that is passed on. -/
def call (lastInstant : Nat) (w : WasmClient) (op : WasmCall) : Option (WasmClient × List Action) :=
  (w.client.call lastInstant op.call).map fun r => ({ w with client := r.1 }, r.2)

/-- `poll` over the two buffers. -/
def poll (lastInstant : Nat) (w : WasmClient) (checkAt enqueueAt sentAt : Nat) :
    Option (WasmClient × List Action) :=
  (w.client.pollMemory lastInstant w.transport checkAt enqueueAt sentAt).map fun r =>
    (⟨r.1, r.2.1⟩, r.2.2)

/-- What `poll` returns. -/
def events (actions : List Action) : List Event := actions.filterMap Action.event?

/-- `get_stored`: the entries and the sequence number. -/
def getStored (w : WasmClient) (command : UInt8) : Option (List Payload × Nat) :=
  (w.client.store.readAll command).map fun entries => (entries, w.client.store.seq command)

/-- `sinceSeq` is the number after its cast to `u64`. -/
def getStoredSince (w : WasmClient) (command : UInt8) (sinceSeq : UInt64) :
    Option (List Payload × Nat) :=
  w.client.store.readSince command sinceSeq.toNat

/-! ## The receive buffer -/

/-- Whatever is fed, the buffer stays within the cap. -/
theorem feedBytes_cap {w : WasmClient} (bytes : List UInt8) :
    (w.feedBytes bytes).transport.rx.length ≤ rxCap := by
  show (if _ then _ else _ : List UInt8).length ≤ rxCap
  split
  · rw [List.length_drop]
    omega
  · omega

/-- What there is room for is kept whole. -/
theorem feedBytes_fits {w : WasmClient} {bytes : List UInt8}
    (h : w.transport.rx.length + bytes.length ≤ rxCap) :
    (w.feedBytes bytes).transport.rx = w.transport.rx ++ bytes :=
  if_neg (by rw [List.length_append]; omega)

/-- What is dropped is exactly what there is no room for. -/
theorem feedBytes_length (w : WasmClient) (bytes : List UInt8) :
    (w.feedBytes bytes).transport.rx.length + (w.transport.rx.length + bytes.length - rxCap)
      = w.transport.rx.length + bytes.length := by
  simp only [feedBytes]
  generalize rxCap = cap
  split
  next hover =>
    rw [List.length_append] at hover
    rw [List.length_drop, List.length_append]
    omega
  next hfits =>
    rw [List.length_append] at hfits ⊢
    omega

/-- What is kept is the end of what there was. -/
theorem feedBytes_suffix (w : WasmClient) (bytes : List UInt8) :
    (w.feedBytes bytes).transport.rx <:+ w.transport.rx ++ bytes := by
  show (if _ then _ else _ : List UInt8) <:+ _
  split
  · exact List.drop_suffix _ _
  · exact List.suffix_refl _

end WasmClient

end ProtoEmb.Client
