import ProtoEmb.Client.Queue
import ProtoEmb.Client.Storage
import ProtoEmb.Framing.WireImage

/-!
# The protocol client

`client.rs`: the poll loop that sends one request at a time and matches the replies. What
a call does is a list of `Action`s, in the order of the source: messages pushed into the
queue, frames handled, requests given up, calls of `write_all`, and what happens to the
storage. `Action.event?` picks the events that `poll` returns.

The transport and the clock are inputs. A `poll` is given the results of its reads, the
result of its write, and the three clock readings it makes; `lastInstant` is the latest
time an `Instant` can hold. A panic is `none`: an `Instant` past the last one, a read that
reports more than the buffer holds, the assertions and indexing of `storage.rs`.

`Step` says once what the client can do to its state; `run_steps` cuts every run into such
steps, so an invariant of the client is an invariant of `Step`.
-/

namespace ProtoEmb.Client

open ProtoEmb.Framing

/-- Read buffer size for serial reads. -/
def readBufSize : Nat := 4096

/-- Events emitted by the client to the caller. -/
inductive Event where
  | ack (command : UInt8)
  | nack (command : UInt8)
  | data (command : UInt8) (payload : Payload)
  | notification (payload : Payload)
  | timeout (frame : List UInt8)
  | error (message : String)
  deriving DecidableEq, Repr

/-- `ClientConfig`. -/
structure ClientConfig where
  responseTimeout : Nat
  deriving DecidableEq, Repr

/-- The frame that waits for its response. -/
structure PendingRequest where
  frame : List UInt8
  command : UInt8
  sentAt : Nat
  timeout : Nat
  expect : ExpectedReply
  deriving DecidableEq, Repr

/-- A periodic read registration. -/
structure PeriodicEntry where
  command : UInt8
  interval : Nat
  coalesceKey : String
  nextDue : Option Nat
  responseTimeout : Option Nat
  deriving DecidableEq, Repr

end ProtoEmb.Client

open ProtoEmb.Framing ProtoEmb.Client in
/-- `Client`, without its transport and its clock. -/
structure ProtoEmb.Client where
  parser : FrameParser
  queue : PriorityQueue
  config : ClientConfig
  pending : Option PendingRequest
  periodic : List PeriodicEntry
  store : DataStore Payload

namespace ProtoEmb.Client

open ProtoEmb.Framing

/-- What the client does. -/
inductive Action where
  | push (msg : QueuedMessage)
  | clear
  /-- A frame and the event it is turned into. -/
  | frame (frame : ParsedFrame) (event : Event)
  /-- The pending frame is given up. -/
  | expire (now : Nat) (frame : List UInt8)
  /-- A call of `write_all`, when it was over, and its error. -/
  | write (bytes : List UInt8) (now : Nat) (error : Option String)
  | readError (error : String)
  | register (command : UInt8) (storageCount : Nat)
  | clearAll
  deriving DecidableEq, Repr

/-- The clock reading of an action. -/
def Action.time? : Action → Option Nat
  | .expire now _ => some now
  | .write _ now _ => some now
  | _ => none

def Action.isWrite : Action → Bool
  | .write _ _ _ => true
  | _ => false

/-- The event an action leaves for the caller. -/
def Action.event? : Action → Option Event
  | .frame _ event => some event
  | .expire _ bytes => some (.timeout bytes)
  | .write _ _ (some error) => some (.error ("Transport write error: " ++ error))
  | .readError error => some (.error ("Transport read error: " ++ error))
  | _ => none

/-- `Client::with_config`. -/
def withConfig (config : ClientConfig) : Client :=
  { parser := .new, queue := .new, config, pending := none, periodic := [], store := .new }

/-! ## Incoming frames -/

/-- An ACK ends a WRITE of its command, and nothing that waits for DATA. -/
def handleAck (c : Client) (cmd : UInt8) : Client × Event :=
  match c.pending with
  | some p =>
    -- an answer to something else leaves the request on its way
    if p.command ≠ cmd then
      (c, .error ("Mismatched ACK command: expected " ++ toString p.command ++ ", got "
        ++ toString cmd))
    else if p.expect ≠ .ack then
      (c, .error ("Unexpected ACK for command " ++ toString cmd ++ ": awaiting DATA"))
    else ({ c with pending := none }, .ack cmd)
  | none => (c, .ack cmd)

/-- A NACK ends a READ, WRITE or query alike. -/
def handleNack (c : Client) (cmd : UInt8) : Client × Event :=
  match c.pending with
  | some p =>
    if p.command ≠ cmd then
      (c, .error ("Mismatched NACK command: expected " ++ toString p.command ++ ", got "
        ++ toString cmd))
    else ({ c with pending := none }, .nack cmd)
  | none => (c, .nack cmd)

/-- Auto-store if the command has registered storage. -/
def autoStore (c : Client) (command : UInt8) (payload : Payload) : Option Client :=
  if c.store.isRegistered command then do
    let store ← c.store.store command payload
    return { c with store }
  else some c

/-- DATA ends a READ or a query of its command; it is stored where there is storage. -/
def handleData (c : Client) (command : UInt8) (payload : Payload) : Option (Client × Event) :=
  match c.pending with
  | some p =>
    if p.command = command ∧ p.expect = .data then do
      let c ← { c with pending := none }.autoStore command payload
      return (c, .data command payload)
    else if c.store.isRegistered command then do
      -- a late DATA is still useful for a registered ring buffer
      let store ← c.store.store command payload
      return ({ c with store }, .data command payload)
    else if p.command ≠ command then
      some (c, .error ("Mismatched DATA command: expected " ++ toString p.command ++ ", got "
        ++ toString command))
    else some (c, .error ("Unexpected DATA for command " ++ toString command ++ ": awaiting ACK"))
  | none => do
    let c ← c.autoStore command payload
    return (c, .data command payload)

/-- `handle_frame`. -/
def handleFrame (c : Client) : ParsedFrame → Option (Client × Event)
  | .ack cmd => some (c.handleAck cmd)
  | .nack cmd => some (c.handleNack cmd)
  | .data command payload => c.handleData command payload
  | .notification payload => some (c, .notification payload)

/-- The frames of one read, in order. -/
def handleFrames (c : Client) : List ParsedFrame → Option (Client × List Action)
  | [] => some (c, [])
  | f :: frames => do
    let (c, event) ← c.handleFrame f
    let (c, actions) ← c.handleFrames frames
    return (c, .frame f event :: actions)

/-- The result of a read of the transport. -/
inductive ReadResult where
  | ok (bytes : List UInt8)
  | timedOut
  | error (message : String)
  deriving DecidableEq, Repr

/-- Step 1 of `poll`: read until there is nothing more. Where the list of results ends the
transport has no data. -/
def readLoop (c : Client) : List ReadResult → Option (Client × List Action)
  | [] => some (c, [])
  | .ok bytes :: reads =>
    -- `Ok(0)`: nothing more available
    if bytes = [] then some (c, [])
    else if bytes.length ≤ readBufSize then do
      let r := c.parser.feedBytes bytes
      let (c, actions) ← { c with parser := r.1 }.handleFrames r.2
      -- a partial fill: the input is drained
      if bytes.length < readBufSize then return (c, actions)
      else do
        let (c, more) ← c.readLoop reads
        return (c, actions ++ more)
    -- more bytes than the buffer holds
    else none
  | .timedOut :: _ => some (c, [])
  | .error message :: _ => some (c, [.readError message])

/-! ## Timeouts, periodic reads and sending -/

/-- Step 2 of `poll`. `Instant::elapsed` does not go below zero. -/
def checkTimeout (c : Client) (now : Nat) : Client × List Action :=
  match c.pending with
  | some p =>
    if now - p.sentAt ≥ p.timeout then ({ c with pending := none }, [.expire now p.frame])
    else (c, [])
  | none => (c, [])

/-- `t + d` on `Instant`. -/
def instantAdd (lastInstant t d : Nat) : Option Nat :=
  if t + d ≤ lastInstant then some (t + d) else none

/-- The read of a registration. -/
def PeriodicEntry.message (entry : PeriodicEntry) : QueuedMessage :=
  { frame := buildReadFrame entry.command, priority := .low, coalesceKey := some entry.coalesceKey,
    responseTimeout := entry.responseTimeout, expect := .data }

/-- A registration that was never polled is due at once. -/
def PeriodicEntry.due (entry : PeriodicEntry) (now : Nat) : Bool :=
  match entry.nextDue with
  | some next => now ≥ next
  | none => true

/-- The next point of the grid, `interval` after the last. -/
def PeriodicEntry.next (lastInstant : Nat) (entry : PeriodicEntry) (now : Nat) : Option Nat :=
  match entry.nextDue with
  | some n => instantAdd lastInstant n entry.interval
  | none => some now

/-- After a stall longer than one interval the grid restarts from `now`. -/
def PeriodicEntry.advance (lastInstant : Nat) (entry : PeriodicEntry) (now : Nat) :
    Option PeriodicEntry :=
  (entry.next lastInstant now).bind fun next =>
    (if now ≥ next then instantAdd lastInstant now entry.interval else some next).map fun due =>
      { entry with nextDue := some due }

/-- The loop of `enqueue_periodic_at`. -/
def enqueueEntries (lastInstant now : Nat) :
    List PeriodicEntry → PriorityQueue → Option (List PeriodicEntry × PriorityQueue × List Action)
  | [], queue => some ([], queue, [])
  | entry :: entries, queue =>
    if entry.due now then do
      let entry' ← entry.advance lastInstant now
      let (entries, queue, actions) ← enqueueEntries lastInstant now entries
        (queue.push entry.message)
      return (entry' :: entries, queue, .push entry.message :: actions)
    else do
      let (entries, queue, actions) ← enqueueEntries lastInstant now entries queue
      return (entry :: entries, queue, actions)

/-- Step 3 of `poll`. -/
def enqueuePeriodicAt (lastInstant : Nat) (c : Client) (now : Nat) :
    Option (Client × List Action) := do
  let (periodic, queue, actions) ← enqueueEntries lastInstant now c.periodic c.queue
  return ({ c with periodic, queue }, actions)

/-- The request of a message that has just been sent. -/
def QueuedMessage.sent (msg : QueuedMessage) (config : ClientConfig) (now : Nat) : PendingRequest :=
  { frame := msg.frame, command := msg.frame.getD 2 0, sentAt := now,
    timeout := msg.responseTimeout.getD config.responseTimeout, expect := msg.expect }

/-- Step 4 of `poll`: if nothing is pending, send the next queued message. -/
def tryFlush (c : Client) (now : Nat) (error : Option String) : Client × List Action :=
  match c.pending with
  | some _ => (c, [])
  | none =>
    match c.queue.pop with
    | some (msg, queue) =>
      match error with
      | none => ({ c with queue, pending := some (msg.sent c.config now) },
          [.write msg.frame now none])
      -- the message is lost, nothing is pending
      | some e => ({ c with queue }, [.write msg.frame now (some e)])
    | none => (c, [])

/-! ## Calls -/

/-- What a `poll` sees of the outside: the results of its reads, its three clock readings,
and the error of its write, should it make one. -/
structure PollInput where
  reads : List ReadResult
  checkAt : Nat
  enqueueAt : Nat
  sentAt : Nat
  writeError : Option String
  deriving DecidableEq, Repr

/-- `poll`: read, time out, enqueue what is due, send. -/
def poll (lastInstant : Nat) (c : Client) (io : PollInput) : Option (Client × List Action) := do
  let (c, received) ← c.readLoop io.reads
  let (c, expired) := c.checkTimeout io.checkAt
  let (c, pushed) ← c.enqueuePeriodicAt lastInstant io.enqueueAt
  let (c, sent) := c.tryFlush io.sentAt io.writeError
  return (c, received ++ expired ++ pushed ++ sent)

/-- `add_periodic`: a registration that was there is removed. -/
def addPeriodic (c : Client) (command : UInt8) (interval storageCount : Nat)
    (responseTimeout : Option Nat) : Option Client := do
  let entry : PeriodicEntry :=
    { command, interval, coalesceKey := "periodic_" ++ toString command, nextDue := none,
      responseTimeout }
  let store ← c.store.register command storageCount
  return { c with periodic := (c.periodic.filter (·.command ≠ command)) ++ [entry], store }

/-- The calls of the client and, through `store_mut`, of its storage. The two ways to
register a periodic read differ in the timeout. -/
inductive Call where
  | read (command : UInt8) (priority : Priority) (coalesceKey : Option String)
  | write (command : UInt8) (data : List UInt8)
  | query (command : UInt8) (data : List UInt8)
  | registerPeriodic (command : UInt8) (interval storageCount : Nat) (responseTimeout : Option Nat)
  | unregisterPeriodic (command : UInt8)
  | clearQueue
  | registerStore (command : UInt8) (capacity : Nat)
  | clearStore
  | poll (io : PollInput)
  deriving DecidableEq, Repr

/-- A call, with what it did. -/
def call (lastInstant : Nat) (c : Client) : Call → Option (Client × List Action)
  | .read command priority coalesceKey =>
    let msg := Client.read command priority coalesceKey
    some ({ c with queue := c.queue.push msg }, [.push msg])
  | .write command data =>
    let msg := Client.write command data
    some ({ c with queue := c.queue.push msg }, [.push msg])
  | .query command data =>
    let msg := Client.query command data
    some ({ c with queue := c.queue.push msg }, [.push msg])
  | .registerPeriodic command interval storageCount responseTimeout => do
    let c ← c.addPeriodic command interval storageCount responseTimeout
    return (c, [.register command storageCount])
  | .unregisterPeriodic command =>
    some ({ c with periodic := c.periodic.filter (·.command ≠ command) }, [])
  | .clearQueue => some ({ c with queue := c.queue.clear }, [.clear])
  | .registerStore command capacity => do
    let store ← c.store.register command capacity
    return ({ c with store }, [.register command capacity])
  | .clearStore => some ({ c with store := c.store.clearAll }, [.clearAll])
  | .poll io => c.poll lastInstant io

/-- A sequence of calls, collecting the actions. -/
def run (lastInstant : Nat) (c : Client) : List Call → Option (Client × List Action)
  | [] => some (c, [])
  | op :: ops => do
    let (c, actions) ← c.call lastInstant op
    let (c, more) ← c.run lastInstant ops
    return (c, actions ++ more)

/-! ## Steps -/

/-- The replies that end a request for a command. -/
def ends (command : UInt8) (expect : ExpectedReply) : ParsedFrame → Bool
  | .ack cmd => command = cmd ∧ expect = .ack
  | .nack cmd => command = cmd
  | .data cmd _ => command = cmd ∧ expect = .data
  | .notification _ => false

/-- The frame ends this request. -/
def PendingRequest.endedBy (p : PendingRequest) (f : ParsedFrame) : Bool :=
  ends p.command p.expect f

/-- The event of a frame that is taken as what it says. -/
def eventOf : ParsedFrame → Event
  | .ack cmd => .ack cmd
  | .nack cmd => .nack cmd
  | .data cmd payload => .data cmd payload
  | .notification payload => .notification payload

theorem autoStore_eq_some {c c' : Client} {command : UInt8} {payload : Payload}
    (h : c.autoStore command payload = some c') :
    ∃ store, c.store.store command payload = some store ∧ c' = { c with store } := by
  unfold autoStore at h
  split at h
  next =>
    simp only [Option.bind_eq_bind, Option.bind_eq_some_iff, Option.pure_def,
      Option.some.injEq] at h
    obtain ⟨store, hstore, rfl⟩ := h
    exact ⟨store, hstore, rfl⟩
  next hreg =>
    cases h
    exact ⟨c.store, DataStore.store_unregistered (by simpa using hreg) payload, rfl⟩

/-- The pending request after a frame. -/
def pendingAfter (c : Client) (f : ParsedFrame) : Option PendingRequest :=
  c.pending.filter fun p => !p.endedBy f

/-- Where nothing is pending a frame ends nothing. -/
theorem pendingAfter_none {c : Client} (hp : c.pending = none) (f : ParsedFrame) :
    c.pendingAfter f = none := by
  rw [pendingAfter, hp]
  rfl

/-- A frame that ends the request leaves none. -/
theorem pendingAfter_ends {c : Client} {p : PendingRequest} {f : ParsedFrame}
    (hp : c.pending = some p) (h : p.endedBy f = true) : c.pendingAfter f = none := by
  rw [pendingAfter, hp, Option.filter_some, h]
  rfl

/-- Any other frame leaves it. -/
theorem pendingAfter_keeps {c : Client} {p : PendingRequest} {f : ParsedFrame}
    (hp : c.pending = some p) (h : p.endedBy f = false) : c.pendingAfter f = c.pending := by
  rw [pendingAfter, hp, Option.filter_some, h]
  rfl

theorem unchanged {c : Client} {f : ParsedFrame} (h : c.pendingAfter f = c.pending) :
    c = { c with pending := c.pendingAfter f } := by
  rw [h]

/-- An ACK changes what is pending and nothing else. -/
theorem handleAck_spec (c : Client) (cmd : UInt8) :
    (c.handleAck cmd).1 = { c with pending := c.pendingAfter (.ack cmd) } ∧
      ((c.handleAck cmd).2 = .ack cmd ∨ ∃ p m, c.pending = some p ∧ p.endedBy (.ack cmd) = false ∧
        (c.handleAck cmd).2 = .error m) := by
  unfold handleAck
  cases hp : c.pending with
  | none => exact ⟨unchanged (by rw [pendingAfter_none hp, hp]), .inl rfl⟩
  | some p =>
    by_cases hcmd : p.command = cmd
    · by_cases hack : p.expect = .ack
      · rw [pendingAfter_ends hp (by simp [PendingRequest.endedBy, ends, hcmd, hack])]
        simp [hcmd, hack]
      · have hkeeps : p.endedBy (.ack cmd) = false := by simp [PendingRequest.endedBy, ends, hack]
        simp only [ne_eq, hcmd, not_true_eq_false, if_false, hack, not_false_eq_true, if_true]
        exact ⟨unchanged (pendingAfter_keeps hp hkeeps), .inr ⟨p, _, rfl, hkeeps, rfl⟩⟩
    · have hkeeps : p.endedBy (.ack cmd) = false := by simp [PendingRequest.endedBy, ends, hcmd]
      simp only [ne_eq, hcmd, not_false_eq_true, if_true]
      exact ⟨unchanged (pendingAfter_keeps hp hkeeps), .inr ⟨p, _, rfl, hkeeps, rfl⟩⟩

/-- So does a NACK. -/
theorem handleNack_spec (c : Client) (cmd : UInt8) :
    (c.handleNack cmd).1 = { c with pending := c.pendingAfter (.nack cmd) } ∧
      ((c.handleNack cmd).2 = .nack cmd ∨ ∃ p m, c.pending = some p ∧
        p.endedBy (.nack cmd) = false ∧ (c.handleNack cmd).2 = .error m) := by
  unfold handleNack
  cases hp : c.pending with
  | none => exact ⟨unchanged (by rw [pendingAfter_none hp, hp]), .inl rfl⟩
  | some p =>
    by_cases hcmd : p.command = cmd
    · rw [pendingAfter_ends hp (by simp [PendingRequest.endedBy, ends, hcmd])]
      simp [hcmd]
    · have hkeeps : p.endedBy (.nack cmd) = false := by simp [PendingRequest.endedBy, ends, hcmd]
      simp only [ne_eq, hcmd, not_false_eq_true, if_true]
      exact ⟨unchanged (pendingAfter_keeps hp hkeeps), .inr ⟨p, _, rfl, hkeeps, rfl⟩⟩

/-- DATA is stored and reported, or refused because it is for no buffer and does not end the
pending request. -/
theorem handleData_spec {c c' : Client} {cmd : UInt8} {payload : Payload} {event : Event}
    (h : c.handleData cmd payload = some (c', event)) :
    (∃ store, c.store.store cmd payload = some store ∧ event = .data cmd payload ∧
      c' = { c with pending := c.pendingAfter (.data cmd payload), store }) ∨
    (∃ p m, c.pending = some p ∧ p.endedBy (.data cmd payload) = false ∧
      c.store.isRegistered cmd = false ∧ event = .error m ∧ c' = c) := by
  unfold handleData at h
  cases hp : c.pending with
  | none =>
    simp only [hp, Option.bind_eq_bind, Option.bind_eq_some_iff, Option.pure_def,
      Option.some.injEq, Prod.mk.injEq] at h
    obtain ⟨_, hauto, rfl, rfl⟩ := h
    obtain ⟨store, hstore, rfl⟩ := autoStore_eq_some hauto
    exact .inl ⟨store, hstore, rfl, by rw [pendingAfter_none hp, hp]⟩
  | some p =>
    simp only [hp] at h
    -- a reply that ends the pending request is stored if its buffer exists
    by_cases hends : p.command = cmd ∧ p.expect = .data
    · simp only [if_pos hends, Option.bind_eq_bind, Option.bind_eq_some_iff, Option.pure_def,
        Option.some.injEq, Prod.mk.injEq] at h
      obtain ⟨_, hauto, rfl, rfl⟩ := h
      obtain ⟨store, hstore, rfl⟩ := autoStore_eq_some hauto
      have hend : p.endedBy (.data cmd payload) = true := by
        simp [PendingRequest.endedBy, ends, hends]
      exact .inl ⟨store, hstore, rfl, by rw [pendingAfter_ends hp hend]⟩
    · rw [if_neg hends] at h
      have hkeeps : p.endedBy (.data cmd payload) = false := by
        simpa [PendingRequest.endedBy, ends] using hends
      by_cases hreg : c.store.isRegistered cmd = true
      · -- a late DATA is still useful for a registered ring buffer
        simp only [if_pos hreg, Option.bind_eq_bind, Option.bind_eq_some_iff, Option.pure_def,
          Option.some.injEq, Prod.mk.injEq] at h
        obtain ⟨store, hstore, rfl, rfl⟩ := h
        exact .inl ⟨store, hstore, rfl, by rw [pendingAfter_keeps hp hkeeps, hp]⟩
      · rw [if_neg hreg] at h
        refine .inr ?_
        have hunreg : c.store.isRegistered cmd = false := by simpa using hreg
        split at h
        · cases h
          exact ⟨p, _, rfl, hkeeps, hunreg, rfl, rfl⟩
        · cases h
          exact ⟨p, _, rfl, hkeeps, hunreg, rfl, rfl⟩

/-- A frame changes the pending request and the storage only, and it is reported as what it
is unless something else is pending. -/
theorem handleFrame_spec {c c' : Client} {f : ParsedFrame} {event : Event}
    (h : c.handleFrame f = some (c', event)) :
    c' = { c with pending := c.pendingAfter f, store := c'.store } ∧
      (event = eventOf f ∨
        ∃ p m, c.pending = some p ∧ p.endedBy f = false ∧ event = .error m) := by
  cases f with
  | ack cmd =>
    obtain ⟨hc, he⟩ := handleAck_spec c cmd
    rw [show c.handleAck cmd = (c', event) from Option.some.inj h] at hc he
    change c' = _ at hc
    subst hc
    exact ⟨rfl, he⟩
  | nack cmd =>
    obtain ⟨hc, he⟩ := handleNack_spec c cmd
    rw [show c.handleNack cmd = (c', event) from Option.some.inj h] at hc he
    change c' = _ at hc
    subst hc
    exact ⟨rfl, he⟩
  | data cmd payload =>
    obtain ⟨store, _, rfl, rfl⟩ | ⟨p, m, hp, hkeeps, _, rfl, rfl⟩ := handleData_spec h
    · exact ⟨rfl, .inl rfl⟩
    · exact ⟨unchanged (pendingAfter_keeps hp hkeeps), .inr ⟨p, m, hp, hkeeps, rfl⟩⟩
  | notification payload =>
    cases h
    refine ⟨unchanged ?_, .inl rfl⟩
    cases hp : c.pending with
    | none => exact pendingAfter_none hp _
    | some p =>
      rw [← hp]
      exact pendingAfter_keeps hp rfl

/-- All that one step of the client can do. -/
inductive Step : Client → List Action → Client → Prop where
  | parse (c : Client) (parser : FrameParser) : Step c [] { c with parser }
  | frame {c c' : Client} {f : ParsedFrame} {event : Event}
      (h : c.handleFrame f = some (c', event)) : Step c [.frame f event] c'
  | expire {c : Client} {p : PendingRequest} {now : Nat} (hp : c.pending = some p)
      (hlate : p.timeout ≤ now - p.sentAt) :
      Step c [.expire now p.frame] { c with pending := none }
  | schedule (c : Client) (periodic : List PeriodicEntry) : Step c [] { c with periodic }
  | push (c : Client) (msg : QueuedMessage) :
      Step c [.push msg] { c with queue := c.queue.push msg }
  | clear (c : Client) : Step c [.clear] { c with queue := .new }
  | write {c : Client} {msg : QueuedMessage} {queue : PriorityQueue} (now : Nat)
      (error : Option String) (hp : c.pending = none) (hpop : c.queue.pop = some (msg, queue)) :
      Step c [.write msg.frame now error]
        { c with queue, pending := if error = none then some (msg.sent c.config now) else none }
  | readError (c : Client) (error : String) : Step c [.readError error] c
  | register {c : Client} {command : UInt8} {capacity : Nat} {store : DataStore Payload}
      (h : c.store.register command capacity = some store) :
      Step c [.register command capacity] { c with store }
  | clearAll (c : Client) : Step c [.clearAll] { c with store := c.store.clearAll }

/-- Steps in sequence, and their actions. -/
inductive Steps : Client → List Action → Client → Prop where
  | refl (c : Client) : Steps c [] c
  | cons {c c₁ c₂ : Client} {actions more : List Action} (head : Step c actions c₁)
      (tail : Steps c₁ more c₂) : Steps c (actions ++ more) c₂

variable {c c' : Client} {actions : List Action} {lastInstant : Nat}

/-- One step is a run of steps. -/
theorem Step.steps (h : Step c actions c') : Steps c actions c' := by
  have hone := Steps.cons h (.refl c')
  rwa [List.append_nil] at hone

theorem Steps.trans {c₁ : Client} {more : List Action} (h : Steps c actions c₁)
    (h' : Steps c₁ more c') : Steps c (actions ++ more) c' := by
  induction h with
  | refl => exact h'
  | cons head _ ih =>
    rw [List.append_assoc]
    exact .cons head (ih h')

/-- What every step keeps, every sequence of steps keeps; `pre` is what was done before. -/
theorem Steps.invariant (I : List Action → Client → Prop)
    (hstep : ∀ {pre actions : List Action} {c c' : Client}, I pre c → Step c actions c' →
      I (pre ++ actions) c') (h : Steps c actions c') :
    ∀ {pre : List Action}, I pre c → I (pre ++ actions) c' := by
  induction h with
  | refl c =>
    intro pre hpre
    rwa [List.append_nil]
  | cons head _ ih =>
    intro pre hpre
    rw [← List.append_assoc]
    exact ih (hstep hpre head)

/-- A step is at most one action. -/
theorem Step.actions_cases (h : Step c actions c') : actions = [] ∨ ∃ a, actions = [a] := by
  cases h with
  | parse | schedule => exact .inl rfl
  | _ => exact .inr ⟨_, rfl⟩

/-- The state before an action, and the one after it. -/
theorem Steps.split (h : Steps c actions c') :
    ∀ {pre post : List Action} {a : Action}, actions = pre ++ a :: post →
      ∃ c₁ c₂, Steps c pre c₁ ∧ Step c₁ [a] c₂ ∧ Steps c₂ post c' := by
  induction h with
  | refl c =>
    intro pre post a hcut
    exact absurd hcut.symm (by simp)
  | cons head tail ih =>
    intro pre post a hcut
    obtain rfl | ⟨b, rfl⟩ := head.actions_cases
    · obtain ⟨c₁, c₂, hpre, ha, hpost⟩ := ih hcut
      exact ⟨c₁, c₂, .cons head hpre, ha, hpost⟩
    · cases pre with
      | nil =>
        cases hcut
        exact ⟨_, _, .refl _, head, tail⟩
      | cons b' pre =>
        obtain ⟨rfl, hrest⟩ := List.cons.inj hcut
        obtain ⟨c₁, c₂, hpre, ha, hpost⟩ := ih hrest
        exact ⟨c₁, c₂, .cons head hpre, ha, hpost⟩

/-- A state in between. -/
theorem Steps.initial {pre post : List Action} (h : Steps c (pre ++ post) c') :
    ∃ c₁, Steps c pre c₁ := by
  cases post with
  | nil =>
    rw [List.append_nil] at h
    exact ⟨c', h⟩
  | cons a post =>
    obtain ⟨c₁, _, hpre, _⟩ := h.split rfl
    exact ⟨c₁, hpre⟩

/-- The frames of a read are handled step by step. -/
theorem handleFrames_steps :
    ∀ {frames : List ParsedFrame} {c c' : Client} {actions : List Action},
      c.handleFrames frames = some (c', actions) → Steps c actions c' := by
  intro frames
  induction frames with
  | nil =>
    intro c c' actions h
    cases h
    exact .refl c
  | cons f frames ih =>
    intro c c' actions h
    simp only [handleFrames, Option.bind_eq_bind, Option.bind_eq_some_iff, Option.pure_def,
      Option.some.injEq, Prod.mk.injEq] at h
    obtain ⟨⟨c₁, event⟩, hf, ⟨c₂, more⟩, hrest, rfl, rfl⟩ := h
    exact .cons (.frame hf) (ih hrest)

/-- The reads of a poll are steps. -/
theorem readLoop_steps :
    ∀ {reads : List ReadResult} {c c' : Client} {actions : List Action},
      c.readLoop reads = some (c', actions) → Steps c actions c' := by
  intro reads
  induction reads with
  | nil =>
    intro c c' actions h
    cases h
    exact .refl c
  | cons r reads ih =>
    intro c c' actions h
    cases r with
    | timedOut => cases h; exact .refl c
    | error message => cases h; exact (Step.readError c message).steps
    | ok bytes =>
      unfold readLoop at h
      split at h
      · cases h
        exact .refl c
      · split at h
        · simp only [Option.bind_eq_bind, Option.bind_eq_some_iff] at h
          obtain ⟨⟨c₁, handled⟩, hframes, h⟩ := h
          have hfed := Steps.cons (.parse c _) (handleFrames_steps hframes)
          split at h
          · cases h
            exact hfed
          · simp only [Option.bind_eq_some_iff, Option.pure_def, Option.some.injEq,
              Prod.mk.injEq] at h
            obtain ⟨⟨c₂, more⟩, hmore, rfl, rfl⟩ := h
            exact hfed.trans (ih hmore)
        · cases h

theorem handleFrames_spec :
    ∀ {frames : List ParsedFrame} {c c' : Client} {actions : List Action},
      c.handleFrames frames = some (c', actions) →
      c' = { c with pending := c'.pending, store := c'.store } ∧
        ∀ a ∈ actions, ∃ f event, a = .frame f event := by
  intro frames
  induction frames with
  | nil =>
    intro c c' actions h
    cases h
    exact ⟨rfl, nofun⟩
  | cons f frames ih =>
    intro c c' actions h
    simp only [handleFrames, Option.bind_eq_bind, Option.bind_eq_some_iff, Option.pure_def,
      Option.some.injEq, Prod.mk.injEq] at h
    obtain ⟨⟨c₁, event⟩, hf, ⟨c₂, more⟩, hrest, rfl, rfl⟩ := h
    obtain ⟨hsame, hmore⟩ := ih hrest
    refine ⟨?_, List.forall_mem_cons.mpr ⟨⟨f, event, rfl⟩, hmore⟩⟩
    change c₂ = _ at hsame
    rw [hsame, (handleFrame_spec hf).1]

/-- Reading changes the parser, the pending request and the storage, and only handles
frames. -/
theorem readLoop_spec :
    ∀ {reads : List ReadResult} {c c' : Client} {actions : List Action},
      c.readLoop reads = some (c', actions) →
      c' = { c with parser := c'.parser, pending := c'.pending, store := c'.store } ∧
        ∀ a ∈ actions, (∃ f event, a = .frame f event) ∨ ∃ error, a = .readError error := by
  intro reads
  induction reads with
  | nil =>
    intro c c' actions h
    cases h
    exact ⟨rfl, nofun⟩
  | cons r reads ih =>
    intro c c' actions h
    cases r with
    | timedOut => cases h; exact ⟨rfl, nofun⟩
    | error message =>
      cases h
      exact ⟨rfl, List.forall_mem_singleton.mpr (.inr ⟨message, rfl⟩)⟩
    | ok bytes =>
      unfold readLoop at h
      split at h
      · cases h
        exact ⟨rfl, nofun⟩
      · split at h
        · simp only [Option.bind_eq_bind, Option.bind_eq_some_iff] at h
          obtain ⟨⟨c₁, acts⟩, hframes, h⟩ := h
          obtain ⟨hsame, hacts⟩ := handleFrames_spec hframes
          have hframed : ∀ a ∈ acts, (∃ f event, a = .frame f event) ∨
              ∃ error, a = Action.readError error := fun a ha => .inl (hacts a ha)
          -- a short read was the last, a full one is followed by the rest
          split at h
          · cases h
            exact ⟨by rw [hsame], hframed⟩
          · simp only [Option.bind_eq_some_iff, Option.pure_def, Option.some.injEq,
              Prod.mk.injEq] at h
            obtain ⟨⟨c₂, more⟩, hmore, rfl, rfl⟩ := h
            obtain ⟨hsame', hmore'⟩ := ih hmore
            refine ⟨?_, List.forall_mem_append.mpr ⟨hframed, hmore'⟩⟩
            change c₂ = _ at hsame'
            change c₁ = _ at hsame
            rw [hsame', hsame]
        · cases h

/-- The timeout of a poll is a step, or none. -/
theorem checkTimeout_steps (c : Client) (now : Nat) :
    Steps c (c.checkTimeout now).2 (c.checkTimeout now).1 := by
  unfold checkTimeout
  split
  next p hp =>
    split
    next hlate => exact (Step.expire hp hlate).steps
    next => exact .refl c
  next => exact .refl c

/-- The reads that are due are pushed, in the order of the registrations. -/
theorem enqueueEntries_actions {now : Nat} :
    ∀ {entries entries' : List PeriodicEntry} {queue queue' : PriorityQueue}
      {actions : List Action},
      enqueueEntries lastInstant now entries queue = some (entries', queue', actions) →
      actions = (entries.filter (·.due now)).map fun entry => .push entry.message := by
  intro entries
  induction entries with
  | nil =>
    intro entries' queue queue' actions h
    cases h
    rfl
  | cons entry entries ih =>
    intro entries' queue queue' actions h
    unfold enqueueEntries at h
    split at h
    next hdue =>
      simp only [Option.bind_eq_bind, Option.bind_eq_some_iff, Option.pure_def,
        Option.some.injEq, Prod.mk.injEq] at h
      obtain ⟨_, _, ⟨_, _, more⟩, hrest, _, rfl, rfl⟩ := h
      rw [List.filter_cons, if_pos hdue, List.map_cons, ← ih hrest]
    next hdue =>
      simp only [Option.bind_eq_bind, Option.bind_eq_some_iff, Option.pure_def,
        Option.some.injEq, Prod.mk.injEq] at h
      obtain ⟨⟨_, _, more⟩, hrest, _, rfl, rfl⟩ := h
      rw [List.filter_cons, if_neg hdue, ← ih hrest]

/-- Each periodic read that is due is a push. -/
theorem enqueueEntries_steps {now : Nat} :
    ∀ {entries entries' : List PeriodicEntry} {c : Client} {queue : PriorityQueue}
      {actions : List Action},
      enqueueEntries lastInstant now entries c.queue = some (entries', queue, actions) →
      Steps c actions { c with queue } := by
  intro entries
  induction entries with
  | nil =>
    intro entries' c queue actions h
    cases h
    exact .refl c
  | cons entry entries ih =>
    intro entries' c queue actions h
    unfold enqueueEntries at h
    split at h
    · simp only [Option.bind_eq_bind, Option.bind_eq_some_iff, Option.pure_def,
        Option.some.injEq, Prod.mk.injEq] at h
      obtain ⟨_, _, ⟨_, _, more⟩, hrest, _, rfl, rfl⟩ := h
      have htail := @ih _ { c with queue := c.queue.push entry.message } _ _ hrest
      exact .cons (.push c entry.message) htail
    · simp only [Option.bind_eq_bind, Option.bind_eq_some_iff, Option.pure_def,
        Option.some.injEq, Prod.mk.injEq] at h
      obtain ⟨⟨_, _, more⟩, hrest, _, rfl, rfl⟩ := h
      exact ih hrest

theorem enqueuePeriodicAt_steps {now : Nat}
    (h : c.enqueuePeriodicAt lastInstant now = some (c', actions)) : Steps c actions c' := by
  simp only [enqueuePeriodicAt, Option.bind_eq_bind, Option.bind_eq_some_iff, Option.pure_def,
    Option.some.injEq, Prod.mk.injEq] at h
  obtain ⟨⟨periodic, queue, pushed⟩, hentries, rfl, rfl⟩ := h
  have hsteps := (enqueueEntries_steps hentries).trans (Step.schedule _ periodic).steps
  rwa [List.append_nil] at hsteps

/-- The write of a poll is a step, or none. -/
theorem tryFlush_steps (c : Client) (now : Nat) (error : Option String) :
    Steps c (c.tryFlush now error).2 (c.tryFlush now error).1 := by
  unfold tryFlush
  split
  · exact .refl c
  next hp =>
    split
    next msg queue hpop =>
      have hstep := Step.write now error hp hpop
      cases error with
      | none => exact hstep.steps
      | some e =>
        rw [if_neg (by simp), ← hp] at hstep
        exact hstep.steps
    next => exact .refl c

/-- So a poll is some steps. -/
theorem poll_steps {io : PollInput} (h : c.poll lastInstant io = some (c', actions)) :
    Steps c actions c' := by
  simp only [poll, Option.bind_eq_bind, Option.bind_eq_some_iff, Option.pure_def,
    Option.some.injEq, Prod.mk.injEq] at h
  obtain ⟨⟨c₁, received⟩, hread, ⟨c₂, pushed⟩, henq, rfl, rfl⟩ := h
  exact (((readLoop_steps hread).trans (checkTimeout_steps c₁ io.checkAt)).trans
    (enqueuePeriodicAt_steps henq)).trans (tryFlush_steps c₂ io.sentAt io.writeError)

/-- Any call is some steps. -/
theorem call_steps {op : Call} (h : c.call lastInstant op = some (c', actions)) :
    Steps c actions c' := by
  cases op with
  | read command priority key => cases h; exact (Step.push c _).steps
  | write command data => cases h; exact (Step.push c _).steps
  | query command data => cases h; exact (Step.push c _).steps
  | registerPeriodic command interval storageCount responseTimeout =>
    simp only [call, addPeriodic, Option.bind_eq_bind, Option.bind_eq_some_iff, Option.pure_def,
      Option.some.injEq, Prod.mk.injEq] at h
    obtain ⟨_, ⟨store, hreg, rfl⟩, rfl, rfl⟩ := h
    exact .cons (.register hreg) (Step.schedule _ _).steps
  | unregisterPeriodic command => cases h; exact (Step.schedule c _).steps
  | clearQueue => cases h; exact (Step.clear c).steps
  | registerStore command capacity =>
    simp only [call, Option.bind_eq_bind, Option.bind_eq_some_iff, Option.pure_def,
      Option.some.injEq, Prod.mk.injEq] at h
    obtain ⟨store, hreg, rfl, rfl⟩ := h
    exact (Step.register hreg).steps
  | clearStore => cases h; exact (Step.clearAll c).steps
  | poll io => exact poll_steps h

/-- **Every run is a sequence of steps.** -/
theorem run_steps :
    ∀ {ops : List Call} {c c' : Client} {actions : List Action},
      c.run lastInstant ops = some (c', actions) → Steps c actions c' := by
  intro ops
  induction ops with
  | nil =>
    intro c c' actions h
    cases h
    exact .refl c
  | cons op ops ih =>
    intro c c' actions h
    simp only [run, Option.bind_eq_bind, Option.bind_eq_some_iff, Option.pure_def,
      Option.some.injEq, Prod.mk.injEq] at h
    obtain ⟨⟨c₁, done⟩, hcall, ⟨c₂, more⟩, hrest, rfl, rfl⟩ := h
    exact (call_steps hcall).trans (ih hrest)

end ProtoEmb.Client
