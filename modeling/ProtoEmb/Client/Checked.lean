import ProtoEmb.Client.Drain
import ProtoEmb.Client.RingBuffer
import ProtoEmb.Framing.ParserSound

/-!
# The client in machine integers

The calls of `client.rs` with every counter that a call adds to: the `u16` of the parser, the
words of the ring buffers and the size of a new one. What goes past its type is a panic,
`none`, where `Client` counts on. The frames and the queue are as large as what they are
made from, and there is memory for them.

Between two calls a client is `Sound`. From there a call does what it does in `Client` if it
is one that the client `Admits`, and panics if it is not (`call_eq`): a ring buffer
needs room for at least one entry and for no more than a `Vec` can have, and a poll may not
bring a sequence number past the word.
-/

namespace ProtoEmb.Client

open ProtoEmb.Framing

/-- The longest interval, `u64::MAX` milliseconds. -/
def longest : Nat := (2 ^ 64 - 1) * 1000000

namespace Checked

/-- The state `Data` adds to `data_received`. -/
def feed (p : FrameParser) (byte : UInt8) : Option (FrameParser × Option ParsedFrame) :=
  if p.state = .data ∧ 2 ^ 16 ≤ p.dataReceived.toNat + 1 then none else some (p.feed byte)

/-- `feed_bytes` over the checked parser. -/
def feedBytes (p : FrameParser) : List UInt8 → Option (FrameParser × List ParsedFrame)
  | [] => some (p, [])
  | b :: rest => do
    let (p, frame) ← feed p b
    let (p, frames) ← feedBytes p rest
    return (p, frame.toList ++ frames)

/-- `DataStore::register`: the old buffer goes, the new one has to be made. -/
def register (s : DataStore Payload) (command : UInt8) (capacity : Nat) :
    Option (DataStore Payload) := do
  let rb ← RingBuffer.Checked.new capacity
  return ⟨Function.update s.buffers command (some rb)⟩

/-- `DataStore::store`. -/
def store (s : DataStore Payload) (command : UInt8) (payload : Payload) :
    Option (DataStore Payload) :=
  match s.buffers command with
  | some rb => do
    let rb ← RingBuffer.Checked.push rb payload
    return ⟨Function.update s.buffers command (some rb)⟩
  | none => some s

/-- `DataStore::read_all`. -/
def readAll (s : DataStore Payload) (command : UInt8) : Option (List Payload) :=
  match s.buffers command with
  | some rb => RingBuffer.Checked.readAll rb
  | none => some []

/-- `DataStore::read_since`. -/
def readSince (s : DataStore Payload) (command : UInt8) (sinceSeq : Nat) :
    Option (List Payload × Nat) :=
  match s.buffers command with
  | some rb => RingBuffer.Checked.readSince rb sinceSeq
  | none => some ([], 0)

/-- DATA for a command with storage is stored, whatever the client waits for. -/
def handleFrame (c : Client) (f : ParsedFrame) : Option (Client × Event) := do
  let (c', event) ← c.handleFrame f
  match f with
  | .data command payload => do
    let store ← store c.store command payload
    return ({ c' with store }, event)
  | _ => return (c', event)

/-- The loop over the frames of one read. -/
def handleFrames (c : Client) : List ParsedFrame → Option (Client × List Action)
  | [] => some (c, [])
  | f :: frames => do
    let (c, event) ← handleFrame c f
    let (c, actions) ← handleFrames c frames
    return (c, .frame f event :: actions)

/-- The loop over the reads of one poll. -/
def readLoop (c : Client) : List ReadResult → Option (Client × List Action)
  | [] => some (c, [])
  | .ok bytes :: reads =>
    if bytes = [] then some (c, [])
    else if bytes.length ≤ readBufSize then do
      let (parser, frames) ← feedBytes c.parser bytes
      let (c, actions) ← handleFrames { c with parser } frames
      if bytes.length < readBufSize then return (c, actions)
      else do
        let (c, more) ← readLoop c reads
        return (c, actions ++ more)
    else none
  | .timedOut :: _ => some (c, [])
  | .error message :: _ => some (c, [.readError message])

/-- `Client::poll`; only the reads touch a counter that can overflow. -/
def poll (lastInstant : Nat) (c : Client) (io : PollInput) : Option (Client × List Action) := do
  let (c, received) ← readLoop c io.reads
  let (c, expired) := c.checkTimeout io.checkAt
  let (c, pushed) ← c.enqueuePeriodicAt lastInstant io.enqueueAt
  let (c, sent) := c.tryFlush io.sentAt io.writeError
  return (c, received ++ expired ++ pushed ++ sent)

/-- A call that registers storage makes a ring buffer, a poll counts, and the others do
neither. -/
def call (lastInstant : Nat) (c : Client) (op : Call) : Option (Client × List Action) :=
  match op with
  | .registerPeriodic command _ storageCount _ | .registerStore command storageCount => do
    let store ← register c.store command storageCount
    let (c, actions) ← c.call lastInstant op
    return ({ c with store }, actions)
  | .poll io => poll lastInstant c io
  | _ => c.call lastInstant op

end Checked

/-! ## Between two calls -/

/-- A `Vec` of this many buffers can be made, and the ring has a slot. -/
def FitsVec (capacity : Nat) : Prop := 0 < capacity ∧ capacity * vecSize ≤ maxAlloc

/-- Every buffer logs and fits a `Vec`, its count is below the word, and the parser is working on
some bytes of the stream. -/
structure Sound (c : Client) : Prop where
  logged : ∃ done, c.store.Mirrors (logs done)
  sized : ∀ command rb, c.store.buffers command = some rb →
    rb.capacity * vecSize ≤ maxAlloc ∧ rb.seq < wordLimit
  parsing : ∃ seg, c.parser.Pending seg
  intervals : ∀ entry ∈ c.periodic, entry.interval ≤ longest

/-- A DATA frame for the command. -/
def isData (command : UInt8) : ParsedFrame → Bool
  | .data d _ => d = command
  | _ => false

/-- The bytes of a poll: up to the first read that does not fill the buffer. -/
def received : List ReadResult → List UInt8
  | .ok bytes :: reads => if bytes.length < readBufSize then bytes else bytes ++ received reads
  | _ => []

/-- The sequence numbers have room for the frames. -/
def Room (c : Client) (frames : List ParsedFrame) : Prop :=
  ∀ command rb, c.store.buffers command = some rb →
    rb.seq + frames.countP (isData command) < wordLimit

/-- What a call must be if it is not to panic. -/
def Admits (c : Client) : Call → Prop
  | .registerPeriodic _ _ capacity _ | .registerStore _ capacity => FitsVec capacity
  | .poll io => Room c (c.parser.feedBytes (received io.reads)).2
  | _ => True

/-- What the transport and the clock promise: a read does not report more than the buffer
holds, and the longest interval can be added to a clock reading. -/
structure PollInput.Real (lastInstant : Nat) (io : PollInput) : Prop where
  reads : ∀ bytes, .ok bytes ∈ io.reads → bytes.length ≤ readBufSize
  clock : io.enqueueAt + longest ≤ lastInstant

/-- A call as it can come from the outside. -/
def Call.Real (lastInstant : Nat) : Call → Prop
  | .registerPeriodic _ interval _ _ => interval ≤ longest
  | .poll io => io.Real lastInstant
  | _ => True

variable {c c' : Client} {lastInstant : Nat}

namespace Checked

/-! ## The parser -/

/-- On a parser that is working on bytes of a stream, its `u16` never overflows. -/
theorem feed_eq {p : FrameParser} {seg : List UInt8} (h : p.Pending seg) (b : UInt8) :
    feed p b = some (p.feed b) ∧ ∃ seg', (p.feed b).1.Pending seg' := by
  refine ⟨if_neg fun hover => ?_, ?_⟩
  · -- fewer bytes have been received than the length says
    obtain ⟨hs, hover⟩ := hover
    rw [FrameParser.Pending, hs] at h
    obtain ⟨_, _, _, _, _, hlen, hrec, hlt, _⟩ := h
    unfold maxPayloadSize at hlen
    omega
  · obtain ⟨_, hout⟩ := FrameParser.feed_pending b h
    cases hf : (p.feed b).2 with
    | none =>
      rw [hf] at hout
      rcases hout with hpend | hsync
      · exact ⟨_, hpend⟩
      · exact ⟨[], FrameParser.pending_of_sync hsync⟩
    | some f =>
      rw [hf] at hout
      exact ⟨[], FrameParser.pending_of_sync hout.2⟩

/-- **The parser does not overflow.** -/
theorem feedBytes_eq :
    ∀ (bytes : List UInt8) {p : FrameParser} {seg : List UInt8}, p.Pending seg →
      feedBytes p bytes = some (p.feedBytes bytes) ∧
        ∃ seg', (p.feedBytes bytes).1.Pending seg' := by
  intro bytes
  induction bytes with
  | nil => exact fun h => ⟨rfl, _, h⟩
  | cons b bytes ih =>
    intro p seg h
    obtain ⟨hfeed, seg₁, h₁⟩ := feed_eq h b
    obtain ⟨hrest, hpend⟩ := ih h₁
    refine ⟨?_, hpend⟩
    simp only [feedBytes, hfeed, Option.bind_eq_bind, Option.bind_some, hrest]
    rfl

/-! ## The storage -/

/-- The buffers of a sound client are those that `RingBuffer` is checked for. -/
theorem fits (h : Sound c) {command : UInt8} {rb : RingBuffer Payload}
    (hb : c.store.buffers command = some rb) :
    ∃ log, RingBuffer.Checked.Fits rb log ∧ log.length = rb.seq := by
  obtain ⟨done, hm⟩ := h.logged
  have hc := hm command
  rw [hb] at hc
  cases hl : logs done command with
  | none => rw [hl] at hc; cases hc
  | some log =>
    rw [hl] at hc
    cases hc with
    | some hrb => exact ⟨log.entries, ⟨hrb.2, (h.sized command rb hb).1⟩, hrb.2.seq_eq.symm⟩

/-- A capacity that a `Vec` can have is registered. -/
theorem register_eq {s : DataStore Payload} {command : UInt8} {capacity : Nat}
    (h : FitsVec capacity) : register s command capacity = s.register command capacity := by
  have hroom := RingBuffer.Checked.withCapacity_eq h.2
  simp only [register, DataStore.register, RingBuffer.Checked.new, RingBuffer.new, if_pos h.1,
    hroom, Option.bind_eq_bind, Option.bind_some, Option.pure_def]

/-- Any other one panics. -/
theorem register_none {s : DataStore Payload} {command : UInt8} {capacity : Nat}
    (h : ¬ FitsVec capacity) : register s command capacity = none := by
  have hnew : (RingBuffer.Checked.new capacity : Option (RingBuffer Payload)) = none := by
    rw [← Option.not_isSome_iff_eq_none, RingBuffer.Checked.new_isSome]
    exact h
  rw [register, hnew]
  rfl

/-- A payload is stored as long as its number is below the word. -/
theorem store_eq (h : Sound c) {command : UInt8}
    (hroom : ∀ rb, c.store.buffers command = some rb → rb.seq + 1 < wordLimit)
    (payload : Payload) : store c.store command payload = c.store.store command payload := by
  unfold store DataStore.store
  cases hb : c.store.buffers command with
  | none => rfl
  | some rb =>
    obtain ⟨log, hfits, hlen⟩ := fits h hb
    have hseq : log.length + 1 < wordLimit := by rw [hlen]; exact hroom rb hb
    simp only [RingBuffer.Checked.push_same hfits hseq]

/-- At the last number it panics. -/
theorem store_none (h : Sound c) {command : UInt8} {rb : RingBuffer Payload}
    (hb : c.store.buffers command = some rb) (hfull : ¬ rb.seq + 1 < wordLimit)
    (payload : Payload) : store c.store command payload = none := by
  obtain ⟨log, hfits, hlen⟩ := fits h hb
  have hseq : ¬ log.length + 1 < wordLimit := by rw [hlen]; exact hfull
  simp only [store, hb, RingBuffer.Checked.push_full hfits hseq]
  rfl

/-! ## Frames -/

/-- The capacity and the sequence number of a command's storage. -/
def size (s : DataStore Payload) (command : UInt8) : Option (Nat × Nat) :=
  (s.buffers command).map fun rb => (rb.capacity, rb.seq)

/-- A condition on a buffer is one on its capacity and count. -/
theorem forall_buffer {s : DataStore Payload} {command : UInt8} {P : Nat → Nat → Prop} :
    (∀ rb, s.buffers command = some rb → P rb.capacity rb.seq) ↔
      ∀ capacity seq, size s command = some (capacity, seq) → P capacity seq := by
  unfold size
  cases s.buffers command with
  | none => exact ⟨fun _ => nofun, fun _ => nofun⟩
  | some rb =>
    refine ⟨fun h capacity seq hsize => ?_, fun h rb' hrb => ?_⟩
    · cases hsize
      exact h rb rfl
    · cases hrb
      exact h _ _ rfl

/-- Storing a payload counts it, for its command only. -/
theorem store_size {s s' : DataStore Payload} {command : UInt8} {payload : Payload}
    (h : s.store command payload = some s') (d : UInt8) :
    size s' d = (size s d).map fun p => (p.1, p.2 + if command = d then 1 else 0) := by
  unfold DataStore.store at h
  unfold size
  cases hb : s.buffers command with
  | none =>
    rw [hb] at h
    cases h
    by_cases hd : command = d
    · rw [← hd, hb]
      rfl
    · simp only [if_neg hd, Option.map_map]
      rfl
  | some rb =>
    rw [hb] at h
    simp only [Option.bind_eq_bind, Option.bind_eq_some_iff, Option.pure_def,
      Option.some.injEq] at h
    obtain ⟨rb', hpush, rfl⟩ := h
    by_cases hd : command = d
    · subst hd
      unfold RingBuffer.push at hpush
      split at hpush
      · cases hpush
        simp only [Function.update_self, hb, Option.map_some, if_true]
      · cases hpush
    · simp only [Function.update_of_ne (Ne.symm hd), if_neg hd, Option.map_map]
      rfl

/-- DATA is stored, or it is for no buffer. -/
theorem handleData_store {command : UInt8} {payload : Payload} {event : Event}
    (h : c.handleFrame (.data command payload) = some (c', event)) :
    c.store.store command payload = some c'.store := by
  obtain ⟨store, hstore, _, rfl⟩ | ⟨_, _, _, _, hunreg, _, rfl⟩ := handleData_spec h
  · exact hstore
  · exact DataStore.store_unregistered hunreg payload

/-- A frame is counted if it is DATA for the command. -/
theorem handleFrame_size {f : ParsedFrame} {event : Event}
    (h : c.handleFrame f = some (c', event)) (d : UInt8) :
    size c'.store d
      = (size c.store d).map fun p => (p.1, p.2 + if isData d f then 1 else 0) := by
  have hsame : c'.store = c.store → isData d f = false → size c'.store d
      = (size c.store d).map fun p => (p.1, p.2 + if isData d f then 1 else 0) := by
    intro hstore hdata
    simp [hstore, hdata]
  cases f with
  | data command payload =>
    rw [store_size (handleData_store h) d]
    simp [isData]
  | ack cmd =>
    obtain ⟨_, _, heq, _⟩ | ⟨_, hstore⟩ := handleFrame_store h
    · obtain ⟨_, he⟩ := handleAck_spec c cmd
      rw [show c.handleAck cmd = (c', event) from Option.some.inj h, heq] at he
      rcases he with he | ⟨_, _, _, _, he⟩ <;> cases he
    · exact hsame hstore rfl
  | nack cmd =>
    obtain ⟨_, _, heq, _⟩ | ⟨_, hstore⟩ := handleFrame_store h
    · obtain ⟨_, he⟩ := handleNack_spec c cmd
      rw [show c.handleNack cmd = (c', event) from Option.some.inj h, heq] at he
      rcases he with he | ⟨_, _, _, _, he⟩ <;> cases he
    · exact hsame hstore rfl
  | notification payload =>
    cases h
    exact hsame rfl rfl

/-- A frame takes its own room. -/
theorem room_cons {f : ParsedFrame} {event : Event} (h : c.handleFrame f = some (c', event))
    (frames : List ParsedFrame) : Room c (f :: frames) ↔ Room c' frames := by
  refine forall_congr' fun d => ?_
  rw [@forall_buffer c.store d fun _ seq => seq + (f :: frames).countP (isData d) < wordLimit,
    @forall_buffer c'.store d fun _ seq => seq + frames.countP (isData d) < wordLimit,
    handleFrame_size h d]
  cases size c.store d with
  | none => exact ⟨fun _ => nofun, fun _ => nofun⟩
  | some p =>
    simp only [Option.map_some, Option.some.injEq, List.countP_cons]
    refine ⟨fun hroom capacity seq hsize => ?_, fun hroom capacity seq hsize => ?_⟩
    · cases hsize
      have hle := hroom p.1 p.2 rfl
      omega
    · cases hsize
      have hle := hroom _ _ rfl
      omega

/-- What a frame leaves to do. -/
theorem sound_frame (h : Sound c) {f : ParsedFrame} {event : Event}
    (hf : c.handleFrame f = some (c', event)) (hroom : Room c' []) : Sound c' := by
  obtain ⟨done, hm⟩ := h.logged
  obtain ⟨hc', _⟩ := handleFrame_spec hf
  refine ⟨⟨_, Step.mirrors hm (.frame hf)⟩, fun command rb hrb => ?_, ?_, ?_⟩
  · refine ⟨?_, hroom command rb hrb⟩
    refine (@forall_buffer c'.store command fun capacity _ => capacity * vecSize ≤ maxAlloc).mpr
      (fun capacity seq hsize => ?_) rb hrb
    rw [handleFrame_size hf command] at hsize
    obtain ⟨p, hp, heq⟩ := Option.map_eq_some_iff.mp hsize
    cases heq
    exact (@forall_buffer c.store command fun capacity _ => capacity * vecSize ≤ maxAlloc).mp
      (fun rb hb => (h.sized command rb hb).1) _ _ hp
  · rw [hc']
    exact h.parsing
  · rw [hc']
    exact h.intervals

/-- Room for some frames is room for the first of them. -/
theorem room_head {f : ParsedFrame} {frames : List ParsedFrame} (h : Room c (f :: frames)) :
    Room c [f] := by
  intro command rb hb
  have hroom := h command rb hb
  rw [List.countP_cons] at hroom
  rw [List.countP_cons, List.countP_nil]
  omega

/-- A frame is handled as long as there is room. -/
theorem handleFrame_eq (h : Sound c) {f : ParsedFrame} (hroom : Room c [f]) :
    handleFrame c f = c.handleFrame f := by
  unfold handleFrame
  cases hf : c.handleFrame f with
  | none => rfl
  | some r =>
    obtain ⟨c', event⟩ := r
    cases f with
    | data command payload =>
      have hstore : store c.store command payload = some c'.store := by
        rw [store_eq h (fun rb hb => by simpa [isData] using hroom command rb hb)]
        exact handleData_store hf
      simp only [Option.bind_eq_bind, Option.bind_some, hstore]
      rfl
    | _ => rfl

/-- Without room the frame makes the store panic. -/
theorem handleFrame_none (h : Sound c) {f : ParsedFrame} (hroom : ¬ Room c [f]) :
    handleFrame c f = none := by
  obtain ⟨command, hroom⟩ := not_forall.mp hroom
  obtain ⟨rb, hroom⟩ := not_forall.mp hroom
  obtain ⟨hb, hfull⟩ := Classical.not_imp.mp hroom
  have hseq := (h.sized command rb hb).2
  -- only DATA for the command fills the last place
  cases f with
  | data d payload =>
    by_cases hd : d = command
    · subst hd
      have hnone := store_none h hb (by simpa [isData] using hfull) payload
      unfold handleFrame
      cases c.handleFrame (.data d payload) with
      | none => rfl
      | some r => simp only [Option.bind_eq_bind, Option.bind_some, hnone, Option.bind_none]
    · exact absurd hseq (by simpa [isData, hd] using hfull)
  | _ => exact absurd hseq (by simpa [isData] using hfull)

/-- **Frames are handled if there is room for them**, and only then. -/
theorem handleFrames_eq :
    ∀ (frames : List ParsedFrame) {c : Client}, Sound c →
      (Room c frames → ∃ c' actions, handleFrames c frames = some (c', actions) ∧
        c.handleFrames frames = some (c', actions) ∧ Sound c' ∧
          ∀ later, Room c (frames ++ later) ↔ Room c' later) ∧
      (¬ Room c frames → handleFrames c frames = none) := by
  intro frames
  induction frames with
  | nil =>
    exact fun h => ⟨fun _ => ⟨_, _, rfl, rfl, h, fun _ => Iff.rfl⟩, fun hroom =>
      absurd (fun command rb hb => (h.sized command rb hb).2) hroom⟩
  | cons f frames ih =>
    intro c h
    obtain ⟨done, hm⟩ := h.logged
    obtain ⟨c₁, event, hf⟩ := handleFrame_isSome hm f
    by_cases hone : Room c [f]
    · have hsame : handleFrame c f = some (c₁, event) := (handleFrame_eq h hone).trans hf
      obtain ⟨hfits, hfull⟩ := ih (sound_frame h hf ((room_cons hf []).mp hone))
      refine ⟨fun hroom => ?_, fun hroom => ?_⟩
      · obtain ⟨c', more, hrest, hrest', h', hlater⟩ := hfits ((room_cons hf frames).mp hroom)
        refine ⟨c', .frame f event :: more, ?_, ?_, h', fun later =>
          (room_cons hf (frames ++ later)).trans (hlater later)⟩
        · simp only [handleFrames, hsame, Option.bind_eq_bind, Option.bind_some, hrest,
            Option.pure_def]
        · simp only [Client.handleFrames, hf, Option.bind_eq_bind, Option.bind_some, hrest',
            Option.pure_def]
      · simp only [handleFrames, hsame, Option.bind_eq_bind, Option.bind_some,
          hfull fun hr => hroom ((room_cons hf frames).mpr hr), Option.bind_none]
    · refine ⟨fun hroom => absurd (room_head hroom) hone, fun _ => ?_⟩
      rw [handleFrames, handleFrame_none h hone]
      rfl

/-! ## A poll -/

theorem room_nil (h : Sound c) : Room c [] := fun command rb hb => (h.sized command rb hb).2

/-- Room for more frames is room for the first of them. -/
theorem room_append {frames later : List ParsedFrame} (h : Room c (frames ++ later)) :
    Room c frames := by
  intro command rb hb
  have hroom := h command rb hb
  rw [List.countP_append] at hroom
  omega

/-- The parser may go on with the stream. -/
theorem sound_withParser (h : Sound c) {parser : FrameParser} {seg : List UInt8}
    (hp : parser.Pending seg) : Sound { c with parser } :=
  ⟨h.logged, h.sized, ⟨seg, hp⟩, h.intervals⟩

/-- **The loop of reads** ends, unless a sequence number runs out of room. -/
theorem readLoop_eq :
    ∀ (reads : List ReadResult) {c : Client}, Sound c →
      (∀ bytes, .ok bytes ∈ reads → bytes.length ≤ readBufSize) →
      (Room c (c.parser.feedBytes (received reads)).2 → ∃ c' actions,
        readLoop c reads = some (c', actions) ∧ c.readLoop reads = some (c', actions) ∧
          Sound c') ∧
      (¬ Room c (c.parser.feedBytes (received reads)).2 → readLoop c reads = none) := by
  intro reads
  induction reads with
  | nil => exact fun h _ => ⟨fun _ => ⟨_, _, rfl, rfl, h⟩, fun hroom => absurd (room_nil h) hroom⟩
  | cons read reads ih =>
    intro c h hreal
    cases read with
    | timedOut =>
      exact ⟨fun _ => ⟨_, _, rfl, rfl, h⟩, fun hroom => absurd (room_nil h) hroom⟩
    | error message =>
      exact ⟨fun _ => ⟨_, _, rfl, rfl, h⟩, fun hroom => absurd (room_nil h) hroom⟩
    | ok bytes =>
      have hle := hreal bytes List.mem_cons_self
      -- an empty read and a short one end the loop, a full one goes on
      by_cases hempty : bytes = []
      · subst hempty
        exact ⟨fun _ => ⟨_, _, rfl, rfl, h⟩, fun hroom => absurd (room_nil h) hroom⟩
      obtain ⟨seg, hseg⟩ := h.parsing
      obtain ⟨hfed, seg', hseg'⟩ := feedBytes_eq bytes hseg
      obtain ⟨hfits, hfull⟩ :=
        handleFrames_eq (c.parser.feedBytes bytes).2 (sound_withParser h hseg')
      by_cases hshort : bytes.length < readBufSize
      · -- the last read of the poll
        simp only [received, if_pos hshort, readLoop, Client.readLoop, if_neg hempty, if_pos hle,
          hfed]
        refine ⟨fun hroom => ?_, fun hroom => ?_⟩
        · obtain ⟨c', actions, hrun, hrun', h', _⟩ := hfits hroom
          exact ⟨c', actions, by rw [Option.bind_eq_bind, Option.bind_some, hrun]; rfl,
            by rw [hrun']; rfl, h'⟩
        · rw [Option.bind_eq_bind, Option.bind_some, hfull hroom]
          rfl
      · simp only [received, if_neg hshort, readLoop, Client.readLoop, if_neg hempty, if_pos hle,
          hfed, FrameParser.feedBytes_append]
        -- room for the whole stream is room for its beginning, then for the rest
        by_cases hfirst : Room c (c.parser.feedBytes bytes).2
        · obtain ⟨c₁, actions, hrun, hrun', h₁, hlater⟩ := hfits hfirst
          have hparser : c₁.parser = (c.parser.feedBytes bytes).1 := by
            rw [(handleFrames_spec hrun').1]
          obtain ⟨hmore, hstop⟩ := ih h₁ fun bytes hmem => hreal bytes (List.mem_cons_of_mem _ hmem)
          rw [hparser] at hmore hstop
          refine ⟨fun hroom => ?_, fun hroom => ?_⟩
          · obtain ⟨c', more, hrest, hrest', h'⟩ := hmore ((hlater _).mp hroom)
            refine ⟨c', actions ++ more, ?_, ?_, h'⟩
            · simp only [Option.bind_eq_bind, Option.bind_some, hrun, hrest, Option.pure_def]
            · simp only [Option.bind_eq_bind, Option.bind_some, hrun', hrest', Option.pure_def]
          · simp only [Option.bind_eq_bind, Option.bind_some, hrun,
              hstop fun hr => hroom ((hlater _).mpr hr), Option.bind_none]
        · refine ⟨fun hroom => absurd (room_append hroom) hfirst, fun _ => ?_⟩
          rw [Option.bind_eq_bind, Option.bind_some, hfull hfirst]
          rfl

/-- A timeout touches what is pending and nothing else. -/
theorem checkTimeout_kept (c : Client) (now : Nat) :
    (c.checkTimeout now).1 = { c with pending := (c.checkTimeout now).1.pending } := by
  unfold checkTimeout
  split
  next => split <;> rfl
  next => rfl

/-- A flush touches the queue and what is pending. -/
theorem tryFlush_kept (c : Client) (now : Nat) (error : Option String) :
    (c.tryFlush now error).1
      = { c with queue := (c.tryFlush now error).1.queue,
                 pending := (c.tryFlush now error).1.pending } := by
  unfold tryFlush
  split
  next => rfl
  next =>
    split
    next => split <;> rfl
    next => rfl

/-- The rest of a poll leaves the parser and the storage as they are. -/
theorem rest_isSome (h : Sound c) {io : PollInput} (hio : io.Real lastInstant) :
    ∃ c₁ pushed, (c.checkTimeout io.checkAt).1.enqueuePeriodicAt lastInstant io.enqueueAt
        = some (c₁, pushed) ∧ Sound (c₁.tryFlush io.sentAt io.writeError).1 := by
  have hroom : ∀ entry ∈ (c.checkTimeout io.checkAt).1.periodic,
      io.enqueueAt + entry.interval ≤ lastInstant := by
    rw [checkTimeout_periodic]
    intro entry hentry
    have hle := h.intervals entry hentry
    have hclock := hio.clock
    omega
  obtain ⟨⟨periodic, queue, pushed⟩, hr⟩ :=
    @enqueueEntries_isSome _ _ _ (c.checkTimeout io.checkAt).1.queue hroom
  have htick := enqueueEntries_tick hr
  refine ⟨{ (c.checkTimeout io.checkAt).1 with periodic, queue }, pushed, ?_, ?_⟩
  · rw [enqueuePeriodicAt, hr]
    rfl
  · rw [tryFlush_kept, checkTimeout_kept]
    refine ⟨h.logged, h.sized, h.parsing, ?_⟩
    show ∀ entry ∈ periodic, entry.interval ≤ longest
    rw [htick, checkTimeout_periodic]
    intro entry hentry
    obtain ⟨before, hbefore, rfl⟩ := List.mem_map.mp hentry
    exact h.intervals before hbefore

/-- **A poll does not panic** unless a sequence number runs out of room. -/
theorem poll_eq (h : Sound c) {io : PollInput} (hio : io.Real lastInstant) :
    (Room c (c.parser.feedBytes (received io.reads)).2 → ∃ c' actions,
      poll lastInstant c io = some (c', actions) ∧
        c.poll lastInstant io = some (c', actions) ∧ Sound c') ∧
    (¬ Room c (c.parser.feedBytes (received io.reads)).2 → poll lastInstant c io = none) := by
  obtain ⟨hfits, hfull⟩ := readLoop_eq io.reads h hio.reads
  refine ⟨fun hroom => ?_, fun hroom => ?_⟩
  · obtain ⟨c₁, done, hread, hread', h₁⟩ := hfits hroom
    obtain ⟨c₂, pushed, hpushed, h₂⟩ := rest_isSome h₁ hio
    refine ⟨_, done ++ (c₁.checkTimeout io.checkAt).2 ++ pushed
      ++ (c₂.tryFlush io.sentAt io.writeError).2, ?_, ?_, h₂⟩
    · simp only [poll, hread, hpushed, Option.bind_eq_bind, Option.bind_some, Option.pure_def]
    · simp only [Client.poll, hread', hpushed, Option.bind_eq_bind, Option.bind_some,
        Option.pure_def]
  · rw [poll, hfull hroom]
    rfl

/-! ## A call -/

/-- A new client is sound. -/
theorem sound_withConfig (config : ClientConfig) : Sound (withConfig config) :=
  ⟨⟨[], mirrors_withConfig config⟩, fun _ _ => nofun, ⟨[], FrameParser.pending_of_sync rfl⟩, nofun⟩

/-- So is a client with one command more, if its buffer can be made. -/
theorem sound_register (h : Sound c) {command : UInt8} {capacity : Nat} (hfits : FitsVec capacity)
    {periodic : List PeriodicEntry} (hperiodic : ∀ entry ∈ periodic, entry.interval ≤ longest) :
    ∃ store, c.store.register command capacity = some store ∧
      Sound { c with store, periodic } := by
  obtain ⟨done, hm⟩ := h.logged
  have hstore : c.store.register command capacity = some ⟨Function.update c.store.buffers command
      (some ⟨List.replicate capacity default, 0, 0, capacity, 0⟩)⟩ := by
    simp only [DataStore.register, RingBuffer.new, if_pos hfits.1, Option.bind_eq_bind,
      Option.bind_some, Option.pure_def]
  have hmirrors := Step.mirrors hm (.register hstore)
  refine ⟨_, hstore, ⟨_, hmirrors⟩, fun d rb hb => ?_, h.parsing, hperiodic⟩
  by_cases hd : d = command
  · subst hd
    simp only [Function.update_self, Option.some.injEq] at hb
    subst hb
    exact ⟨hfits.2, by unfold wordLimit; exact Nat.two_pow_pos 64⟩
  · simp only [Function.update_of_ne hd] at hb
    exact h.sized d rb hb

/-- **A call panics if the client does not admit it**, and does what it should if it does. -/
theorem call_eq (h : Sound c) {op : Call} (hop : op.Real lastInstant) :
    (Admits c op → ∃ c' actions, call lastInstant c op = some (c', actions) ∧
      c.call lastInstant op = some (c', actions) ∧ Sound c') ∧
    (¬ Admits c op → call lastInstant c op = none) := by
  -- what is checked does not depend on the queue
  have hsame : ∀ {queue : PriorityQueue}, Sound { c with queue } := fun {_} =>
    ⟨h.logged, h.sized, h.parsing, h.intervals⟩
  have hkept : ∀ command, ∀ entry ∈ c.periodic.filter (·.command ≠ command),
      entry.interval ≤ longest :=
      fun _ entry hentry => h.intervals entry (List.mem_filter.mp hentry).1
  cases op with
  | registerPeriodic command interval capacity responseTimeout =>
    refine ⟨fun hfits => ?_, fun hbig => ?_⟩
    · have hentry : (⟨command, interval, "periodic_" ++ toString command, none,
          responseTimeout⟩ : PeriodicEntry).interval ≤ longest := hop
      obtain ⟨store, hstore, h'⟩ := @sound_register c h command capacity hfits _
        (List.forall_mem_append.mpr ⟨hkept command, List.forall_mem_singleton.mpr hentry⟩)
      refine ⟨_, [.register command capacity], ?_, ?_, h'⟩
      · simp only [call, register_eq hfits, Client.call, addPeriodic, hstore]
        rfl
      · simp only [Client.call, addPeriodic, hstore]
        rfl
    · simp only [call, register_none hbig]
      rfl
  | registerStore command capacity =>
    refine ⟨fun hfits => ?_, fun hbig => ?_⟩
    · obtain ⟨store, hstore, h'⟩ := @sound_register c h command capacity hfits _ h.intervals
      refine ⟨_, [.register command capacity], ?_, ?_, h'⟩
      · simp only [call, register_eq hfits, Client.call, hstore]
        rfl
      · simp only [Client.call, hstore]
        rfl
    · simp only [call, register_none hbig]
      rfl
  | poll io => exact poll_eq h hop
  | unregisterPeriodic command =>
    exact ⟨fun _ => ⟨_, _, rfl, rfl, h.logged, h.sized, h.parsing, hkept command⟩,
      fun hno => absurd trivial hno⟩
  | clearStore =>
    obtain ⟨done, hm⟩ := h.logged
    refine ⟨fun _ => ⟨_, _, rfl, rfl, ⟨_, Step.mirrors hm (.clearAll c)⟩, fun d rb hb => ?_,
      h.parsing, h.intervals⟩, fun hno => absurd trivial hno⟩
    obtain ⟨old, hold, rfl⟩ := Option.map_eq_some_iff.mp hb
    exact ⟨(h.sized d old hold).1, Nat.two_pow_pos 64⟩
  | _ => exact ⟨fun _ => ⟨_, _, rfl, rfl, hsame⟩, fun hno => absurd trivial hno⟩

/-- What is stored can be read. -/
theorem readAll_isSome (h : Sound c) (command : UInt8) : ∃ entries,
    readAll c.store command = some entries := by
  unfold readAll
  cases hb : c.store.buffers command with
  | none => exact ⟨_, rfl⟩
  | some rb =>
    obtain ⟨log, hfits, _⟩ := fits h hb
    exact ⟨_, RingBuffer.Checked.readAll_eq hfits⟩

/-- Reading never panics. -/
theorem readSince_isSome (h : Sound c) (command : UInt8) (since : Nat) : ∃ entries,
    readSince c.store command since = some entries := by
  unfold readSince
  cases hb : c.store.buffers command with
  | none => exact ⟨_, rfl⟩
  | some rb =>
    obtain ⟨log, hfits, _⟩ := fits h hb
    exact ⟨_, RingBuffer.Checked.readSince_eq hfits since⟩

end Checked

end ProtoEmb.Client
