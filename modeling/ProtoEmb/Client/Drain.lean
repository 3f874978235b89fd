import ProtoEmb.Client.Mirror
import ProtoEmb.Client.Schedule

/-!
# A poll drains an in-memory transport

`MemoryTransport` of `transport.rs` and the `BufferTransport` of `wasm.rs` hand out as many of their
bytes as the buffer has room for. The loop of `poll` over such a transport is `readMemory`;
it ends with the transport empty, and where its reads cut the bytes does not matter: it
handles the frames that the parser finds in all of them (`readMemory_eq`).
-/

namespace ProtoEmb.Client

open ProtoEmb.Framing

structure MemoryTransport where
  tx : List UInt8
  rx : List UInt8
  deriving DecidableEq, Repr

namespace MemoryTransport

/-- The bytes that are read into a buffer of this length. -/
def read (t : MemoryTransport) (len : Nat) : List UInt8 × MemoryTransport :=
  (t.rx.take len, { t with rx := t.rx.drop len })

def writeAll (t : MemoryTransport) (data : List UInt8) : MemoryTransport :=
  { t with tx := t.tx ++ data }

end MemoryTransport

/-- Step 1 of `poll`: read until a read comes back empty or does not fill the buffer. -/
def readMemory (c : Client) (t : MemoryTransport) :
    Option (Client × MemoryTransport × List Action) :=
  let bytes := (t.read readBufSize).1
  let rest := (t.read readBufSize).2
  if bytes = [] then some (c, rest, [])
  else do
    let r := c.parser.feedBytes bytes
    let (c, actions) ← { c with parser := r.1 }.handleFrames r.2
    if bytes.length < readBufSize then return (c, rest, actions)
    else do
      let (c, rest, more) ← c.readMemory rest
      return (c, rest, actions ++ more)
  termination_by t.rx.length
  decreasing_by
    rename_i hfilled _
    have hsome : t.rx ≠ [] := fun hnil => hfilled (by
      show (t.rx.take readBufSize) = []
      rw [hnil, List.take_nil])
    show (t.rx.drop readBufSize).length < t.rx.length
    have hpos := List.length_pos_iff.mpr hsome
    rw [List.length_drop, readBufSize]
    omega

/-- What the actions put on the wire. -/
def onWire (actions : List Action) : List UInt8 :=
  actions.flatMap fun a =>
    match a with
    | .write bytes _ _ => bytes
    | _ => []

/-- `poll` over the transport, whose writes do not fail. -/
def pollMemory (lastInstant : Nat) (c : Client) (t : MemoryTransport)
    (checkAt enqueueAt sentAt : Nat) : Option (Client × MemoryTransport × List Action) := do
  let (c, t, received) ← c.readMemory t
  let (c, expired) := c.checkTimeout checkAt
  let (c, pushed) ← c.enqueuePeriodicAt lastInstant enqueueAt
  let (c, sent) := c.tryFlush sentAt none
  return (c, t.writeAll (onWire sent), received ++ expired ++ pushed ++ sent)

/-! ## Handling frames does not look at the parser -/

theorem autoStore_withParser (c : Client) (parser : FrameParser) (cmd : UInt8) (payload : Payload) :
    autoStore { c with parser } cmd payload
      = (c.autoStore cmd payload).map fun c => { c with parser } := by
  unfold autoStore
  split
  next => cases c.store.store cmd payload <;> rfl
  next => rfl

theorem handleFrame_withParser (c : Client) (parser : FrameParser) (f : ParsedFrame) :
    { c with parser }.handleFrame f
      = (c.handleFrame f).map fun r => ({ r.1 with parser }, r.2) := by
  obtain ⟨before, queue, config, pending, periodic, store⟩ := c
  cases f with
  | ack cmd =>
    cases pending with
    | none => rfl
    | some p =>
      simp only [handleFrame, handleAck, Option.map_some]
      split_ifs <;> rfl
  | nack cmd =>
    cases pending with
    | none => rfl
    | some p =>
      simp only [handleFrame, handleNack, Option.map_some]
      split_ifs <;> rfl
  | data cmd payload =>
    have hauto :=
      autoStore_withParser ⟨before, queue, config, none, periodic, store⟩ parser cmd payload
    cases pending with
    | none =>
      simp only [handleFrame, handleData, hauto]
      cases autoStore ⟨before, queue, config, none, periodic, store⟩ cmd payload <;> rfl
    | some p =>
      simp only [handleFrame, handleData, hauto]
      split_ifs
      · cases autoStore ⟨before, queue, config, none, periodic, store⟩ cmd payload <;> rfl
      · cases store.store cmd payload <;> rfl
      · rfl
      · rfl
  | notification payload => rfl

theorem handleFrames_withParser (parser : FrameParser) :
    ∀ (frames : List ParsedFrame) (c : Client), { c with parser }.handleFrames frames
      = (c.handleFrames frames).map fun r => ({ r.1 with parser }, r.2) := by
  intro frames
  induction frames with
  | nil => exact fun _ => rfl
  | cons f frames ih =>
    intro c
    rw [handleFrames, handleFrame_withParser, handleFrames]
    cases c.handleFrame f with
    | none => rfl
    | some r =>
      simp only [Option.map_some, Option.bind_eq_bind, Option.bind_some, ih]
      cases r.1.handleFrames frames <;> rfl

theorem handleFrames_append :
    ∀ (frames more : List ParsedFrame) (c : Client), c.handleFrames (frames ++ more)
      = (c.handleFrames frames).bind fun r =>
        (r.1.handleFrames more).map fun r' => (r'.1, r.2 ++ r'.2) := by
  intro frames more
  induction frames with
  | nil =>
    intro c
    rw [List.nil_append, handleFrames, Option.bind_some]
    cases c.handleFrames more <;> rfl
  | cons f frames ih =>
    intro c
    rw [List.cons_append, handleFrames, handleFrames]
    cases c.handleFrame f with
    | none => rfl
    | some r =>
      simp only [Option.bind_eq_bind, Option.bind_some, ih]
      cases r.1.handleFrames frames with
      | none => rfl
      | some r' =>
        simp only [Option.bind_some, Option.pure_def]
        cases r'.1.handleFrames more <;> rfl

/-! ## The loop -/

/-- **Where the reads cut the bytes does not matter**, and none is left. -/
theorem readMemory_eq (c : Client) (t : MemoryTransport) :
    c.readMemory t = (handleFrames { c with parser := (c.parser.feedBytes t.rx).1 }
      (c.parser.feedBytes t.rx).2).map fun r => (r.1, { t with rx := [] }, r.2) := by
  induction hlen : t.rx.length using Nat.strongRecOn generalizing c t with
  | ind n ih =>
    unfold readMemory
    -- what is left of the bytes gets shorter with every full read
    by_cases hempty : t.rx = []
    · have hread : (t.read readBufSize).1 = [] := by
        show t.rx.take readBufSize = []
        rw [hempty, List.take_nil]
      have hrest : (t.read readBufSize).2 = { t with rx := [] } := by
        show { t with rx := t.rx.drop readBufSize } = _
        rw [hempty, List.drop_nil]
      simp only [hread, if_true, hrest, hempty, FrameParser.feedBytes, handleFrames,
        Option.map_some]
    · have hfilled : (t.read readBufSize).1 ≠ [] := fun hnil => hempty (by
        have hcases := List.take_eq_nil_iff.mp hnil
        exact hcases.resolve_left (by decide))
      simp only [if_neg hfilled]
      by_cases hshort : t.rx.length < readBufSize
      · -- the first read takes everything
        have hread : (t.read readBufSize).1 = t.rx := List.take_of_length_le (Nat.le_of_lt hshort)
        have hrest : (t.read readBufSize).2 = { t with rx := [] } := by
          show { t with rx := t.rx.drop readBufSize } = _
          rw [List.drop_of_length_le (Nat.le_of_lt hshort)]
        simp only [hread, hrest, if_pos hshort]
        cases handleFrames { c with parser := (c.parser.feedBytes t.rx).1 }
          (c.parser.feedBytes t.rx).2 <;> rfl
      · -- the buffer is full, and there may be more
        have hfull : ¬ (t.read readBufSize).1.length < readBufSize := by
          show ¬ (t.rx.take readBufSize).length < readBufSize
          rw [List.length_take, Nat.min_eq_left (Nat.le_of_not_lt hshort)]
          exact Nat.lt_irrefl _
        obtain ⟨bytes, rest, hbytes, hrest⟩ : ∃ bytes rest, bytes = (t.read readBufSize).1 ∧
            rest = (t.read readBufSize).2 := ⟨_, _, rfl, rfl⟩
        have hcut : t.rx = bytes ++ rest.rx := by
          rw [hbytes, hrest]
          exact (List.take_append_drop readBufSize t.rx).symm
        have hless : rest.rx.length < n := by
          have hpos : 0 < bytes.length := List.length_pos_iff.mpr (by rw [hbytes]; exact hfilled)
          rw [← hlen, hcut, List.length_append]
          omega
        have htx : ({ rest with rx := [] } : MemoryTransport) = { t with rx := [] } := by
          rw [hrest]
          rfl
        rw [← hbytes] at hfull
        rw [hcut, FrameParser.feedBytes_append]
        simp only [← hbytes, ← hrest, if_neg hfull, handleFrames_append]
        rw [handleFrames_withParser (c.parser.feedBytes bytes).1 _ c,
          handleFrames_withParser ((c.parser.feedBytes bytes).1.feedBytes rest.rx).1 _ c]
        -- a panic in the first read is one in the whole; otherwise the rest is as if it came alone
        cases c.handleFrames (c.parser.feedBytes bytes).2 with
        | none => rfl
        | some r =>
          have hih := ih rest.rx.length hless
            { r.1 with parser := (c.parser.feedBytes bytes).1 } rest rfl
          simp only [Option.map_some, Option.bind_eq_bind, Option.bind_some, hih, htx]
          cases handleFrames { r.1 with
            parser := ((c.parser.feedBytes bytes).1.feedBytes rest.rx).1 }
            ((c.parser.feedBytes bytes).1.feedBytes rest.rx).2 <;> rfl

/-! ## The poll -/

/-- A frame is handled without a panic. -/
theorem handleFrame_isSome {c : Client} {l : Logs Payload} (h : c.store.Mirrors l)
    (f : ParsedFrame) : ∃ c' event, c.handleFrame f = some (c', event) := by
  have hstore : ∀ cmd payload, ∃ s, c.store.store cmd payload = some s := by
    intro cmd payload
    obtain ⟨s, hs, _⟩ := h.store cmd payload
    exact ⟨s, hs⟩
  cases f with
  | data cmd payload =>
    obtain ⟨s, hs⟩ := hstore cmd payload
    have hauto : ∀ pending, ∃ c', autoStore { c with pending } cmd payload = some c' := by
      intro pending
      unfold autoStore
      split
      next => exact ⟨_, by rw [hs]; rfl⟩
      next => exact ⟨_, rfl⟩
    simp only [handleFrame, handleData]
    cases hp : c.pending with
    | none =>
      obtain ⟨c', hc'⟩ := hauto none
      rw [← hp] at hc'
      exact ⟨c', _, by rw [hc']; rfl⟩
    | some p =>
      simp only
      split
      next =>
        obtain ⟨c', hc'⟩ := hauto none
        exact ⟨c', _, by rw [hc']; rfl⟩
      next =>
        split
        next => exact ⟨_, _, by rw [hs]; rfl⟩
        next => split <;> exact ⟨_, _, rfl⟩
  | _ => exact ⟨_, _, rfl⟩

theorem handleFrames_isSome :
    ∀ (frames : List ParsedFrame) {c : Client} {pre : List Action}, c.store.Mirrors (logs pre) →
      ∃ c' actions, c.handleFrames frames = some (c', actions) := by
  intro frames
  induction frames with
  | nil => exact fun _ => ⟨_, _, rfl⟩
  | cons f frames ih =>
    intro c pre h
    obtain ⟨c₁, event, hf⟩ := handleFrame_isSome h f
    obtain ⟨c', actions, hrest⟩ := ih (Step.mirrors h (.frame hf))
    exact ⟨c', .frame f event :: actions, by rw [handleFrames, hf]; simp [hrest]⟩

/-- The rest of a poll: no frame is handled. -/
theorem rest_no_frame {lastInstant : Nat} {c c' : Client} {checkAt enqueueAt : Nat}
    {pushed : List Action} (sentAt : Nat)
    (h : (c.checkTimeout checkAt).1.enqueuePeriodicAt lastInstant enqueueAt = some (c', pushed))
    (f : ParsedFrame) (event : Event) :
    .frame f event ∉ (c.checkTimeout checkAt).2 ++ pushed ++ (c'.tryFlush sentAt none).2 := by
  intro hmem
  simp only [enqueuePeriodicAt, Option.bind_eq_bind, Option.bind_eq_some_iff, Option.pure_def,
    Option.some.injEq, Prod.mk.injEq] at h
  obtain ⟨⟨periodic, queue, _⟩, hentries, _, rfl⟩ := h
  rw [enqueueEntries_actions hentries] at hmem
  rcases List.mem_append.mp hmem with hmem | hmem
  · rcases List.mem_append.mp hmem with hmem | hmem
    · obtain ⟨_, heq⟩ := checkTimeout_expires _ _ _ hmem
      cases heq
    · obtain ⟨_, _, heq⟩ := List.mem_map.mp hmem
      cases heq
  · cases tryFlush_writes _ _ _ _ hmem

/-- **A poll drains its input once and completely.** Whatever a client has received so far and
however many bytes wait, the loop of a poll ends with none left, and the frames it has handled,
in order, are those the parser finds in all of them; the rest of the poll handles none. -/
theorem poll_drains {config : ClientConfig} {lastInstant : Nat} {calls : List Call} {c : Client}
    {done : List Action} (hreached : (withConfig config).run lastInstant calls = some (c, done))
    (t : MemoryTransport) (checkAt enqueueAt sentAt : Nat) :
    ∃ c₁ handled,
      handleFrames { c with parser := (c.parser.feedBytes t.rx).1 } (c.parser.feedBytes t.rx).2
        = some (c₁, handled) ∧
      c.readMemory t = some (c₁, { t with rx := [] }, handled) ∧
      (∀ c' t' actions, c.pollMemory lastInstant t checkAt enqueueAt sentAt
        = some (c', t', actions) → t'.rx = [] ∧
          ∃ rest, actions = handled ++ rest ∧ ∀ f event, .frame f event ∉ rest) ∧
      ((∀ entry ∈ c.periodic, enqueueAt + entry.interval ≤ lastInstant) →
        (c.pollMemory lastInstant t checkAt enqueueAt sentAt).isSome) := by
  have hmirrors : c.store.Mirrors (logs done) := run_mirrors hreached
  obtain ⟨c₁, handled, hframes⟩ := @handleFrames_isSome (c.parser.feedBytes t.rx).2
    { c with parser := (c.parser.feedBytes t.rx).1 } done hmirrors
  have hread : c.readMemory t = some (c₁, { t with rx := [] }, handled) := by
    rw [readMemory_eq, hframes]
    rfl
  refine ⟨c₁, handled, hframes, hread, fun c' t' actions hpoll => ?_, fun hroom => ?_⟩
  · simp only [pollMemory, hread, Option.bind_eq_bind, Option.bind_some, Option.bind_eq_some_iff,
      Option.pure_def, Option.some.injEq, Prod.mk.injEq] at hpoll
    obtain ⟨⟨c₂, pushed⟩, henq, rfl, rfl, rfl⟩ := hpoll
    refine ⟨rfl, _, ?_, rest_no_frame sentAt henq⟩
    simp only [List.append_assoc]
  · have hperiodic : (c₁.checkTimeout checkAt).1.periodic = c.periodic := by
      rw [checkTimeout_periodic, (handleFrames_spec hframes).1]
    rw [← hperiodic] at hroom
    obtain ⟨r, hr⟩ := @enqueueEntries_isSome _ _ _ (c₁.checkTimeout checkAt).1.queue hroom
    simp [pollMemory, hread, enqueuePeriodicAt, hr]

/-- An ACK and a NACK among noise, and the start of a frame. -/
theorem poll_drains_noise :
    ∃ c₁, (withConfig ⟨2000⟩).readMemory
        ⟨[], [0x13, syncByte, 0x01, 7, 0x13, syncByte, 0x00, 8, syncByte]⟩
      = some (c₁, ⟨[], []⟩, [.frame (.ack 7) (.ack 7), .frame (.nack 8) (.nack 8)]) := by
  obtain ⟨c₁, handled, hframes, hread, _⟩ := @poll_drains ⟨2000⟩ 1000 [] (withConfig ⟨2000⟩) [] rfl
    ⟨[], [0x13, syncByte, 0x01, 7, 0x13, syncByte, 0x00, 8, syncByte]⟩ 5 5 5
  cases hframes
  exact ⟨_, hread⟩

end ProtoEmb.Client
