import ProtoEmb.Client.Accounting
import ProtoEmb.Device.Replies

/-!
# A client, a device and the channels between them

The device is any device that answers a request it has received at most once, and with what
its operation expects: DATA or NACK for a READ or a query, ACK or NACK for a WRITE. Requests
reach it in the order in which they were written; its replies and notifications are bytes on
the way back, of which a poll reads as many as it is given, cut anywhere. `Link.run` takes
the moves of the two parties in any order.

The replies that the client handles are the first of those that the device sent
(`Linked.delivered`): what remains to be said is whom each of them belongs to.

The client is that of `client.rs`, with its queue, its storage and its parser. The device is not
that of the repository: of the generated dispatchers only this is used, and `System.Loop` shows
that they do it.
-/

namespace ProtoEmb.System

open ProtoEmb.Framing ProtoEmb.Client ProtoEmb.Device

/-! ## Frames of requests -/

/-- A READ has frame type 0, a WRITE frame type 1. -/
def isRead (frame : List UInt8) : Bool := frame.getD 1 0 = 0x00

/-- The third byte of a frame is its command. -/
def commandOf (frame : List UInt8) : UInt8 := frame.getD 2 0

/-- The two parties. `writeReply` is what the device answers a WRITE of a command with if it
takes it: DATA for a query, ACK for a write. A command without one has no WRITE message, and
every WRITE of it is answered with NACK. -/
structure Setup where
  config : ClientConfig
  lastInstant : Nat
  device : RuntimeConfig
  writeReply : UInt8 → Option ExpectedReply

/-- The operation of a request expects this reply. -/
def Setup.answers (env : Setup) (frame : List UInt8) : ParsedFrame → Bool
  | .nack cmd => cmd = commandOf frame
  | .ack cmd => cmd = commandOf frame ∧ isRead frame = false ∧ env.writeReply cmd = some .ack
  | .data cmd _ =>
    cmd = commandOf frame ∧ (isRead frame = true ∨ env.writeReply cmd = some .data)
  | .notification _ => false

/-- The caller does not write what the device has as a query, nor query what it has as a write.
Any id may be read, and an id that the device has no WRITE message for may be written or queried. -/
def Setup.allows (env : Setup) : Client.Call → Bool
  | .write cmd _ => env.writeReply cmd ≠ some .data
  | .query cmd _ => env.writeReply cmd ≠ some .ack
  | _ => true

/-! ## The link -/

/-- Something the device sent, and the number of the request it answers. -/
structure Reply where
  frame : ParsedFrame
  origin : Option Nat
  deriving DecidableEq, Repr

/-- The client, and what has gone to and fro. -/
structure Link where
  client : ProtoEmb.Client
  /-- All that the client has done. -/
  actions : List Client.Action
  /-- How many of the requests the device has received. -/
  received : Nat
  /-- All that the device has sent. -/
  replies : List Reply
  /-- What the client has not read of it. -/
  wire : List UInt8

/-- A call of the client, the device receiving a request, answering one, or sending a
notification. -/
inductive Move where
  | call (op : Client.Call)
  | receive
  | reply (request : Nat) (frame : ParsedFrame)
  | notify (payload : List UInt8)
  deriving DecidableEq, Repr

/-- The bytes that the read loop takes from the transport. -/
def bytesRead : List ReadResult → List UInt8
  | .ok bytes :: reads =>
    if bytes = [] then []
    else if bytes.length < readBufSize then bytes
    else bytes ++ bytesRead reads
  | _ => []

/-- Only a poll takes bytes from the transport. -/
def taken : Client.Call → List UInt8
  | .poll io => bytesRead io.reads
  | _ => []

/-- The device can send this reply. -/
def Setup.sendable (env : Setup) (frame : ParsedFrame) : Bool :=
  (replyPayload frame).length ≤ min env.device.maxPayload maxPayloadSize

namespace Link

/-- A new client, and nothing sent. -/
def start (env : Setup) : Link := ⟨withConfig env.config, [], 0, [], []⟩

/-- One move, if it is possible. -/
def step (env : Setup) (s : Link) : Move → Option Link
  | .call op =>
    if env.allows op = true ∧ taken op <+: s.wire then do
      let (client, actions) ← s.client.call env.lastInstant op
      return { s with client, actions := s.actions ++ actions
                      wire := s.wire.drop (taken op).length }
    else none
  | .receive =>
    if s.received < (requests s.actions).length then some { s with received := s.received + 1 }
    else none
  | .reply request frame =>
    if request < s.received ∧ (∀ r ∈ s.replies, r.origin ≠ some request) ∧
        env.sendable frame = true ∧
        (∃ req ∈ (requests s.actions)[request]?, env.answers req frame = true) then
      some { s with replies := s.replies ++ [⟨frame, some request⟩]
                    wire := s.wire ++ replyBytes env.device frame }
    else none
  | .notify payload =>
    if env.sendable (.notification payload) = true then
      some { s with replies := s.replies ++ [⟨.notification payload, none⟩]
                    wire := s.wire ++ replyBytes env.device (.notification payload) }
    else none

/-- Moves in a row, each of them possible. -/
def run (env : Setup) (s : Link) : List Move → Option Link
  | [] => some s
  | m :: moves => do
    let s ← s.step env m
    s.run env moves

end Link

/-! ## What the client makes of the bytes it reads -/

/-- The frames that the client has handled. -/
def handled (actions : List Client.Action) : List ParsedFrame :=
  actions.filterMap fun
    | .frame f _ => some f
    | _ => none

variable {c c' : ProtoEmb.Client} {actions : List Client.Action}

theorem handled_append (pre more : List Client.Action) :
    handled (pre ++ more) = handled pre ++ handled more :=
  List.filterMap_append

/-- The loop over the frames handles each of them and leaves the parser alone. -/
theorem handleFrames_handled :
    ∀ {frames : List ParsedFrame} {c c' : ProtoEmb.Client} {actions : List Client.Action},
      c.handleFrames frames = some (c', actions) →
      c'.parser = c.parser ∧ handled actions = frames := by
  intro frames
  induction frames with
  | nil =>
    intro c c' actions h
    cases h
    exact ⟨rfl, rfl⟩
  | cons f frames ih =>
    intro c c' actions h
    simp only [handleFrames, Option.bind_eq_bind, Option.bind_eq_some_iff, Option.pure_def,
      Option.some.injEq, Prod.mk.injEq] at h
    obtain ⟨⟨c₁, event⟩, hf, ⟨c₂, more⟩, hrest, rfl, rfl⟩ := h
    obtain ⟨hparser, hframes⟩ := ih hrest
    have hc₁ : c₁.parser = c.parser := by rw [(handleFrame_spec hf).1]
    exact ⟨hparser.trans hc₁, by rw [← hframes]; rfl⟩

/-- The read loop handles what the parser finds in the bytes it has read. -/
theorem readLoop_handled :
    ∀ {reads : List ReadResult} {c c' : ProtoEmb.Client} {actions : List Client.Action},
      c.readLoop reads = some (c', actions) →
      c.parser.feedBytes (bytesRead reads) = (c'.parser, handled actions) := by
  intro reads
  induction reads with
  | nil =>
    intro c c' actions h
    cases h
    rfl
  | cons r reads ih =>
    intro c c' actions h
    cases r with
    | timedOut => cases h; rfl
    | error message => cases h; rfl
    | ok bytes =>
      unfold readLoop at h
      unfold bytesRead
      by_cases hnil : bytes = []
      · rw [if_pos hnil] at h ⊢
        cases h
        rfl
      · rw [if_neg hnil] at h ⊢
        split at h
        · simp only [Option.bind_eq_bind, Option.bind_eq_some_iff] at h
          obtain ⟨⟨c₁, acts⟩, hframes, h⟩ := h
          obtain ⟨hparser, hh⟩ := handleFrames_handled hframes
          change c₁.parser = (c.parser.feedBytes bytes).1 at hparser
          by_cases hshort : bytes.length < readBufSize
          · rw [if_pos hshort] at h ⊢
            cases h
            rw [hparser, hh]
          · rw [if_neg hshort] at h ⊢
            simp only [Option.bind_eq_some_iff, Option.pure_def, Option.some.injEq,
              Prod.mk.injEq] at h
            obtain ⟨⟨c₂, more⟩, hmore, rfl, rfl⟩ := h
            rw [FrameParser.feedBytes_append, ← hparser, ih hmore, handled_append, hh]
        · cases h

/-- Enqueueing the reads that are due handles no frame. -/
theorem enqueueEntries_handled {lastInstant now : Nat} {entries entries' : List PeriodicEntry}
    {queue queue' : PriorityQueue}
    (h : enqueueEntries lastInstant now entries queue = some (entries', queue', actions)) :
    handled actions = [] := by
  rw [enqueueEntries_actions h, handled, List.filterMap_map]
  exact List.filterMap_eq_nil_iff.mpr fun _ _ => rfl

/-- The check of the timeout handles no frame. -/
theorem checkTimeout_handled (c : ProtoEmb.Client) (now : Nat) :
    (c.checkTimeout now).1.parser = c.parser ∧ handled (c.checkTimeout now).2 = [] := by
  unfold checkTimeout
  split
  · split <;> exact ⟨rfl, rfl⟩
  · exact ⟨rfl, rfl⟩

/-- The write handles no frame. -/
theorem tryFlush_handled (c : ProtoEmb.Client) (now : Nat) (error : Option String) :
    (c.tryFlush now error).1.parser = c.parser ∧ handled (c.tryFlush now error).2 = [] := by
  unfold tryFlush
  split
  · exact ⟨rfl, rfl⟩
  · split
    · split <;> exact ⟨rfl, rfl⟩
    · exact ⟨rfl, rfl⟩

/-- **A call feeds the parser what it reads**, and handles the frames that come out. -/
theorem call_handled {lastInstant : Nat} {op : Client.Call}
    (h : c.call lastInstant op = some (c', actions)) :
    c.parser.feedBytes (taken op) = (c'.parser, handled actions) := by
  cases op with
  | poll io =>
    simp only [call, poll, Option.bind_eq_bind, Option.bind_eq_some_iff, Option.pure_def,
      Option.some.injEq, Prod.mk.injEq] at h
    obtain ⟨⟨c₁, received⟩, hread, ⟨c₂, pushed⟩, henq, rfl, rfl⟩ := h
    simp only [enqueuePeriodicAt, Option.bind_eq_bind, Option.bind_eq_some_iff, Option.pure_def,
      Option.some.injEq, Prod.mk.injEq] at henq
    obtain ⟨⟨periodic, queue, pushed'⟩, hentries, rfl, rfl⟩ := henq
    obtain ⟨hcheck, hexpired⟩ := checkTimeout_handled c₁ io.checkAt
    obtain ⟨hflush, hsent⟩ := tryFlush_handled
      { (c₁.checkTimeout io.checkAt).1 with periodic, queue } io.sentAt io.writeError
    show c.parser.feedBytes (bytesRead io.reads) = _
    rw [readLoop_handled hread, handled_append, handled_append, handled_append, hexpired, hsent,
      enqueueEntries_handled hentries, hflush]
    simp [hcheck]
  | read | write | query | unregisterPeriodic | clearQueue | clearStore =>
    cases h
    rfl
  | registerPeriodic =>
    simp only [call, addPeriodic, Option.bind_eq_bind, Option.bind_eq_some_iff, Option.pure_def,
      Option.some.injEq, Prod.mk.injEq] at h
    obtain ⟨_, ⟨store, _, rfl⟩, rfl, rfl⟩ := h
    rfl
  | registerStore =>
    simp only [call, Option.bind_eq_bind, Option.bind_eq_some_iff, Option.pure_def,
      Option.some.injEq, Prod.mk.injEq] at h
    obtain ⟨_, _, rfl, rfl⟩ := h
    rfl

/-! ## Messages that ask of a command what it is for -/

variable {env : Setup}

/-- The message waits for DATA if it is a READ, and for what the device answers the WRITE with
if it is one that the device has. -/
def Setup.Proper (env : Setup) (frame : List UInt8) (expect : ExpectedReply) : Prop :=
  if isRead frame then expect = .data
  else ∀ reply, env.writeReply (commandOf frame) = some reply → expect = reply

theorem proper_read (cmd : UInt8) : env.Proper (buildReadFrame cmd) .data := rfl

theorem proper_write {cmd : UInt8} {data : List UInt8} {expect : ExpectedReply}
    (h : ∀ reply, env.writeReply cmd = some reply → expect = reply) :
    env.Proper (buildWriteFrame cmd data) expect := h

/-- A timeout pushes nothing; a request that is given up is not sent again. -/
theorem checkTimeout_pushes (c : ProtoEmb.Client) (now : Nat) :
    pushes (c.checkTimeout now).2 = [] := by
  unfold checkTimeout
  split
  · split <;> rfl
  · rfl

/-- A write pushes nothing. -/
theorem tryFlush_pushes (c : ProtoEmb.Client) (now : Nat) (error : Option String) :
    pushes (c.tryFlush now error).2 = [] := by
  unfold tryFlush
  split
  · rfl
  · split
    · split <;> rfl
    · rfl

/-- A poll pushes the reads that are due. -/
theorem poll_proper {io : PollInput} (h : c.call env.lastInstant (.poll io) = some (c', actions)) :
    ∀ msg ∈ pushes actions, env.Proper msg.frame msg.expect := by
  simp only [call, poll, Option.bind_eq_bind, Option.bind_eq_some_iff, Option.pure_def,
    Option.some.injEq, Prod.mk.injEq] at h
  obtain ⟨⟨c₁, received⟩, hread, ⟨c₂, pushed⟩, henq, rfl, rfl⟩ := h
  simp only [enqueuePeriodicAt, Option.bind_eq_bind, Option.bind_eq_some_iff, Option.pure_def,
    Option.some.injEq, Prod.mk.injEq] at henq
  obtain ⟨⟨periodic, queue, pushed'⟩, hentries, rfl, rfl⟩ := henq
  -- of all the parts of a poll only the registrations that are due push something
  have hnone : pushes received = [] := List.filterMap_eq_nil_iff.mpr fun a ha => by
    rcases (readLoop_spec hread).2 a ha with ⟨f, event, rfl⟩ | ⟨error, rfl⟩ <;> rfl
  intro msg hmsg
  rw [Ledger.pushes_append, Ledger.pushes_append, Ledger.pushes_append, hnone,
    checkTimeout_pushes, tryFlush_pushes, enqueueEntries_actions hentries] at hmsg
  simp only [List.nil_append, List.append_nil, pushes, List.filterMap_map, Function.comp_def,
    List.mem_filterMap, Option.some.injEq] at hmsg
  rcases hmsg with ⟨entry, -, rfl⟩
  exact proper_read entry.command

/-- **What an allowed call pushes is proper.** -/
theorem call_proper {op : Client.Call} (hop : env.allows op = true)
    (h : c.call env.lastInstant op = some (c', actions)) :
    ∀ msg ∈ pushes actions, env.Proper msg.frame msg.expect := by
  cases op with
  | read cmd priority key =>
    cases h
    exact List.forall_mem_singleton.mpr (proper_read cmd)
  | write cmd data =>
    cases h
    refine List.forall_mem_singleton.mpr (proper_write fun reply hreply => ?_)
    have hquery : env.writeReply cmd ≠ some .data := of_decide_eq_true hop
    cases reply with
    | ack => rfl
    | data => exact absurd hreply hquery
  | query cmd data =>
    cases h
    refine List.forall_mem_singleton.mpr (proper_write fun reply hreply => ?_)
    have hwrite : env.writeReply cmd ≠ some .ack := of_decide_eq_true hop
    cases reply with
    | ack => exact absurd hreply hwrite
    | data => rfl
  | registerPeriodic cmd interval storageCount timeout =>
    simp only [call, addPeriodic, Option.bind_eq_bind, Option.bind_eq_some_iff, Option.pure_def,
      Option.some.injEq, Prod.mk.injEq] at h
    obtain ⟨_, _, rfl, rfl⟩ := h
    exact List.forall_mem_nil _
  | unregisterPeriodic | clearQueue | clearStore => cases h; exact List.forall_mem_nil _
  | registerStore =>
    simp only [call, Option.bind_eq_bind, Option.bind_eq_some_iff, Option.pure_def,
      Option.some.injEq, Prod.mk.injEq] at h
    obtain ⟨_, _, rfl, rfl⟩ := h
    exact List.forall_mem_nil _
  | poll io => exact poll_proper h

/-! ## Runs of the link -/

/-- What holds along a run of the link. -/
structure Linked (env : Setup) (s : Link) : Prop where
  steps : Steps (withConfig env.config) s.actions s.client
  proper : ∀ msg ∈ pushes s.actions, env.Proper msg.frame msg.expect
  /-- The parser has been fed all that was sent but what is still on the way. -/
  stream : ∃ fed, FrameParser.new.feedBytes fed = (s.client.parser, handled s.actions) ∧
    fed ++ s.wire = s.replies.flatMap fun r => replyBytes env.device r.frame
  sendable : ∀ r ∈ s.replies, env.sendable r.frame = true
  /-- An answer is to a request that the device has received. -/
  answered : ∀ r ∈ s.replies, (∃ payload, r = ⟨.notification payload, none⟩) ∨
    ∃ i < s.received, r.origin = some i ∧
      ∃ req ∈ (requests s.actions)[i]?, env.answers req r.frame = true
  received_le : s.received ≤ (requests s.actions).length

/-- Nothing has been sent, so nothing has to be answered. -/
theorem linked_start (env : Setup) : Linked env (Link.start env) where
  steps := .refl _
  proper := nofun
  stream := ⟨[], rfl, rfl⟩
  sendable := nofun
  answered := nofun
  received_le := Nat.le_refl _

/-- The device has sent something more. -/
theorem Linked.send {s : Link} (h : Linked env s) {r : Reply}
    (hsend : env.sendable r.frame = true)
    (hr : (∃ payload, r = ⟨.notification payload, none⟩) ∨ ∃ i < s.received, r.origin = some i ∧
      ∃ req ∈ (requests s.actions)[i]?, env.answers req r.frame = true) :
    Linked env { s with replies := s.replies ++ [r]
                        wire := s.wire ++ replyBytes env.device r.frame } := by
  obtain ⟨fed, hfed, hstream⟩ := h.stream
  refine ⟨h.steps, h.proper, ⟨fed, hfed, ?_⟩, ?_, ?_, h.received_le⟩
  · show fed ++ (s.wire ++ replyBytes env.device r.frame) = (s.replies ++ [r]).flatMap _
    rw [← List.append_assoc, hstream, List.flatMap_append, List.flatMap_singleton]
  · exact List.forall_mem_append.mpr ⟨h.sendable, List.forall_mem_singleton.mpr hsend⟩
  · exact List.forall_mem_append.mpr ⟨h.answered, List.forall_mem_singleton.mpr hr⟩

/-- **One move.** -/
theorem Linked.step {s s' : Link} (h : Linked env s) {m : Move} (hm : s.step env m = some s') :
    Linked env s' := by
  cases m with
  | call op =>
    simp only [Link.step] at hm
    split at hm
    next hop =>
      obtain ⟨hallow, rest, hwire⟩ := hop
      simp only [Option.bind_eq_bind, Option.bind_eq_some_iff, Option.pure_def,
        Option.some.injEq] at hm
      obtain ⟨⟨client, actions⟩, hcall, rfl⟩ := hm
      obtain ⟨fed, hfed, hstream⟩ := h.stream
      -- the client has fed its parser what the call took from the wire
      refine ⟨h.steps.trans (call_steps hcall), ?_, ⟨fed ++ taken op, ?_, ?_⟩, h.sendable,
        ?_, ?_⟩
      · rw [Ledger.pushes_append]
        exact List.forall_mem_append.mpr ⟨h.proper, call_proper hallow hcall⟩
      · rw [FrameParser.feedBytes_append, hfed, call_handled hcall, handled_append]
      · rw [← hstream, ← hwire, List.append_assoc, List.drop_left]
      · -- more requests do not change which request is which
        intro r hr
        rcases h.answered r hr with hn | ⟨i, hi, ho, req, hreq, hans⟩
        · exact .inl hn
        · refine .inr ⟨i, hi, ho, req, ?_, hans⟩
          rw [Ledger.requests_append, Option.mem_def,
            List.getElem?_append_left (List.getElem?_eq_some_iff.mp hreq).1]
          exact hreq
      · rw [Ledger.requests_append, List.length_append]
        exact Nat.le_add_right_of_le h.received_le
    next => cases hm
  | receive =>
    simp only [Link.step] at hm
    split at hm
    next hlt =>
      cases hm
      -- what was answered stays so: more requests have been received
      refine ⟨h.steps, h.proper, h.stream, h.sendable, fun r hr => ?_, hlt⟩
      rcases h.answered r hr with hn | ⟨i, hi, hrest⟩
      · exact .inl hn
      · exact .inr ⟨i, Nat.lt_succ_of_lt hi, hrest⟩
    next => cases hm
  | reply request frame =>
    simp only [Link.step] at hm
    split at hm
    next hok =>
      obtain ⟨hlt, _, hsend, hreq⟩ := hok
      cases hm
      exact h.send hsend (.inr ⟨request, hlt, rfl, hreq⟩)
    next => cases hm
  | notify payload =>
    simp only [Link.step] at hm
    split at hm
    next hsend =>
      cases hm
      exact h.send hsend (.inl ⟨payload, rfl⟩)
    next => cases hm

/-- A whole run, by induction on the moves. -/
theorem run_linked :
    ∀ {moves : List Move} {s s' : Link}, Linked env s → s.run env moves = some s' →
      Linked env s' := by
  intro moves
  induction moves with
  | nil =>
    intro s s' h hrun
    cases hrun
    exact h
  | cons m moves ih =>
    intro s s' h hrun
    simp only [Link.run, Option.bind_eq_bind, Option.bind_eq_some_iff] at hrun
    obtain ⟨s₁, hm, hrest⟩ := hrun
    exact ih (h.step hm) hrest

/-- All that was sent, as the parser sees it. -/
theorem Linked.sent_frames {s : Link} (h : Linked env s) :
    (FrameParser.new.feedBytes (s.replies.flatMap fun r => replyBytes env.device r.frame)).2
      = s.replies.map Reply.frame := by
  have hall := (feedBytes_replies env.device (s.replies.map fun r => (r.frame, [])) rfl rfl
    (fun rg hrg => by
      rcases List.mem_map.mp hrg with ⟨r, hr, rfl⟩
      simpa [Setup.sendable] using h.sendable r hr)
    (fun rg hrg => by
      rcases List.mem_map.mp hrg with ⟨r, hr, rfl⟩
      exact List.not_mem_nil) : (FrameParser.new.feedBytes _).2 = _ ∧ _).1
  rw [List.flatMap_map, List.map_map] at hall
  simp only [List.append_nil] at hall
  exact hall

/-- **What the client handles is what the device sent**, in order, as far as it has got. -/
theorem Linked.delivered {s : Link} (h : Linked env s) :
    handled s.actions <+: s.replies.map Reply.frame := by
  obtain ⟨fed, hfed, hstream⟩ := h.stream
  have hall := h.sent_frames
  rw [← hstream, FrameParser.feedBytes_append, hfed] at hall
  exact ⟨_, hall⟩

/-- With nothing on the way, the client has handled all of it. -/
theorem Linked.delivered_all {s : Link} (h : Linked env s) (hwire : s.wire = []) :
    handled s.actions = s.replies.map Reply.frame := by
  obtain ⟨fed, hfed, hstream⟩ := h.stream
  have hall := h.sent_frames
  rw [← hstream, hwire, List.append_nil, hfed] at hall
  exact hall

end ProtoEmb.System
