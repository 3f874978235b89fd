import ProtoEmb.Client.Schedule
import ProtoEmb.Device.Requests
import ProtoEmb.Device.Serve
import ProtoEmb.System.Late

/-!
# The client and the generated device, closed

The two ends as they are, `client.rs` and `protocol_runtime.c.j2`: the client writes the bytes of
its requests, the generated runtime is fed them one by one and calls the handlers of the
application, what `sendFrame` emits goes back, and a poll reads some of it, cut anywhere. The line
neither loses nor alters bytes, and no frame takes longer to arrive than the runtime's timeout
allows. In between the application may send notifications and change its state.

`Link` has any device that answers with the right kind of reply. Here the answer is what the
handler returned on the state it found, so more can be said: requests are executed in the order
in which they were written, each once (`loop_executes`), and what the caller gets for a request
is the answer of that execution (`loop_returns`).

What is not a move here is not covered by any theorem about the loop, nor by those about the
browser, typed calls, versions, settling, recovery and the storage that are built on it:
- The payload of a WRITE or a query is at most `RUNTIME_MAX_PAYLOAD` (`fitsDevice`), and that at
  most 65535 (`hmax`). `build_write_frame` checks neither; `Device/Overlong` is about the rest.
- Every write of the transport succeeds.
- The host does not write what the device has as a query, nor query what it has as a write
  (`Setup.allows`).
- No tick finds the frame that is being received late (`Runtime.InTime`).
- A notification fits `RUNTIME_MAX_PAYLOAD` and the host's `MAX_PAYLOAD_SIZE`.

That no handler offers more DATA than these two is a hypothesis of its own (`Polite`), since the
device dispatches in any case.
-/

namespace ProtoEmb.System

open ProtoEmb.Lib ProtoEmb.Framing ProtoEmb.Schema ProtoEmb.Client ProtoEmb.Device

/-! ## Requests on the line -/

/-- What stands between the length and the CRC of a WRITE frame. -/
def payloadOf (frame : List UInt8) : List UInt8 := (frame.drop 5).dropLast

/-- The dispatch that a frame asks for. -/
def actionOf (frame : List UInt8) : Device.Action :=
  if isRead frame then .dispatchRead (commandOf frame)
  else .dispatchWrite (commandOf frame) (payloadOf frame)

theorem actionOf_frame (r : Device.Request) : actionOf r.frame = r.action := by
  cases r with
  | read c => rfl
  | write c data =>
    have hpayload : payloadOf (buildWriteFrame c data) = data := List.dropLast_concat
    show Device.Action.dispatchWrite c (payloadOf (buildWriteFrame c data)) = _
    rw [hpayload]
    rfl

/-! ## The loop -/

structure Loop (cfg : RuntimeConfig) (σ : Type) where
  client : ProtoEmb.Client
  /-- All that the client has done. -/
  actions : List Client.Action
  /-- What the device has not been fed yet. -/
  line : List UInt8
  board : Board cfg σ
  /-- The dispatches so far, each with the application's state that it found. -/
  served : List (σ × Device.Action)
  /-- The notifications sent. -/
  notified : List Codec.Value
  /-- What the client has not read yet. -/
  wire : List UInt8

inductive LoopEvent (σ : Type) where
  | call (op : Client.Call)
  /-- The next byte on the line reaches `feedByte`. -/
  | deliver (now : UInt32)
  | tick (now : UInt32)
  | notify (notification : Codec.Value)
  /-- The application changes its state outside the handlers. -/
  | work (app : σ)

/-- The payload fits the device's buffer, and the write that a poll may make succeeds. -/
def fitsDevice (cfg : RuntimeConfig) : Client.Call → Bool
  | .write _ data => data.length ≤ cfg.maxPayload
  | .query _ data => data.length ≤ cfg.maxPayload
  | .poll io => io.writeError = none
  | _ => true

variable {cfg : RuntimeConfig} {σ : Type}

/-- The reply that ends the operation on a WRITE message. -/
def replyOf (semantic : Semantic) : ExpectedReply := if semantic = .query then .data else .ack

/-- The client and this device: a query of its schema is answered with DATA, and every other
WRITE message with ACK. The host may have another schema, so it may read, write or query any id
that the device has no WRITE message for. -/
def setup (fw : Firmware cfg σ) (config : ClientConfig) (lastInstant : Nat) : Setup :=
  ⟨config, lastInstant, cfg, fun command => (fw.writeSemantic command).map replyOf⟩

namespace Loop

def start (config : ClientConfig) (now : UInt32) (app : σ) : Loop cfg σ :=
  ⟨withConfig config, [], [], ⟨Runtime.init cfg now, app⟩, [], [], []⟩

/-- One event, if it is possible; the guards are the conditions listed above. -/
def step (fw : Firmware cfg σ) (env : Setup) (s : Loop cfg σ) : LoopEvent σ → Option (Loop cfg σ)
  | .call op =>
    if env.allows op = true ∧ fitsDevice cfg op = true ∧ taken op <+: s.wire then do
      let (client, actions) ← s.client.call env.lastInstant op
      return { s with client, actions := s.actions ++ actions, line := s.line ++ written actions
                      wire := s.wire.drop (taken op).length }
    else none
  | .deliver now =>
    match s.line with
    | [] => none
    | b :: line =>
      let acts := (s.board.runtime.step (.byte now b)).2
      let r := fw.step (fun _ _ => true) s.board (.byte now b)
      some { s with line, board := r.1, served := s.served ++ acts.map fun a => (s.board.app, a)
                    wire := s.wire ++ r.2.flatten }
  | .tick now =>
    if s.board.runtime.InTime [.tick now] then
      some { s with board := (fw.step (fun _ _ => true) s.board (.tick now)).1 }
    else none
  | .notify notification =>
    if wireSizeOf fw.data "Notification" % 65536 ≤ min cfg.maxPayload maxPayloadSize then
      some { s with
        notified := s.notified ++ [notification]
        wire := s.wire ++ (fw.sendNotification (fun _ _ => true) (some notification)).2.flatten }
    else none
  | .work app => some { s with board := { s.board with app } }

end Loop

/-! ## What the client writes -/

/-- A call pushes reads, and the message of its own. -/
theorem call_pushes {c c' : ProtoEmb.Client} {lastInstant : Nat} {op : Client.Call}
    {actions : List Client.Action} (h : c.call lastInstant op = some (c', actions)) :
    ∀ msg ∈ pushes actions, (∃ cmd, msg.frame = buildReadFrame cmd) ∨
      ∃ cmd data, (op = .write cmd data ∨ op = .query cmd data) ∧
        msg.frame = buildWriteFrame cmd data := by
  cases op with
  | read cmd priority key =>
    cases h
    exact List.forall_mem_singleton.mpr (.inl ⟨cmd, rfl⟩)
  | write cmd data =>
    cases h
    exact List.forall_mem_singleton.mpr (.inr ⟨cmd, data, .inl rfl, rfl⟩)
  | query cmd data =>
    cases h
    exact List.forall_mem_singleton.mpr (.inr ⟨cmd, data, .inr rfl, rfl⟩)
  | registerPeriodic cmd interval storageCount timeout =>
    simp only [call, addPeriodic, Option.bind_eq_bind, Option.bind_eq_some_iff, Option.pure_def,
      Option.some.injEq, Prod.mk.injEq] at h
    obtain ⟨_, ⟨store, _, rfl⟩, rfl, rfl⟩ := h
    exact List.forall_mem_nil _
  | unregisterPeriodic | clearQueue | clearStore =>
    cases h
    exact List.forall_mem_nil _
  | registerStore =>
    simp only [call, Option.bind_eq_bind, Option.bind_eq_some_iff, Option.pure_def,
      Option.some.injEq, Prod.mk.injEq] at h
    obtain ⟨_, _, rfl, rfl⟩ := h
    exact List.forall_mem_nil _
  | poll io =>
    obtain ⟨-, before, after, rfl, hnone⟩ := poll_schedule h
    intro msg hmsg
    have hmem : Client.Action.push msg ∈ before
        ++ (c.periodic.filter (·.due io.enqueueAt)).map (fun e => Client.Action.push e.message)
        ++ after := by
      rcases List.mem_filterMap.mp hmsg with ⟨a, ha, heq⟩
      cases a <;> cases heq
      exact ha
    simp only [List.mem_append, List.mem_map] at hmem
    rcases hmem with (hbefore | ⟨entry, _, heq⟩) | hafter
    · exact absurd hbefore (hnone msg).1
    · cases heq
      exact .inl ⟨entry.command, rfl⟩
    · exact absurd hafter (hnone msg).2

theorem written_append (pre more : List Client.Action) :
    written (pre ++ more) = written pre ++ written more := by
  rw [written, Ledger.requests_append, List.flatten_append]
  rfl

/-! ## What the device has been fed -/

/-- The frame is one of the host's, and its payload fits. -/
def Built (cfg : RuntimeConfig) (frame : List UInt8) : Prop :=
  ∃ r : Device.Request, frame = r.frame ∧ r.payload.length ≤ cfg.maxPayload

/-- What holds along a run, whatever the handlers do. -/
structure Heard (config : ClientConfig) (s : Loop cfg σ) : Prop where
  steps : Steps (withConfig config) s.actions s.client
  built : ∀ msg ∈ pushes s.actions, Built cfg msg.frame
  /-- The runtime has been fed all that was written but what is still on the line, and the
  dispatches are what it made of it. The clock is only in its stamp. -/
  fed : ∃ bytes stamp, (Runtime.init cfg 0).feedBytes bytes
      = ({ s.board.runtime with startMs := stamp }, s.served.map Prod.snd) ∧
    bytes ++ s.line = written s.actions

variable {config : ClientConfig} {fw : Firmware cfg σ} {env : Setup} {s s' : Loop cfg σ}

theorem heard_start (now : UInt32) (app : σ) :
    Heard config (Loop.start config now app : Loop cfg σ) where
  steps := .refl _
  built := fun _ h => absurd h List.not_mem_nil
  fed := ⟨[], 0, rfl, rfl⟩

theorem call_built {c c' : ProtoEmb.Client} {lastInstant : Nat} {op : Client.Call}
    {actions : List Client.Action} (h : c.call lastInstant op = some (c', actions))
    (hfit : fitsDevice cfg op = true) : ∀ msg ∈ pushes actions, Built cfg msg.frame := by
  intro msg hmsg
  rcases call_pushes h msg hmsg with ⟨cmd, heq⟩ | ⟨cmd, data, hop, heq⟩
  · exact ⟨.read cmd, heq, Nat.zero_le _⟩
  · refine ⟨.write cmd data, heq, ?_⟩
    rcases hop with rfl | rfl <;> exact of_decide_eq_true hfit

/-- **One event.** -/
theorem Heard.step (h : Heard config s) {e : LoopEvent σ} (hs : s.step fw env e = some s') :
    Heard config s' := by
  cases e with
  | call op =>
    simp only [Loop.step] at hs
    split at hs
    next hop =>
      obtain ⟨-, hfit, -⟩ := hop
      simp only [Option.bind_eq_bind, Option.bind_eq_some_iff, Option.pure_def,
        Option.some.injEq] at hs
      obtain ⟨⟨client, actions⟩, hcall, rfl⟩ := hs
      obtain ⟨bytes, stamp, hfeed, hline⟩ := h.fed
      refine ⟨h.steps.trans (call_steps hcall), ?_, bytes, stamp, hfeed, ?_⟩
      · rw [Ledger.pushes_append]
        exact List.forall_mem_append.mpr ⟨h.built, call_built hcall hfit⟩
      · rw [written_append, ← hline, List.append_assoc]
    next => cases hs
  | deliver now =>
    simp only [Loop.step] at hs
    split at hs
    next => cases hs
    next b line hline =>
      cases hs
      obtain ⟨bytes, stamp, hfeed, hwritten⟩ := h.fed
      -- the byte is fed at another time, which leaves another stamp
      obtain ⟨stamp', hbyte⟩ := Runtime.feedByte_clock s.board.runtime now stamp b
      refine ⟨h.steps, h.built, bytes ++ [b], stamp', ?_, ?_⟩
      · rw [Runtime.feedBytes_append, hfeed]
        simp only [Runtime.feedBytes, hbyte, List.append_nil, List.map_append, List.map_map]
        congr 2
        exact (List.map_id _).symm
      · rw [← hwritten, hline, List.append_assoc]
        rfl
  | tick now =>
    simp only [Loop.step] at hs
    split at hs
    next hin =>
      cases hs
      refine ⟨h.steps, h.built, ?_⟩
      have hsame : (s.board.runtime.step (.tick now)).1 = s.board.runtime :=
        Runtime.tick_inTime hin.1
      show ∃ bytes stamp,
        _ = ({ (s.board.runtime.step (.tick now)).1 with startMs := stamp }, _) ∧ _
      rw [hsame]
      exact h.fed
    next => cases hs
  | notify notification =>
    simp only [Loop.step] at hs
    split at hs
    · cases hs
      exact ⟨h.steps, h.built, h.fed⟩
    · cases hs
  | work app =>
    cases hs
    exact ⟨h.steps, h.built, h.fed⟩

/-- Every request written is a frame of the host. -/
theorem Heard.requests_built (h : Heard config s) :
    ∀ frame ∈ requests s.actions, Built cfg frame := by
  intro frame hmem
  have hacc := (steps_booked h.steps).accounted
  rw [hacc.requests_eq] at hmem
  rcases List.mem_map.mp hmem with ⟨t, ht, rfl⟩
  exact h.built t.1 (List.mem_of_getElem? (List.mem_zipIdx_iff_getElem?.mp (hacc.sent t ht)))

theorem built_map :
    ∀ {frames : List (List UInt8)}, (∀ frame ∈ frames, Built cfg frame) →
      ∃ reqs : List Device.Request, frames = reqs.map Device.Request.frame ∧
        ∀ r ∈ reqs, r.payload.length ≤ cfg.maxPayload := by
  intro frames
  induction frames with
  | nil => exact fun _ => ⟨[], rfl, fun _ h => absurd h List.not_mem_nil⟩
  | cons frame frames ih =>
    intro h
    obtain ⟨⟨r, rfl, hr⟩, hrest⟩ := List.forall_mem_cons.mp h
    obtain ⟨reqs, rfl, hreqs⟩ := ih hrest
    exact ⟨r :: reqs, rfl, List.forall_mem_cons.mpr ⟨hr, hreqs⟩⟩

/-- All that was written, as the runtime sees it. -/
theorem Heard.written_actions (h : Heard config s) (hmax : cfg.maxPayload ≤ 65535) :
    ((Runtime.init cfg 0).feedBytes (written s.actions)).2
      = (requests s.actions).map actionOf := by
  obtain ⟨reqs, hreqs, hcap⟩ := built_map h.requests_built
  have hidle : (Runtime.init cfg 0).state = .sync := rfl
  obtain ⟨rt, hfeed, -⟩ := Runtime.feedBytes_requests hmax (reqs.map fun r => (r, [])) hidle
    (by simpa using hcap) (by simp)
  rw [List.flatMap_map, List.map_map] at hfeed
  simp only [List.append_nil] at hfeed
  have hwritten : written s.actions = reqs.flatMap Device.Request.frame := by
    rw [written, hreqs, List.flatMap_def]
  rw [hwritten, hfeed, hreqs, List.map_map]
  exact List.map_congr_left fun r _ => (actionOf_frame r).symm

/-- **The dispatches are the requests written**, in order, as far as they have got. -/
theorem Heard.executed (h : Heard config s) (hmax : cfg.maxPayload ≤ 65535) :
    s.served.map Prod.snd <+: (requests s.actions).map actionOf := by
  obtain ⟨bytes, stamp, hfeed, hline⟩ := h.fed
  have hall := h.written_actions hmax
  rw [← hline, Runtime.feedBytes_append, hfeed] at hall
  exact ⟨_, hall⟩

/-- With nothing on the line, all of them have been dispatched. -/
theorem Heard.executed_all (h : Heard config s) (hmax : cfg.maxPayload ≤ 65535)
    (hline : s.line = []) : s.served.map Prod.snd = (requests s.actions).map actionOf := by
  obtain ⟨bytes, stamp, hfeed, hwritten⟩ := h.fed
  have hall := h.written_actions hmax
  rw [← hwritten, hline, List.append_nil, hfeed] at hall
  exact hall

/-! ## The loop follows the link -/

def notificationPayload : ParsedFrame → Option (List UInt8)
  | .notification payload => some payload
  | _ => none

/-- The payloads of the notifications among what the device sent. -/
def notices (replies : List Reply) : List (List UInt8) :=
  (replies.map Reply.frame).filterMap notificationPayload

theorem notices_append (replies more : List Reply) :
    notices (replies ++ more) = notices replies ++ notices more := by
  rw [notices, List.map_append, List.filterMap_append]
  rfl

theorem answer_payload (fw : Firmware cfg σ) (app : σ) (a : Device.Action) :
    notificationPayload (fw.answer app a) = none := by
  cases a with
  | dispatchRead c =>
    rcases fw.answer_read app c with ⟨payload, h⟩ | h <;> rw [h] <;> rfl
  | dispatchWrite c payload =>
    rcases fw.answer_write app c payload with ⟨-, _, h⟩ | ⟨_, -, -, h⟩ | h <;> rw [h] <;> rfl
  | sendNack c => rfl

/-- The link does what the loop does: the device has received the requests that were
dispatched, its answers are those of the handlers, request by request, and it has sent the
same notifications. -/
structure Follows (fw : Firmware cfg σ) (s : Loop cfg σ) (link : Link) : Prop where
  client : link.client = s.client
  actions : link.actions = s.actions
  wire : link.wire = s.wire
  received : link.received = s.served.length
  answered : answers link.replies = (s.served.map fun x => fw.answer x.1 x.2).zipIdx
  notified : notices link.replies = s.notified.map (fw.structBytes "Notification")

/-- The handlers offered nothing too large as DATA. -/
def Polite (fw : Firmware cfg σ) (s : Loop cfg σ) : Prop := ∀ x ∈ s.served, fw.Fits x.1 x.2

/-- The answer to a request is of the kind that its operation expects. -/
theorem answers_action {lastInstant : Nat} {frame : List UInt8} (app : σ)
    (hbuilt : Built cfg frame) :
    (setup fw config lastInstant).answers frame (fw.answer app (actionOf frame)) = true := by
  obtain ⟨r, rfl, -⟩ := hbuilt
  rw [actionOf_frame]
  cases r with
  | read c =>
    rcases fw.answer_read app c with ⟨payload, h⟩ | h
    · rw [Device.Request.action, h]
      simp [Setup.answers, Device.Request.frame, commandOf, isRead, buildReadFrame]
    · rw [Device.Request.action, h]
      simp [Setup.answers, Device.Request.frame, commandOf, buildReadFrame]
  | write c data =>
    rcases fw.answer_write app c data with ⟨hq, payload, h⟩ | ⟨kind, hkind, hne, h⟩ | h
    · rw [Device.Request.action, h]
      simp [Setup.answers, setup, replyOf, hq, Device.Request.frame, commandOf, buildWriteFrame]
    · rw [Device.Request.action, h]
      simp [Setup.answers, setup, replyOf, hkind, hne, Device.Request.frame, commandOf, isRead,
        buildWriteFrame]
    · rw [Device.Request.action, h]
      simp [Setup.answers, Device.Request.frame, commandOf, buildWriteFrame]

/-- The link receives a request and answers it, where the loop dispatches it. -/
theorem Follows.dispatch {lastInstant : Nat} {link : Link} (h : Follows fw s link)
    (hheard' : Heard config s') (hmax : cfg.maxPayload ≤ 65535) {app : σ} {a : Device.Action}
    (hactions : s'.actions = s.actions) (hclient : s'.client = s.client)
    (hserved : s'.served = s.served ++ [(app, a)]) (hnotified : s'.notified = s.notified)
    (hwire : s'.wire = s.wire ++ replyBytes cfg (fw.answer app a)) (hfit : fw.Fits app a) :
    ∃ moves link', Machine.run (Link.step (setup fw config lastInstant)) link moves = some link' ∧
      Follows fw s' link' := by
  have hlen : s'.served.length = s.served.length + 1 := by rw [hserved, List.length_append]; rfl
  -- the dispatch is of the request after those that were received
  obtain ⟨rest, hrest⟩ := hheard'.executed hmax
  have hat : ((requests s'.actions).map actionOf)[s.served.length]? = some a := by
    rw [← hrest, hserved]
    simp
  rw [List.getElem?_map, Option.map_eq_some_iff, hactions] at hat
  obtain ⟨frame, hframe, rfl⟩ := hat
  have hbuilt := hheard'.requests_built frame (by rw [hactions]; exact List.mem_of_getElem? hframe)
  have hlt : link.received < (requests link.actions).length := by
    rw [h.received, h.actions]
    exact (List.getElem?_eq_some_iff.mp hframe).1
  have hreceive : Link.step (setup fw config lastInstant) link .receive
      = some { link with received := link.received + 1 } := if_pos hlt
  have hfree : ∀ r ∈ link.replies, r.origin ≠ some link.received := by
    rintro ⟨f, origin⟩ hr rfl
    have hmem : (f, link.received) ∈ answers link.replies := mem_answers.mpr hr
    rw [h.answered, h.received, List.mem_zipIdx_iff_getElem?] at hmem
    have hout := (List.getElem?_eq_some_iff.mp hmem).1
    simp at hout
  have hreply : Link.step (setup fw config lastInstant)
      { link with received := link.received + 1 }
      (.reply link.received (fw.answer app (actionOf frame)))
        = some { link with
            received := link.received + 1
            replies := link.replies ++ [⟨fw.answer app (actionOf frame), some link.received⟩]
            wire := link.wire ++ replyBytes cfg (fw.answer app (actionOf frame)) } := by
    refine if_pos ⟨Nat.lt_succ_self _, hfree, decide_eq_true (fw.answer_length app hfit), frame, ?_,
      answers_action app hbuilt⟩
    rw [h.received, h.actions]
    exact hframe
  refine ⟨[.receive, .reply link.received (fw.answer app (actionOf frame))],
    { link with
      received := link.received + 1
      replies := link.replies ++ [⟨fw.answer app (actionOf frame), some link.received⟩]
      wire := link.wire ++ replyBytes cfg (fw.answer app (actionOf frame)) }, ?_, ?_⟩
  · rw [Machine.run_cons, hreceive, Option.bind_some, Machine.run_cons, hreply]
    rfl
  · refine ⟨h.client.trans hclient.symm, h.actions.trans hactions.symm, ?_, ?_, ?_, ?_⟩
    · rw [hwire, ← h.wire]
    · rw [hlen, ← h.received]
    · rw [answers_append, h.answered, hserved, List.map_append, List.zipIdx_append, h.received]
      simp [answers]
    · rw [notices_append, h.notified, hnotified]
      simp [notices, answer_payload]

/-- The link makes the same call. -/
theorem Follows.call {lastInstant : Nat} {link : Link} (h : Follows fw s link) {op : Client.Call}
    {client : ProtoEmb.Client} {actions : List Client.Action}
    (hallow : (setup fw config lastInstant).allows op = true) (hwire : taken op <+: s.wire)
    (hcall : s.client.call lastInstant op = some (client, actions)) :
    Link.step (setup fw config lastInstant) link (.call op)
        = some { link with client, actions := link.actions ++ actions
                           wire := link.wire.drop (taken op).length } ∧
      Follows fw { s with client, actions := s.actions ++ actions
                          line := s.line ++ written actions
                          wire := s.wire.drop (taken op).length }
        { link with client, actions := link.actions ++ actions
                    wire := link.wire.drop (taken op).length } := by
  constructor
  · rw [Link.step, if_pos ⟨hallow, by rw [h.wire]; exact hwire⟩, h.client]
    show ((s.client.call lastInstant op).bind fun r => _) = _
    rw [hcall]
    rfl
  · refine ⟨rfl, ?_, ?_, h.received, h.answered, h.notified⟩
    · show link.actions ++ actions = s.actions ++ actions
      rw [h.actions]
    · show link.wire.drop _ = s.wire.drop _
      rw [h.wire]

/-- **One event**: the link makes the moves that it stands for. -/
theorem Follows.step {lastInstant : Nat} {link : Link} (h : Follows fw s link)
    (hheard : Heard config s) (hmax : cfg.maxPayload ≤ 65535) {e : LoopEvent σ}
    (hs : s.step fw (setup fw config lastInstant) e = some s') (hpolite : Polite fw s') :
    ∃ moves link', Machine.run (Link.step (setup fw config lastInstant)) link moves = some link' ∧
      Follows fw s' link' := by
  have hheard' := hheard.step hs
  cases e with
  | call op =>
    simp only [Loop.step] at hs
    split at hs
    next hop =>
      obtain ⟨hallow, -, hwire⟩ := hop
      simp only [Option.bind_eq_bind, Option.bind_eq_some_iff, Option.pure_def,
        Option.some.injEq] at hs
      obtain ⟨⟨client, actions⟩, hcall, rfl⟩ := hs
      obtain ⟨hstep, hfollows⟩ := h.call hallow hwire hcall
      exact ⟨[.call op], _, by rw [Machine.run_cons, hstep]; rfl, hfollows⟩
    next => cases hs
  | deliver now =>
    simp only [Loop.step] at hs
    split at hs
    next => cases hs
    next b line hline =>
      have hact := step_actions s.board.runtime (.byte now b)
      cases hc : completes s.board.runtime (.byte now b) with
      | none =>
        rw [hc] at hact
        have hemit := fw.emitted_nil hact
        cases hs
        refine ⟨[], link, rfl, h.client, h.actions, ?_, ?_, ?_, h.notified⟩
        · show link.wire = s.wire ++ _
          rw [show (fw.step (fun _ _ => true) s.board (.byte now b)).2.flatten = [] from hemit,
            List.append_nil, h.wire]
        · simp [hact, h.received]
        · simp [hact, h.answered]
      | some c =>
        rw [hc] at hact
        obtain ⟨a, ha, -⟩ := hact
        have hemit := fw.emitted_single ha
        cases hs
        have hfit : fw.Fits s.board.app a := hpolite (s.board.app, a) (by simp [ha])
        rw [fw.perform_answer s.board.app hfit] at hemit
        refine h.dispatch hheard' hmax rfl rfl ?_ rfl ?_ hfit
        · simp [ha]
        · show s.wire ++ _ = s.wire ++ _
          rw [← hemit]
          rfl
  | tick now =>
    simp only [Loop.step] at hs
    split at hs
    · cases hs
      exact ⟨[], link, rfl, h.client, h.actions, h.wire, h.received, h.answered, h.notified⟩
    · cases hs
  | notify notification =>
    simp only [Loop.step] at hs
    split at hs
    next hcap =>
      cases hs
      have hsend : (setup fw config lastInstant).sendable
          (.notification (fw.structBytes "Notification" notification)) = true :=
        decide_eq_true (Nat.le_trans (fw.structBytes_length_le _ _) hcap)
      refine ⟨[.notify (fw.structBytes "Notification" notification)],
        { link with
          replies :=
            link.replies ++ [⟨.notification (fw.structBytes "Notification" notification), none⟩]
          wire := link.wire
            ++ replyBytes cfg (.notification (fw.structBytes "Notification" notification)) },
        by rw [Machine.run_cons, Link.step, if_pos hsend]; rfl, h.client, h.actions, ?_, h.received,
        ?_, ?_⟩
      · show link.wire ++ replyBytes cfg _ = s.wire ++ _
        rw [h.wire, fw.sendNotification_bytes, if_pos (Nat.le_trans hcap (Nat.min_le_left _ _))]
      · rw [answers_append, h.answered]
        exact List.append_nil _
      · rw [notices_append, h.notified, List.map_append]
        rfl
    next => cases hs
  | work app =>
    cases hs
    exact ⟨[], link, rfl, h.client, h.actions, h.wire, h.received, h.answered, h.notified⟩

/-! ## Runs -/

/-- What holds along a run. -/
structure Closed (fw : Firmware cfg σ) (config : ClientConfig) (lastInstant : Nat)
    (s : Loop cfg σ) : Prop where
  heard : Heard config s
  /-- As long as the handlers are polite, there is a run of the link that does the same. -/
  follows : Polite fw s → ∃ moves link,
    Machine.run (Link.step (setup fw config lastInstant))
      (Link.start (setup fw config lastInstant)) moves = some link ∧ Follows fw s link

theorem closed_start {lastInstant : Nat} (now : UInt32) (app : σ) :
    Closed fw config lastInstant (Loop.start config now app) :=
  ⟨heard_start now app, fun _ => ⟨[], _, rfl, rfl, rfl, rfl, rfl, rfl, rfl⟩⟩

/-- What has been served stays so. -/
theorem served_grows {e : LoopEvent σ} (hs : s.step fw env e = some s') :
    s.served <+: s'.served := by
  cases e with
  | call op =>
    simp only [Loop.step] at hs
    split at hs
    · simp only [Option.bind_eq_bind, Option.bind_eq_some_iff, Option.pure_def,
        Option.some.injEq] at hs
      obtain ⟨⟨client, actions⟩, -, rfl⟩ := hs
      exact List.prefix_refl _
    · cases hs
  | deliver now =>
    simp only [Loop.step] at hs
    split at hs
    · cases hs
    · cases hs
      exact List.prefix_append _ _
  | tick now =>
    simp only [Loop.step] at hs
    split at hs
    · cases hs
      exact List.prefix_refl _
    · cases hs
  | notify notification =>
    simp only [Loop.step] at hs
    split at hs
    · cases hs
      exact List.prefix_refl _
    · cases hs
  | work app =>
    cases hs
    exact List.prefix_refl _

theorem Closed.step {lastInstant : Nat} (h : Closed fw config lastInstant s)
    (hmax : cfg.maxPayload ≤ 65535) {e : LoopEvent σ}
    (hs : s.step fw (setup fw config lastInstant) e = some s') :
    Closed fw config lastInstant s' := by
  refine ⟨h.heard.step hs, fun hpolite => ?_⟩
  obtain ⟨moves, link, hrun, hfollows⟩ :=
    h.follows fun x hx => hpolite x ((served_grows hs).subset hx)
  obtain ⟨more, link', hmore, hfollows'⟩ := hfollows.step h.heard hmax hs hpolite
  exact ⟨moves ++ more, link', by rw [Machine.run_append, hrun]; exact hmore, hfollows'⟩

theorem run_closed {lastInstant : Nat} {now : UInt32} {app : σ} {events : List (LoopEvent σ)}
    (hmax : cfg.maxPayload ≤ 65535)
    (hrun : Machine.run (Loop.step fw (setup fw config lastInstant))
      (Loop.start config now app) events = some s) : Closed fw config lastInstant s :=
  Machine.run_invariant (fun h hs => h.step hmax hs) (closed_start now app) hrun

/-- The application does nothing outside the handlers. -/
def LoopEvent.quiet : LoopEvent σ → Bool
  | .work _ => false
  | _ => true

/-- Every dispatch finds the state that the one before left. -/
def Sequenced (fw : Firmware cfg σ) (app : σ) (s : Loop cfg σ) : Prop :=
  s.served = fw.trace app (s.served.map Prod.snd) ∧
    s.board.app = (s.served.map Prod.snd).foldl fw.after app

theorem Sequenced.step {app : σ} {e : LoopEvent σ} (hquiet : e.quiet = true)
    (h : Sequenced fw app s) (hs : s.step fw env e = some s') : Sequenced fw app s' := by
  cases e with
  | call op =>
    simp only [Loop.step] at hs
    split at hs
    · simp only [Option.bind_eq_bind, Option.bind_eq_some_iff, Option.pure_def,
        Option.some.injEq] at hs
      obtain ⟨⟨client, actions⟩, -, rfl⟩ := hs
      exact h
    · cases hs
  | deliver now =>
    simp only [Loop.step] at hs
    split at hs
    next => cases hs
    next b line hline =>
      have hact := step_actions s.board.runtime (.byte now b)
      cases hs
      show _ = fw.trace app (List.map Prod.snd (s.served ++ _)) ∧
        (fw.performAll _ s.board.app (s.board.runtime.step (.byte now b)).2).1 = _
      cases hc : completes s.board.runtime (.byte now b) with
      | none =>
        rw [hc] at hact
        simp only [hact, List.map_nil, List.append_nil]
        exact h
      | some c =>
        rw [hc] at hact
        obtain ⟨a, ha, -⟩ := hact
        simp only [ha, List.map_cons, List.map_nil, List.map_append, fw.trace_concat,
          List.foldl_append, ← h.1, ← h.2]
        exact ⟨trivial, rfl⟩
  | tick now =>
    simp only [Loop.step] at hs
    split at hs
    · cases hs
      exact h
    · cases hs
  | notify notification =>
    simp only [Loop.step] at hs
    split at hs
    · cases hs
      exact h
    · cases hs
  | work app => cases hquiet

/-- **Requests are executed in order, each once.** In every run the dispatches of the device are
the first of the requests written, as they were written; with nothing on the line they are all
of them. If the application changes nothing outside the handlers, each of them finds the state
that the one before left. As long as what the handlers offer fits both caps, the loop does what
some run of the link does, and its answers are those of the handlers. -/
theorem loop_executes {lastInstant : Nat} {now : UInt32} {app : σ} {events : List (LoopEvent σ)}
    (hmax : cfg.maxPayload ≤ 65535)
    (hrun : Machine.run (Loop.step fw (setup fw config lastInstant))
      (Loop.start config now app) events = some s) :
    s.served.map Prod.snd <+: (requests s.actions).map actionOf ∧
    (s.line = [] → s.served.map Prod.snd = (requests s.actions).map actionOf) ∧
    ((∀ e ∈ events, e.quiet = true) →
      s.served = fw.trace app (s.served.map Prod.snd) ∧
      s.board.app = (s.served.map Prod.snd).foldl fw.after app) ∧
    (Polite fw s → ∃ moves link,
      (Link.start (setup fw config lastInstant)).run (setup fw config lastInstant) moves
        = some link ∧
      Follows fw s link) := by
  have h := run_closed hmax hrun
  refine ⟨h.heard.executed hmax, h.heard.executed_all hmax, fun hquiet => ?_, fun hpolite => ?_⟩
  · exact Machine.run_invariant_of (I := Sequenced fw app) (fun hq h hs => h.step hq hs) hquiet
      ⟨rfl, rfl⟩ hrun
  obtain ⟨moves, link, hlink, hfollows⟩ := h.follows hpolite
  exact ⟨moves, link, run_link.trans hlink, hfollows⟩

section Thermostat

/-- A temperature that is read, and a target that is written. -/
def thermostat : SchemaDecl where
  structs :=
    [("Degrees", { fields := [{ name := "celsius", type := "uint8" }] }),
      ("Notification", { fields := [{ name := "code", type := "uint8" }] })]
  messages :=
    [("temperature",
        { txNode := some "host", commandId := some 5, response := some "Degrees" }),
      ("target", { txNode := some "host", commandId := some 6, request := some "Degrees" })]

def thermostatData : Data := Codec.processed thermostat

/-- The room is as warm as it was told to be. -/
def heater : Firmware ⟨64, 100⟩ UInt8 where
  data := thermostatData
  codec :=
    { encode := fun _ v => Vector.replicate _ (match v with
        | .struct [.int n] => UInt8.ofInt n
        | _ => 0)
      decode := fun _ bytes => .struct [.int (bytes.headD 0).toNat] }
  handlers :=
    { onRead := fun _ s => (s, true, .struct [.int s.toNat])
      onReadRaw := fun _ s => (s, false, ⟨Vector.replicate _ 0, 0⟩)
      onWrite := fun _ arg s => match arg with
        | .request (.struct [.int n]) => (UInt8.ofInt n, .ack)
        | _ => (s, .nack)
      onQuery := fun _ _ s => (s, .nack, ⟨Vector.replicate _ 0, 0⟩) }

/-- The temperature is read at 20 degrees, 25 degrees are written, the temperature is read
again; the first reply is cut in two. -/
def warming : List (LoopEvent UInt8) :=
  [.call (.read 5 .high none), .call (.write 6 [25]), .call (.read 5 .high none),
    .call (.poll ⟨[], 0, 0, 0, none⟩), .deliver 1, .deliver 1, .deliver 1,
    .call (.poll ⟨[.ok [0x55, 0x02, 0x05]], 2, 2, 2, none⟩), .tick 3,
    .call (.poll ⟨[.ok [0x01, 0x00, 0x14, 0xFC]], 4, 4, 4, none⟩), .deliver 5, .deliver 5,
    .deliver 5, .deliver 5, .deliver 5, .deliver 5, .deliver 5,
    .call (.poll ⟨[.ok [0x55, 0x01, 0x06]], 6, 6, 6, none⟩), .deliver 7, .deliver 7, .deliver 7,
    .call (.poll ⟨[.ok [0x55, 0x02, 0x05, 0x01, 0x00, 0x19, 0x01]], 8, 8, 8, none⟩)]

def warmed : Option (Loop ⟨64, 100⟩ UInt8) :=
  Machine.run (Loop.step heater (setup heater ⟨1000⟩ 10000)) (Loop.start ⟨1000⟩ 0 20) warming

/-- What the run comes to. -/
theorem warmed_eq : ∃ s, warmed = some s ∧ s.line = [] ∧ s.actions.all smooth = true ∧
    s.served = [(20, .dispatchRead 5), (20, .dispatchWrite 6 [25]), (25, .dispatchRead 5)] ∧
    (ended (ledger s.actions)).map Prod.snd = [.data 5 [20], .ack 6, .data 5 [25]] ∧
    s.client.pending = none := by
  have heq : warmed.map (fun s => ((s.line, s.actions.all smooth, s.served),
      (ended (ledger s.actions)).map Prod.snd, s.client.pending.isNone))
      = some (([], true, [(20, .dispatchRead 5), (20, .dispatchWrite 6 [25]),
        (25, .dispatchRead 5)]),
        [.data 5 [20], .ack 6, .data 5 [25]], true) := by
    decide +kernel
  obtain ⟨s, hs, h⟩ := Option.map_eq_some_iff.mp heq
  simp only [Prod.mk.injEq] at h
  obtain ⟨⟨hline, hsmooth, hserved⟩, hended, hpending⟩ := h
  exact ⟨s, hs, hline, hsmooth, hserved, hended, Option.isNone_iff_eq_none.mp hpending⟩

theorem warmed_polite {s : Loop ⟨64, 100⟩ UInt8}
    (hs : s.served = [(20, .dispatchRead 5), (20, .dispatchWrite 6 [25]), (25, .dispatchRead 5)]) :
    Polite heater s := by
  intro x hx
  rw [hs] at hx
  simp only [List.mem_cons, List.not_mem_nil, or_false] at hx
  rcases hx with rfl | rfl | rfl
  · exact ⟨by decide +kernel, by decide +kernel⟩
  · trivial
  · exact ⟨by decide +kernel, by decide +kernel⟩

theorem loop_executes_warming :
    ∃ s, warmed = some s ∧
      (requests s.actions).map actionOf
        = [.dispatchRead 5, .dispatchWrite 6 [25], .dispatchRead 5] ∧
      s.served = heater.trace 20 (s.served.map Prod.snd) ∧
      ∃ moves link, (Link.start (setup heater ⟨1000⟩ 10000)).run (setup heater ⟨1000⟩ 10000) moves
          = some link ∧ Follows heater s link := by
  obtain ⟨s, hs, hline, -, hserved, -⟩ := warmed_eq
  have hrun := hs
  unfold warmed at hrun
  have h := loop_executes (by decide) hrun
  refine ⟨s, hs, ?_, (h.2.2.1 (by decide)).1, h.2.2.2 (warmed_polite hserved)⟩
  rw [← h.2.1 hline, hserved]
  rfl

end Thermostat

/-! ## What the caller gets -/

/-- The answer behind the frame that ended a request. -/
theorem Together.ended_answer {link : Link} (h : Together env link)
    (hsmooth : ∀ a ∈ link.actions, smooth a = true) {i : Nat} {t : Ticket} {f : ParsedFrame}
    (hi : (ended (ledger link.actions))[i]? = some (t, f)) :
    (requests link.actions)[i]? = some t.1.frame ∧ (answers link.replies)[i]? = some (f, i) := by
  obtain ⟨hin, horder⟩ := h.inStep hsmooth
  have hlt := (List.getElem?_eq_some_iff.mp hi).1
  constructor
  · rw [(steps_booked h.linked.steps).accounted.requests_eq, hin.sent_eq, List.map_append,
      List.map_map, List.getElem?_append_left (by rw [List.length_map]; exact hlt),
      List.getElem?_map, hi]
    rfl
  · apply (h.linked.aligned horder).get
    obtain ⟨rest, hrest⟩ := h.linked.delivered.filter isReply
    rw [hin.handled_eq, h.linked.frames] at hrest
    rw [← hrest, List.getElem?_append_left (by rw [List.length_map]; exact hlt), List.getElem?_map,
      hi]
    rfl

/-- What ended a request is what the handler answered when the request was dispatched. -/
theorem Closed.ended_served {lastInstant : Nat} (h : Closed fw config lastInstant s)
    (hmax : cfg.maxPayload ≤ 65535) (hpolite : Polite fw s)
    (hsmooth : ∀ a ∈ s.actions, smooth a = true) {i : Nat} {t : Ticket} {f : ParsedFrame}
    (hi : (ended (ledger s.actions))[i]? = some (t, f)) :
    ∃ state, s.served[i]? = some (state, actionOf t.1.frame) ∧
      f = fw.answer state (actionOf t.1.frame) := by
  obtain ⟨moves, link, hlink, hfollows⟩ := h.follows hpolite
  have htogether := run_together (together_start _) (run_link.trans hlink)
  rw [← hfollows.actions] at hi hsmooth
  obtain ⟨hreq, hans⟩ := htogether.ended_answer hsmooth hi
  rw [hfollows.answered, List.getElem?_zipIdx, Option.map_eq_some_iff] at hans
  obtain ⟨f', hf', heq⟩ := hans
  obtain ⟨rfl, -⟩ := Prod.mk.inj heq
  rw [List.getElem?_map, Option.map_eq_some_iff] at hf'
  obtain ⟨⟨state, a⟩, hserved, rfl⟩ := hf'
  -- the dispatch is the one that the request asks for
  obtain ⟨rest, hrest⟩ := h.heard.executed hmax
  have hat : ((requests s.actions).map actionOf)[i]? = some a := by
    rw [← hrest, List.getElem?_append_left, List.getElem?_map, hserved]
    · rfl
    · rw [List.length_map]
      exact (List.getElem?_eq_some_iff.mp hserved).1
  rw [hfollows.actions] at hreq
  rw [List.getElem?_map, hreq] at hat
  cases hat
  exact ⟨state, hserved, rfl⟩

/-- **What the caller gets is what the handler answered.** In every run without timeouts and read
errors: the requests written are those that have been answered and the pending one; the `i`-th
answer that the client got is the one that the handler gave when the device executed the
`i`-th request, on the state it found; and the client reports every frame as what it is. With
nothing pending, every request executed has been answered. -/
theorem loop_returns {lastInstant : Nat} {now : UInt32} {app : σ} {events : List (LoopEvent σ)}
    (hmax : cfg.maxPayload ≤ 65535)
    (hrun : Machine.run (Loop.step fw (setup fw config lastInstant))
      (Loop.start config now app) events = some s)
    (hpolite : Polite fw s) (hsmooth : ∀ a ∈ s.actions, smooth a = true) :
    requests s.actions = ((ended (ledger s.actions)).map fun e => e.1.1.frame)
        ++ (s.client.pending.map PendingRequest.frame).toList ∧
    (∀ (i : Nat) (t : Ticket) (f : ParsedFrame), (ended (ledger s.actions))[i]? = some (t, f) →
      ∃ state, s.served[i]? = some (state, actionOf t.1.frame) ∧
        f = fw.answer state (actionOf t.1.frame)) ∧
    (∀ f event, .frame f event ∈ s.actions → event = eventOf f) ∧
    (s.client.pending = none → s.served.length = (ended (ledger s.actions)).length) := by
  have h := run_closed hmax hrun
  obtain ⟨moves, link, hlink, hfollows⟩ := h.follows hpolite
  have htogether := run_together (together_start _) (run_link.trans hlink)
  obtain ⟨hin, -⟩ := htogether.inStep (by rw [hfollows.actions]; exact hsmooth)
  rw [hfollows.actions] at hin
  have hbooked := steps_booked h.heard.steps
  have hsent : requests s.actions = ((ended (ledger s.actions)).map fun e => e.1.1.frame)
      ++ (s.client.pending.map PendingRequest.frame).toList := by
    rw [hbooked.accounted.requests_eq, hin.sent_eq, List.map_append, List.map_map,
      hbooked.matched.pending]
    congr 1
    cases (ledger s.actions).pending <;> rfl
  have hget := fun i t f => h.ended_served hmax hpolite hsmooth (i := i) (t := t) (f := f)
  refine ⟨hsent, hget, hin.events, fun hidle => ?_⟩
  rw [hidle, Option.map_none, Option.toList_none, List.append_nil] at hsent
  have hle := (h.heard.executed hmax).length_le
  rw [List.length_map, List.length_map, hsent, List.length_map] at hle
  refine Nat.le_antisymm hle ?_
  -- the last of the answered requests has been executed
  by_contra hlt
  obtain ⟨⟨t, f⟩, hi⟩ : ∃ e, (ended (ledger s.actions))[s.served.length]? = some e :=
    ⟨_, List.getElem?_eq_getElem (by omega)⟩
  obtain ⟨state, hserved, -⟩ := hget _ t f hi
  have hout := (List.getElem?_eq_some_iff.mp hserved).1
  omega

/-- The two reads return the temperature before and after the write. -/
theorem loop_returns_warming :
    ∃ s, warmed = some s ∧
      (ended (ledger s.actions)).map Prod.snd = [.data 5 [20], .ack 6, .data 5 [25]] ∧
      ∀ (i : Nat) (t : Ticket) (f : ParsedFrame), (ended (ledger s.actions))[i]? = some (t, f) →
        ∃ state, s.served[i]? = some (state, actionOf t.1.frame) ∧
          f = heater.answer state (actionOf t.1.frame) := by
  obtain ⟨s, hs, -, hsmooth, hserved, hended, -⟩ := warmed_eq
  have hrun := hs
  unfold warmed at hrun
  exact ⟨s, hs, hended, (loop_returns (by decide) hrun (warmed_polite hserved)
    (List.all_eq_true.mp hsmooth)).2.1⟩

end ProtoEmb.System
