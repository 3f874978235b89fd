import ProtoEmb.Client.Mirror
import ProtoEmb.Device.Answers
import ProtoEmb.Device.Requests
import ProtoEmb.System.Link

/-!
# Schema, dispatcher and client on the kind of a reply

A message of the schema prescribes an operation of the client: a read if its command frame is
READ, a query if it is WRITE and the message has a response, and a write otherwise. The
client decides by that which reply ends the request. The dispatcher decides by `_semantic`
which reply it sends, and `_semantic` is derived from other attributes: a message with a
period is `periodic` whatever else it declares.

So the two part ways on one combination: a message with a period, an explicit
`command_frame: write` and a response. The client sends a query, and the dispatcher treats it
as a write; an ACK does not end a query. `operation_completes_iff` has this and the sizes of
`run_answers_iff` as the exact condition under which the reply ends the request.
-/

namespace ProtoEmb.System

open ProtoEmb.Framing ProtoEmb.Schema ProtoEmb.Client ProtoEmb.Device

/-! ## Operations -/

/-- The operation a message prescribes, with the caller's choices for a read. -/
def operation (m : Message) (command : UInt8) (payload : List UInt8) (priority : Priority)
    (coalesceKey : Option String) : QueuedMessage :=
  if m.commandFrame = some .read then Client.read command priority coalesceKey
  else if m.decl.response.isSome then Client.query command payload
  else Client.write command payload

/-- The dispatch that its frame asks for. -/
def dispatched (m : Message) (command : UInt8) (payload : List UInt8) : Device.Action :=
  if m.commandFrame = some .read then .dispatchRead command else .dispatchWrite command payload

/-- The device accepts the payload for the message: it fits a frame and the receive buffer,
and there is a handler for its size. -/
structure Accepts {cfg : RuntimeConfig} {σ : Type} (fw : Firmware cfg σ) (m : Message)
    (payload : List UInt8) : Prop where
  word : payload.length < 65536
  cap : payload.length ≤ cfg.maxPayload
  handler : (fw.argument m payload).isSome = true

/-- The case of the message in its dispatcher. -/
def caseOf {cfg : RuntimeConfig} {σ : Type} (fw : Firmware cfg σ) (m : Message) (s : σ)
    (command : UInt8) (payload : List UInt8) : σ × List (List UInt8) :=
  if m.commandFrame = some .read then fw.readCase (fun _ _ => true) m s command
  else fw.writeCase (fun _ _ => true) m s command payload

/-- What the device sent is one reply that ends the request the host waits for. -/
def Completes (cfg : RuntimeConfig) (host : ProtoEmb.Client) (sent : List UInt8) : Prop :=
  ∃ reply host' event, sent = replyBytes cfg reply ∧ (host.parser.feedBytes sent).2 = [reply] ∧
    host.handleFrame reply = some (host', event) ∧ host'.pending = none

/-- The handler of a periodic message that is written and has a response says ACK. -/
def AcksQuery {cfg : RuntimeConfig} {σ : Type} (fw : Firmware cfg σ) (m : Message) (s : σ)
    (payload : List UInt8) : Prop :=
  m.isPeriodic = true ∧ m.commandFrame = some .write ∧ m.decl.response.isSome = true ∧
    ∃ arg ∈ fw.argument m payload, (fw.handlers.onWrite m.name arg s).2 = .ack

/-! ## Routing -/

section Routing

variable {cfg : RuntimeConfig} {σ : Type} {fw : Firmware cfg σ} {rnd : Rat → Rat} {m : Message}
  {c : UInt8} {payload : List UInt8}

/-- A message with an id is a case of the dispatcher of its frame. -/
theorem mem_cases {schema : SchemaDecl} (hp : processSchema rnd schema = .ok fw.data)
    (hm : m ∈ fw.data.messages) (hid : m.hasId c = true) :
    (m.commandFrame = some .read ∧ m ∈ fw.data.runtimeReadMessages) ∨
      (m.commandFrame = some .write ∧ m ∈ fw.data.runtimeWriteMessages) := by
  have hframe : m.commandFrame = some .read ∨ m.commandFrame = some .write := by
    rw [processSchema_messages hp] at hm
    obtain ⟨⟨name, decl⟩, -, rfl⟩ := List.mem_map.mp hm
    apply processMessage_frame
    have hsome := Message.hasId_iff.mp hid
    rw [show decl.commandId = _ from hsome]
    rfl
  rcases hframe with h | h
  · refine Or.inl ⟨h, (List.mem_insertionSort _).mpr (List.mem_filter.mpr ⟨hm, ?_⟩)⟩
    exact decide_eq_true h
  · refine Or.inr ⟨h, (List.mem_insertionSort _).mpr (List.mem_filter.mpr ⟨hm, ?_⟩)⟩
    exact decide_eq_true h

/-- The dispatcher routes the request to the message's own case. -/
theorem dispatch_routed {schema : SchemaDecl} (hp : processSchema rnd schema = .ok fw.data)
    (hv : validateSchema rnd fw.data = []) (hm : m ∈ fw.data.messages) (hid : m.hasId c = true)
    (s : σ) :
    fw.perform (fun _ _ => true) s (dispatched m c payload) = caseOf fw m s c payload ∧
      fw.outcome s (dispatched m c payload)
        = if m.commandFrame = some .read then fw.readOutcome m s
          else fw.writeOutcome m s payload := by
  obtain ⟨hread, hwrite, -⟩ := uniqueIds_of_accepted hv
  unfold dispatched caseOf
  rcases mem_cases hp hm hid with ⟨hf, hmem⟩ | ⟨hf, hmem⟩
  · simp only [hf, if_true, Firmware.perform, Firmware.dispatchRead, Firmware.outcome,
      hread.find_eq hmem hid, Option.map_some, Option.getD_some, and_self]
  · simp [hf, Firmware.perform, Firmware.dispatchWrite, Firmware.outcome, hwrite.find_eq hmem hid]

/-- The frame of the operation makes the runtime dispatch it, and nothing else. -/
theorem run_dispatched {rt : Runtime cfg} {inputs : List Device.Input} {priority : Priority}
    {key : Option String} (hs : rt.state = .sync)
    (hacc : m.commandFrame ≠ some .read → Accepts fw m payload)
    (hbytes : inputs.filterMap Device.Input.byte? = (operation m c payload priority key).frame)
    (htime : rt.InTime inputs) : (rt.run inputs).2 = [dispatched m c payload] := by
  rw [(Runtime.run_inTime htime).1, hbytes]
  unfold operation dispatched
  by_cases hf : m.commandFrame = some .read
  · rw [if_pos hf, if_pos hf]
    obtain ⟨rt', hfeed, -⟩ := Runtime.feedBytes_read hs c
    show (rt.feedBytes [syncByte, 0x00, c]).2 = _
    rw [hfeed]
  · obtain ⟨h16, hcap, -⟩ := hacc hf
    obtain ⟨rt', hfeed, -⟩ := Runtime.feedBytes_buildWriteFrame hs c hcap h16
    rw [if_neg hf, if_neg hf]
    -- a query and a write have the same frame
    have hframe : (if m.decl.response.isSome then Client.query c payload
        else Client.write c payload).frame = buildWriteFrame c payload := by
      split <;> rfl
    rw [hframe, hfeed]

/-- A run emits what its actions send. -/
theorem output_eq :
    ∀ (inputs : List Device.Input) (d : Board cfg σ),
      fw.output d inputs
        = (fw.performAll (fun _ _ => true) d.app (d.runtime.run inputs).2).2.flatten := by
  intro inputs
  induction inputs with
  | nil => intro d; rfl
  | cons i inputs ih =>
    intro d
    have hrest := ih (fw.step (fun _ _ => true) d i).1
    simp only [Firmware.output, Firmware.calls, List.flatMap_cons] at hrest ⊢
    rw [hrest, Runtime.run, Firmware.performAll_append, List.flatten_append]
    rfl

end Routing

/-! ## The host that waits -/

section Host

variable {host : ProtoEmb.Client} {p : PendingRequest} {f : ParsedFrame}

/-- A frame that ends the pending request does so. -/
theorem handleFrame_ends {l : Logs Payload} (hst : host.store.Mirrors l)
    (hp : host.pending = some p) (hend : p.endedBy f = true) :
    ∃ host' event, host.handleFrame f = some (host', event) ∧ host'.pending = none := by
  have hsome : ∃ host' event, host.handleFrame f = some (host', event) := by
    cases f with
    | ack cmd => exact ⟨_, _, rfl⟩
    | nack cmd => exact ⟨_, _, rfl⟩
    | notification payload => exact ⟨_, _, rfl⟩
    | data cmd payload =>
      -- the buffers of the storage are sound, so storing does not panic
      obtain ⟨store, hstore, -⟩ := hst.store cmd payload
      have hexp : p.command = cmd ∧ p.expect = .data := by
        simpa [PendingRequest.endedBy, ends] using hend
      simp only [handleFrame, handleData, hp, if_pos hexp, autoStore]
      by_cases hreg : host.store.isRegistered cmd = true
      · simp [hreg, hstore]
      · simp [hreg]
  obtain ⟨host', event, hh⟩ := hsome
  refine ⟨host', event, hh, ?_⟩
  rw [(handleFrame_spec hh).1]
  exact pendingAfter_ends hp hend

/-- A frame that does not end it leaves it pending. -/
theorem handleFrame_keeps {host' : ProtoEmb.Client} {event : Event} (hp : host.pending = some p)
    (hkeep : p.endedBy f = false) (hh : host.handleFrame f = some (host', event)) :
    host'.pending = some p := by
  rw [(handleFrame_spec hh).1]
  exact (pendingAfter_keeps hp hkeep).trans hp

theorem feedBytes_addressing :
    ∀ (bytes : List UInt8) (q : FrameParser), (q.feedBytes bytes).1.addressing = q.addressing := by
  intro bytes
  induction bytes with
  | nil => intro q; rfl
  | cons b bytes ih =>
    intro q
    have hfeed : (q.feed b).1.addressing = q.addressing := by
      unfold FrameParser.feed
      cases q.state <;> dsimp only <;> split_ifs <;> rfl
    rw [FrameParser.feedBytes, ih, hfeed]

/-- The client's parser does not expect addresses. -/
theorem run_addressing {lastInstant : Nat} :
    ∀ {ops : List Client.Call} {c c' : ProtoEmb.Client} {actions : List Client.Action},
      c.run lastInstant ops = some (c', actions) → c'.parser.addressing = c.parser.addressing := by
  intro ops
  induction ops with
  | nil =>
    intro c c' actions h
    cases h
    rfl
  | cons op ops ih =>
    intro c c' actions h
    simp only [Client.run, Option.bind_eq_bind, Option.bind_eq_some_iff, Option.pure_def,
      Option.some.injEq, Prod.mk.injEq] at h
    obtain ⟨⟨c₁, acts⟩, hcall, ⟨c₂, more⟩, hrest, rfl, rfl⟩ := h
    have hparser := congrArg Prod.fst (call_handled hcall)
    rw [ih hrest, ← feedBytes_addressing (taken op) c.parser, hparser]

end Host

/-! ## The kind of the reply -/

section Kind

variable {cfg : RuntimeConfig} {σ : Type} {fw : Firmware cfg σ} {rnd : Rat → Rat} {m : Message}
  {c : UInt8} {payload : List UInt8} {s : σ} {priority : Priority} {key : Option String}

theorem readOutcome_ne_ack : fw.readOutcome m s ≠ .ack := by
  unfold Firmware.readOutcome
  split
  · split <;> simp
  · dsimp only
    split <;> simp

theorem writeOutcome_ack_iff :
    fw.writeOutcome m s payload = .ack ↔
      m.semantic ≠ .query ∧
        ∃ arg ∈ fw.argument m payload, (fw.handlers.onWrite m.name arg s).2 = .ack := by
  unfold Firmware.writeOutcome
  cases fw.argument m payload with
  | none => simp
  | some arg =>
    by_cases hq : m.semantic = .query
    · simp only [hq, if_true, ne_eq, not_true_eq_false, false_and, iff_false]
      split <;> simp
    · simp [hq]

theorem query_of_writeOutcome_data {n : Nat} (h : fw.writeOutcome m s payload = .data n) :
    m.semantic = .query := by
  unfold Firmware.writeOutcome at h
  by_contra hq
  cases harg : fw.argument m payload with
  | none => simp [harg] at h
  | some arg =>
    simp only [harg, if_neg hq] at h
    split at h <;> cases h

/-- A DATA is decided on only where the client expects one. -/
theorem expect_of_data (hid : m.hasId c = true) {n : Nat}
    (h : (if m.commandFrame = some .read then fw.readOutcome m s else fw.writeOutcome m s payload)
      = .data n) : (operation m c payload priority key).expect = .data := by
  unfold operation
  by_cases hf : m.commandFrame = some .read
  · rw [if_pos hf]
    rfl
  · rw [if_neg hf] at h ⊢
    have hsome : m.decl.commandId.isSome = true := by rw [Message.hasId_iff.mp hid]; rfl
    have hr := ((Message.semantic_query_iff hsome).mp (query_of_writeOutcome_data h)).2
    rw [if_pos hr]
    rfl

/-- An ACK is decided on where the client expects one, or a periodic message is asked like a
query. -/
theorem expect_of_ack (hframe : m.commandFrame = some .read ∨ m.commandFrame = some .write)
    (hid : m.hasId c = true)
    (h : (if m.commandFrame = some .read then fw.readOutcome m s else fw.writeOutcome m s payload)
      = .ack) :
    (operation m c payload priority key).expect = .ack ∨ AcksQuery fw m s payload := by
  have hsome : m.decl.commandId.isSome = true := by rw [Message.hasId_iff.mp hid]; rfl
  by_cases hf : m.commandFrame = some .read
  · rw [if_pos hf] at h
    exact absurd h readOutcome_ne_ack
  · rw [if_neg hf, writeOutcome_ack_iff] at h
    obtain ⟨hq, harg⟩ := h
    by_cases hr : m.decl.response.isSome = true
    · refine Or.inr ⟨?_, hframe.resolve_left hf, hr, harg⟩
      by_contra hper
      exact hq ((Message.semantic_query_iff hsome).mpr ⟨by simpa using hper, hr⟩)
    · refine Or.inl ?_
      rw [operation, if_neg hf, if_neg hr]
      rfl

/-- In that case the ACK is what is decided on, and the client expects DATA. -/
theorem AcksQuery.spec (h : AcksQuery fw m s payload) (hid : m.hasId c = true) :
    (if m.commandFrame = some .read then fw.readOutcome m s else fw.writeOutcome m s payload)
        = .ack ∧ (operation m c payload priority key).expect = .data := by
  obtain ⟨hper, hf, hr, harg⟩ := h
  have hsome : m.decl.commandId.isSome = true := by rw [Message.hasId_iff.mp hid]; rfl
  have hnot : ¬ m.commandFrame = some .read := by rw [hf]; nofun
  constructor
  · rw [if_neg hnot, writeOutcome_ack_iff]
    refine ⟨fun hq => ?_, harg⟩
    have hno := ((Message.semantic_query_iff hsome).mp hq).1
    rw [hper] at hno
    cases hno
  · rw [operation, if_neg hnot, if_pos hr]
    rfl

/-- The pending request of an operation. -/
theorem sent_command {config : ClientConfig} {now : Nat} :
    ((operation m c payload priority key).sent config now).command = c := by
  unfold operation
  split_ifs
  all_goals rfl

/-- **Schema, dispatcher and client agree on the reply kind.** Let the host issue the
operation that a message of an accepted schema prescribes, with a payload the device accepts,
and wait for its reply. The frame is dispatched to the message's own case, and what the device
sends ends the request the host waits for, if and only if what the handler offers as DATA fits
both caps and the handler of a periodic message that is written and has a response does not
say ACK. -/
theorem operation_completes_iff {schema : SchemaDecl}
    (hp : processSchema rnd schema = .ok fw.data) (hv : validateSchema rnd fw.data = [])
    (hm : m ∈ fw.data.messages) (hid : m.hasId c = true)
    (hacc : m.commandFrame ≠ some .read → Accepts fw m payload)
    {d : Board cfg σ} (hs : d.runtime.state = .sync) {inputs : List Device.Input}
    (hbytes : inputs.filterMap Device.Input.byte? = (operation m c payload priority key).frame)
    (htime : d.runtime.InTime inputs) {config : ClientConfig} {lastInstant now : Nat}
    {ops : List Client.Call} {host : ProtoEmb.Client} {actions : List Client.Action}
    (hrun : (withConfig config).run lastInstant ops = some (host, actions))
    (hpending : host.pending = some ((operation m c payload priority key).sent config now))
    (hsync : host.parser.state = .sync) :
    (d.runtime.run inputs).2 = [dispatched m c payload] ∧
      fw.perform (fun _ _ => true) d.app (dispatched m c payload) = caseOf fw m d.app c payload ∧
      (Completes cfg host (fw.output d inputs) ↔
        (fw.outcome d.app (dispatched m c payload)).Fits cfg ∧ ¬ AcksQuery fw m d.app payload) := by
  have hact := run_dispatched hs hacc hbytes htime
  obtain ⟨hcase, hout⟩ := @dispatch_routed cfg σ fw rnd m c payload schema hp hv hm hid d.app
  refine ⟨hact, hcase, ?_⟩
  have hsent : fw.output d inputs
      = (fw.perform (fun _ _ => true) d.app (dispatched m c payload)).2.flatten := by
    rw [output_eq, hact]
    simp [Firmware.performAll]
  have hcmd : (dispatched m c payload).commandByte = c := by
    unfold dispatched
    split <;> rfl
  have hends := fw.perform_ends d.app (dispatched m c payload)
  rw [← hsent, hcmd] at hends
  have hframe : m.commandFrame = some .read ∨ m.commandFrame = some .write := by
    rcases mem_cases hp hm hid with ⟨h, -⟩ | ⟨h, -⟩
    · exact Or.inl h
    · exact Or.inr h
  have haddr : host.parser.addressing = false := run_addressing hrun
  have hreads : ∀ {reply : ParsedFrame}, fw.output d inputs = replyBytes cfg reply →
      (replyPayload reply).length ≤ min cfg.maxPayload maxPayloadSize →
      (host.parser.feedBytes (fw.output d inputs)).2 = [reply] := by
    intro reply hreply hcap
    rw [hreply]
    exact read_replyBytes hsync haddr hcap
  have hended : ∀ reply, ((operation m c payload priority key).sent config now).endedBy reply
      = ends c (operation m c payload priority key).expect reply := by
    intro reply
    rw [PendingRequest.endedBy, sent_command]
    rfl
  rw [hout] at hends ⊢
  constructor
  · rintro ⟨reply, host', event, hreply, hread, hh, hnone⟩
    refine ⟨hends.fits hsync hreply hread, fun hacks => ?_⟩
    -- the device sends an ACK, and the client goes on waiting for DATA
    obtain ⟨hack, hexp⟩ := @AcksQuery.spec cfg σ fw m c payload d.app priority key hacks hid
    rw [hack] at hends
    obtain ⟨_, rfl, hbytes, hcap⟩ := hends.reply trivial
    rw [hreads hbytes hcap] at hread
    cases hread
    have hkeep := handleFrame_keeps hpending (by rw [hended, hexp]; simp [ends]) hh
    rw [hnone] at hkeep
    cases hkeep
  · rintro ⟨hfit, hno⟩
    obtain ⟨reply, hkind, hbytes, hcap⟩ := hends.reply hfit
    have hend : ends c (operation m c payload priority key).expect reply = true := by
      cases hout : (if m.commandFrame = some .read then fw.readOutcome m d.app
          else fw.writeOutcome m d.app payload) with
      | nack =>
        rw [hout] at hkind
        rw [show reply = .nack c from hkind]
        simp [ends]
      | ack =>
        rw [hout] at hkind
        rw [show reply = .ack c from hkind,
          (expect_of_ack hframe hid hout).resolve_right hno]
        simp [ends]
      | data n =>
        rw [hout] at hkind
        obtain ⟨data, -, rfl⟩ := hkind
        rw [expect_of_data hid hout]
        simp [ends]
    obtain ⟨host', event, hh, hnone⟩ := handleFrame_ends (run_mirrors hrun) hpending
      ((hended reply).trans hend)
    exact ⟨reply, host', event, hbytes, hreads hbytes hcap, hh, hnone⟩

end Kind

/-! ## A periodic message that is written -/

section Polled

/-- A state that is asked for every 100 ms in a WRITE frame. -/
def polled : SchemaDecl where
  structs :=
    [("State", { fields := [{ name := "mode", type := "uint8" }] }),
      ("Notification", { fields := [{ name := "code", type := "uint8" }] })]
  messages :=
    [("state",
        { txNode := some "host", commandId := some 7, periodMs := some 100,
          response := some "State", commandFrame := some "write" })]

def polledData : Data := Codec.processed polled

/-- A device whose handler answers with `disposition`. -/
def poller (disposition : WriteDisposition) : Firmware ⟨64, 100⟩ Unit where
  data := polledData
  codec := ⟨fun _ _ => Vector.replicate _ 0, fun _ _ => .struct []⟩
  handlers :=
    { onRead := fun _ s => (s, false, .struct [])
      onReadRaw := fun _ s => (s, false, ⟨Vector.replicate _ 0, 0⟩)
      onWrite := fun _ _ s => (s, disposition)
      onQuery := fun _ _ s => (s, .nack, ⟨Vector.replicate _ 0, 0⟩) }

def stateMessage : Message :=
  processMessage "state"
    { txNode := some "host", commandId := some 7, periodMs := some 100, response := some "State",
      commandFrame := some "write" }

/-- The host has sent the query and waits. -/
def waiting : List Client.Call := [.query 7 [], .poll ⟨[], 0, 0, 0, none⟩]

def queryBytes : List Device.Input :=
  [.byte 0 0x55, .byte 0 0x01, .byte 0 0x07, .byte 0 0x00, .byte 0 0x00, .byte 0 0x00]

/-- If the handler refuses, the NACK ends the query. -/
theorem operation_completes_iff_polled :
    ∃ host actions, (withConfig ⟨1000⟩).run 10000 waiting = some (host, actions) ∧
      Completes ⟨64, 100⟩ host ((poller .nack).output ⟨Runtime.init _ 0, ()⟩ queryBytes) := by
  refine ⟨_, _, rfl, ?_⟩
  refine (@operation_completes_iff ⟨64, 100⟩ Unit (poller .nack) id stateMessage 7 [] .high none
    polled rfl (by decide +kernel) (List.mem_cons_self ..) rfl
    (fun _ => ⟨by decide, by decide, rfl⟩) ⟨Runtime.init _ 0, ()⟩ rfl queryBytes rfl
    (by decide +kernel) ⟨1000⟩ 10000 0 waiting _ _ rfl rfl rfl).2.2.mpr ⟨trivial, ?_⟩
  rintro ⟨-, -, -, arg, -, hack⟩
  cases hack

/-- If it acknowledges, the host goes on waiting for DATA. -/
theorem periodic_query_acked :
    processSchema id polled = .ok polledData ∧ validateSchema id polledData = [] ∧
      stateMessage ∈ polledData.messages ∧ stateMessage.hasId 7 = true ∧
      queryBytes.filterMap Device.Input.byte? = (operation stateMessage 7 [] .high none).frame ∧
      ∃ host actions, (withConfig ⟨1000⟩).run 10000 waiting = some (host, actions) ∧
        host.pending = some ((operation stateMessage 7 [] .high none).sent ⟨1000⟩ 0) ∧
        host.parser.state = .sync ∧
        ¬ Completes ⟨64, 100⟩ host ((poller .ack).output ⟨Runtime.init _ 0, ()⟩ queryBytes) := by
  refine ⟨rfl, by decide +kernel, List.mem_cons_self .., rfl, rfl, _, _, rfl, rfl, rfl, ?_⟩
  rintro ⟨reply, host', event, -, hread, hh, hnone⟩
  have hack : [ParsedFrame.ack 7] = [reply] := hread
  cases hack
  cases hh
  cases hnone

end Polled

end ProtoEmb.System
