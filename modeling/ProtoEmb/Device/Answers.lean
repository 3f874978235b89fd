import ProtoEmb.Codec.Agreement
import ProtoEmb.Device.Dispatch

/-!
# One reply per request

What the runtime of `protocol_runtime.c.j2` emits, call by call. A READ is complete with its
command byte and a WRITE with its CRC byte, whether or not the CRC matches (`completes`); no other
call emits anything. `perform_ends` says once how a dispatch ends: with an ACK or a NACK, with
DATA, or with a payload that `sendFrame` refuses. The request is answered unless what is offered
as DATA is above one of the two caps (`perform_answered_iff`), and the results about runs are
that, call by call.

The C code returns whether `sendBytes` took the bytes and casts it to `void`; here it always
does, and what it was given is the output.
-/

namespace ProtoEmb.Device

open ProtoEmb.Lib ProtoEmb.Framing ProtoEmb.Schema ProtoEmb.Codec

/-- The runtime and the application's state. -/
structure Board (cfg : RuntimeConfig) (σ : Type) where
  runtime : Runtime cfg
  app : σ

/-- The command of the request that a call completes. -/
def completes {cfg : RuntimeConfig} (rt : Runtime cfg) : Input → Option UInt8
  | .byte _ b =>
    match rt.state with
    | .command => if rt.frameType = 0x00 then some b else none
    | .crc => some rt.command
    | _ => none
  | .tick _ => none

def Action.commandByte : Action → UInt8
  | .dispatchRead command => command
  | .dispatchWrite command _ => command
  | .sendNack command => command

/-- What is decided on a request: an ACK, a NACK, or DATA of a size. -/
inductive Outcome where
  | ack
  | nack
  | data (size : Nat)
  deriving DecidableEq, Repr

/-- A payload of that size is accepted by `sendFrame` and by the host. -/
def Outcome.Fits (cfg : RuntimeConfig) : Outcome → Prop
  | .data size => size ≤ cfg.maxPayload ∧ size ≤ maxPayloadSize
  | .ack | .nack => True

namespace Firmware

variable {cfg : RuntimeConfig} {σ : Type} (fw : Firmware cfg σ)

/-- One call, with the `sendBytes` calls it makes. -/
def step (sendBytes : Nat → List UInt8 → Bool) (d : Board cfg σ) (i : Input) :
    Board cfg σ × List (List UInt8) :=
  let r := d.runtime.step i
  let t := fw.performAll sendBytes d.app r.2
  (⟨r.1, t.1⟩, t.2)

/-- The calls of a run, each with the state it finds. -/
def calls (sendBytes : Nat → List UInt8 → Bool) (d : Board cfg σ) :
    List Input → List (Board cfg σ × Input)
  | [] => []
  | i :: rest => (d, i) :: calls sendBytes (fw.step sendBytes d i).1 rest

/-- The bytes a call emits when every `sendBytes` call succeeds. -/
def emitted (d : Board cfg σ) (i : Input) : List UInt8 :=
  (fw.step (fun _ _ => true) d i).2.flatten

/-- What the handler of a READ decides: a struct, as large as it is, or a payload of the size
it reports if that is not too large for the runtime. -/
def readOutcome (m : Message) (s : σ) : Outcome :=
  match readStruct m with
  | some name =>
    if (fw.handlers.onRead m.name s).2.1 then .data (wireSizeOf fw.data name % 65536) else .nack
  | none =>
    let r := fw.handlers.onReadRaw m.name s
    if r.2.1 && r.2.2.size.toNat ≤ cfg.maxPayload then .data r.2.2.size.toNat else .nack

/-- What the handler of a WRITE decides. A query has a payload of whatever size it reports. -/
def writeOutcome (m : Message) (s : σ) (payload : List UInt8) : Outcome :=
  match fw.argument m payload with
  | some arg =>
    if m.semantic = .query then
      if (fw.handlers.onQuery m.name arg s).2.1 = .data then
        .data (fw.handlers.onQuery m.name arg s).2.2.size.toNat
      else .nack
    else if (fw.handlers.onWrite m.name arg s).2 = .ack then .ack else .nack
  | none => .nack

/-- What is decided on a request. -/
def outcome (s : σ) : Action → Outcome
  | .dispatchRead command =>
    ((fw.data.runtimeReadMessages.find? fun m => m.hasId command).map fun m =>
      fw.readOutcome m s).getD .nack
  | .dispatchWrite command payload =>
    ((fw.data.runtimeWriteMessages.find? fun m => m.hasId command).map fun m =>
      fw.writeOutcome m s payload).getD .nack
  | .sendNack _ => .nack

/-- What is offered as DATA fits the runtime and the host. -/
def Fits (s : σ) (a : Action) : Prop := (fw.outcome s a).Fits cfg

end Firmware

/-! ## What `sendFrame` makes of a reply -/

section Send

variable {cfg : RuntimeConfig} {c : UInt8}

theorem sendData_refused {payload : List UInt8} {size : UInt16} (h : cfg.maxPayload < size.toNat) :
    sendData cfg (fun _ _ => true) c payload size = [] := by
  unfold sendData sendFrame
  rw [if_neg (by simp), if_pos h]

/-- The first `size` bytes of the buffer are the payload. -/
theorem sendData_bytes {payload : List UInt8} {size : UInt16} (hbuf : size.toNat ≤ payload.length) :
    (sendData cfg (fun _ _ => true) c payload size).flatten
      = replyBytes cfg (.data c (payload.take size.toNat)) := by
  have hlen : (payload.take size.toNat).length = size.toNat := List.length_take_of_le hbuf
  have hsize : lenU16 (payload.take size.toNat) = size := by
    rw [lenU16, hlen, UInt16.ofNat_toNat]
  have hcrc :
      runtimeCrc8 payload size.toNat = runtimeCrc8 (payload.take size.toNat) size.toNat := by
    rw [runtimeCrc8_eq hbuf, runtimeCrc8_eq (Nat.le_of_eq hlen.symm), List.take_take, Nat.min_self]
  unfold replyBytes sendReply sendData sendFrame
  simp only [hsize, Option.getD_some, hcrc, List.take_take, Nat.min_self, reduceCtorEq, and_false]

theorem sendFrame_length_le (frameType : UInt8) (payload : Option (List UInt8)) (size : UInt16) :
    (sendFrame cfg (fun _ _ => true) frameType c payload size).2.flatten.length
      ≤ size.toNat + 6 := by
  unfold sendFrame
  split_ifs
  all_goals simp

/-- A reply on the wire is no longer than a frame with its payload. -/
theorem replyBytes_length_le (reply : ParsedFrame) :
    (replyBytes cfg reply).length ≤ (replyPayload reply).length + 6 := by
  have hmod : ∀ payload : List UInt8, (lenU16 payload).toNat ≤ payload.length := fun payload => by
    rw [lenU16_toNat]
    exact Nat.mod_le _ _
  cases reply with
  | nack c => exact sendFrame_length_le 0x00 none 0
  | ack c => exact sendFrame_length_le 0x01 none 0
  | data c payload =>
    exact Nat.le_trans (sendFrame_length_le 0x02 (some payload) _)
      (by simpa [replyPayload] using hmod payload)
  | notification payload =>
    exact Nat.le_trans (sendFrame_length_le 0x03 (some payload) _)
      (by simpa [replyPayload] using hmod payload)

theorem replyBytes_data_length {payload : List UInt8} (hcap : payload.length ≤ cfg.maxPayload)
    (h16 : payload.length < 65536) :
    (replyBytes cfg (.data c payload)).length = payload.length + 6 := by
  have hbytes := sendFrame_payload cfg 0x02 (by decide) c payload hcap h16
  rw [replyBytes, sendReply, hbytes, List.length_append, header_length]
  simp [body]
  omega

/-- The reply carries the command byte. -/
def repliesTo (command : UInt8) : ParsedFrame → Bool
  | .nack c => c = command
  | .ack c => c = command
  | .data c _ => c = command
  | .notification _ => false

/-- The bytes are one reply to the command, and a host parser in `Sync` makes exactly that
frame of them. -/
def Answered (cfg : RuntimeConfig) (command : UInt8) (sent : List UInt8) : Prop :=
  ∃ reply, repliesTo command reply = true ∧ sent = replyBytes cfg reply ∧
    ∀ p : FrameParser, p.state = .sync → p.addressing = false → (p.feedBytes sent).2 = [reply]

/-- A reply within both caps is read as what it is. -/
theorem read_replyBytes {p : FrameParser} {reply : ParsedFrame} (hs : p.state = .sync)
    (ha : p.addressing = false)
    (h : (replyPayload reply).length ≤ min cfg.maxPayload maxPayloadSize) :
    (p.feedBytes (replyBytes cfg reply)).2 = [reply] := by
  have himg := replyBytes_wireImage cfg h
  rw [← ha] at himg
  obtain ⟨p', hfeed, -, -⟩ := FrameParser.feed_wireImage hs himg
  rw [hfeed]

/-- The host drops a frame above its cap: what it reads as one reply is not longer. -/
theorem read_length_le {p : FrameParser} {reply : ParsedFrame} {sent : List UInt8}
    (hs : p.state = .sync) (hsent : sent = replyBytes cfg reply)
    (hread : (p.feedBytes sent).2 = [reply]) : sent.length ≤ maxPayloadSize + 6 := by
  have hseg := FrameParser.feedBytes_segmented sent (FrameParser.pending_of_sync hs)
  rw [hread, List.nil_append] at hseg
  have hcap : (replyPayload reply).length ≤ maxPayloadSize := by
    cases hseg with
    | frame gap himg htail =>
      cases himg with
      | nack => exact Nat.zero_le _
      | ack => exact Nat.zero_le _
      | data _ _ _ _ payload _ hmax => exact hmax
      | notification _ _ _ _ payload _ hmax => exact hmax
  have hlen := @replyBytes_length_le cfg reply
  rw [hsent]
  omega

theorem Answered.ne_nil {sent : List UInt8} (h : Answered cfg c sent) : sent ≠ [] := by
  rintro rfl
  obtain ⟨reply, -, -, hhost⟩ := h
  have hframe := hhost FrameParser.new rfl rfl
  cases hframe

end Send

/-! ## One dispatch -/

namespace Firmware

variable {cfg : RuntimeConfig} {σ : Type} (fw : Firmware cfg σ) (s : σ)

/-- How a dispatch ends, given what is decided: an ACK or a NACK, the DATA, or nothing at all
where `sendFrame` refuses it. -/
inductive Ends (cfg : RuntimeConfig) (command : UInt8) : Outcome → List UInt8 → Prop
  | ack : Ends cfg command .ack (replyBytes cfg (.ack command))
  | nack : Ends cfg command .nack (replyBytes cfg (.nack command))
  | data {payload : List UInt8} (hcap : payload.length ≤ cfg.maxPayload)
      (h16 : payload.length < 65536) :
      Ends cfg command (.data payload.length) (replyBytes cfg (.data command payload))
  | refused {n : Nat} (h : cfg.maxPayload < n) : Ends cfg command (.data n) []

/-- A DATA of `size` bytes out of a buffer that has them if they are allowed. -/
theorem ends_data {c : UInt8} {payload : List UInt8} {size : UInt16}
    (hbuf : size.toNat ≤ cfg.maxPayload → size.toNat ≤ payload.length) :
    Ends cfg c (.data size.toNat) (sendData cfg (fun _ _ => true) c payload size).flatten := by
  by_cases hcap : size.toNat ≤ cfg.maxPayload
  · have hlen : (payload.take size.toNat).length = size.toNat :=
      List.length_take_of_le (hbuf hcap)
    have hends := @Ends.data cfg c (payload.take size.toNat) (by omega)
      (by rw [hlen]; exact size.toNat_lt)
    rw [sendData_bytes (hbuf hcap)]
    rwa [hlen] at hends
  · rw [sendData_refused (by omega)]
    exact .refused (by omega)

theorem readCase_ends (m : Message) (c : UInt8) :
    Ends cfg c (fw.readOutcome m s) (fw.readCase (fun _ _ => true) m s c).2.flatten := by
  unfold readCase readOutcome
  cases readStruct m with
  | some name =>
    by_cases hok : (fw.handlers.onRead m.name s).2.1 = true
    · simp only [if_pos hok]
      -- the size is an argument of type `uint16_t`
      have hsize : wireSizeOf fw.data name % 65536
          = (UInt16.ofNat (wireSizeOf fw.data name)).toNat := UInt16.toNat_ofNat'.symm
      rw [hsize]
      refine ends_data fun _ => ?_
      rw [Vector.length_toList, ← hsize]
      exact Nat.mod_le _ _
    · simp only [if_neg hok]
      exact .nack
  | none =>
    simp only
    split
    · exact ends_data fun h => by rw [Vector.length_toList]; exact h
    · exact .nack

theorem writeCase_ends (m : Message) (c : UInt8) (payload : List UInt8) :
    Ends cfg c (fw.writeOutcome m s payload)
      (fw.writeCase (fun _ _ => true) m s c payload).2.flatten := by
  unfold writeCase writeOutcome
  cases fw.argument m payload with
  | none => exact .nack
  | some arg =>
    by_cases hq : m.semantic = .query
    · simp only [hq, if_true]
      cases hd : (fw.handlers.onQuery m.name arg s).2.1 with
      | data => exact ends_data fun h => by rw [Vector.length_toList]; exact h
      | nack => exact .nack
      | other value => exact .nack
    · simp only [hq, if_false]
      cases hd : (fw.handlers.onWrite m.name arg s).2 with
      | ack => exact .ack
      | nack => exact .nack
      | other value => exact .nack

theorem perform_ends (a : Action) :
    Ends cfg a.commandByte (fw.outcome s a) (fw.perform (fun _ _ => true) s a).2.flatten := by
  cases a with
  | sendNack c => exact .nack
  | dispatchRead c =>
    simp only [outcome, perform, dispatchRead, Action.commandByte]
    cases fw.data.runtimeReadMessages.find? fun m => m.hasId c with
    | none => exact .nack
    | some m => exact fw.readCase_ends s m c
  | dispatchWrite c payload =>
    simp only [outcome, perform, dispatchWrite, Action.commandByte]
    cases fw.data.runtimeWriteMessages.find? fun m => m.hasId c with
    | none => exact .nack
    | some m => exact fw.writeCase_ends s m c payload

/-- The reply is of the kind that was decided. -/
def isReply (c : UInt8) : Outcome → ParsedFrame → Prop
  | .ack, reply => reply = .ack c
  | .nack, reply => reply = .nack c
  | .data size, reply => ∃ payload : List UInt8, payload.length = size ∧ reply = .data c payload

theorem repliesTo_of_isReply {c : UInt8} {outcome : Outcome} {reply : ParsedFrame}
    (h : isReply c outcome reply) : repliesTo c reply = true := by
  cases outcome with
  | ack => rw [show reply = .ack c from h]; simp [repliesTo]
  | nack => rw [show reply = .nack c from h]; simp [repliesTo]
  | data size =>
    obtain ⟨payload, -, rfl⟩ := h
    simp [repliesTo]

/-- If what is offered fits, one reply is sent that both sides accept. -/
theorem Ends.reply {c : UInt8} {outcome : Outcome} {sent : List UInt8}
    (h : Ends cfg c outcome sent) (hfit : outcome.Fits cfg) :
    ∃ reply, isReply c outcome reply ∧ sent = replyBytes cfg reply ∧
      (replyPayload reply).length ≤ min cfg.maxPayload maxPayloadSize := by
  cases h with
  | ack => exact ⟨.ack c, rfl, rfl, Nat.zero_le _⟩
  | nack => exact ⟨.nack c, rfl, rfl, Nat.zero_le _⟩
  | @data payload hcap h16 => exact ⟨.data c payload, ⟨payload, rfl, rfl⟩, rfl, Nat.le_min.mpr hfit⟩
  | refused h =>
    have hle := hfit.1
    omega

/-- The other way around, a reply that a host parser reads was not too large. -/
theorem Ends.fits {c : UInt8} {outcome : Outcome} {sent : List UInt8}
    (h : Ends cfg c outcome sent) {p : FrameParser} {reply : ParsedFrame} (hs : p.state = .sync)
    (hsent : sent = replyBytes cfg reply) (hread : (p.feedBytes sent).2 = [reply]) :
    outcome.Fits cfg := by
  cases h with
  | ack => trivial
  | nack => trivial
  | @data payload hcap h16 =>
    have hle := read_length_le hs hsent hread
    rw [replyBytes_data_length hcap h16] at hle
    exact ⟨hcap, by omega⟩
  | refused h => cases hread

/-- **One request**: it is answered if and only if what is offered fits. -/
theorem perform_answered_iff (a : Action) :
    Answered cfg a.commandByte (fw.perform (fun _ _ => true) s a).2.flatten ↔ fw.Fits s a := by
  have hends := fw.perform_ends s a
  constructor
  · rintro ⟨reply, -, hsent, hhost⟩
    exact hends.fits (p := FrameParser.new) rfl hsent (hhost _ rfl rfl)
  · intro hfit
    obtain ⟨reply, hreply, hsent, hcap⟩ := hends.reply hfit
    refine ⟨reply, repliesTo_of_isReply hreply, hsent, fun p hs ha => ?_⟩
    rw [hsent]
    exact read_replyBytes hs ha hcap

end Firmware

/-! ## One call -/

/-- A call completes a request if and only if the state machine acts, and it acts once. -/
theorem step_actions {cfg : RuntimeConfig} (rt : Runtime cfg) (i : Input) :
    match completes rt i with
    | some c => ∃ a, (rt.step i).2 = [a] ∧ a.commandByte = c
    | none => (rt.step i).2 = [] := by
  cases i with
  | tick now => rfl
  | byte now b =>
    simp only [completes, Runtime.step, Runtime.feedByte]
    cases rt.state with
    | sync => dsimp only; split <;> rfl
    | type => dsimp only; split <;> rfl
    | command =>
      by_cases hread : rt.frameType = 0x00
      · simp only [if_pos hread]
        exact ⟨_, rfl, rfl⟩
      · simp only [if_neg hread]
    | lengthLo => rfl
    | lengthHi => dsimp only; split_ifs <;> rfl
    | data => dsimp only; split <;> rfl
    | crc =>
      dsimp only
      split
      · exact ⟨_, rfl, rfl⟩
      · exact ⟨_, rfl, rfl⟩

namespace Firmware

variable {cfg : RuntimeConfig} {σ : Type} (fw : Firmware cfg σ)

/-- What a call is to emit: one reply if it completes a request, and otherwise nothing. -/
def Served (d : Board cfg σ) (i : Input) : Prop :=
  match completes d.runtime i with
  | some c => Answered cfg c (fw.emitted d i)
  | none => fw.emitted d i = []

/-- The request that the call completes, if any, is offered nothing too large. -/
def StepFits (d : Board cfg σ) (i : Input) : Prop :=
  ∀ a ∈ (d.runtime.step i).2, fw.Fits d.app a

theorem emitted_single {d : Board cfg σ} {i : Input} {a : Action}
    (h : (d.runtime.step i).2 = [a]) :
    fw.emitted d i = (fw.perform (fun _ _ => true) d.app a).2.flatten := by
  simp [emitted, step, h, performAll]

theorem emitted_nil {d : Board cfg σ} {i : Input} (h : (d.runtime.step i).2 = []) :
    fw.emitted d i = [] := by
  simp [emitted, step, h, performAll]

/-- **One call.** -/
theorem served_iff (d : Board cfg σ) (i : Input) : fw.Served d i ↔ fw.StepFits d i := by
  have hact := step_actions d.runtime i
  unfold Served StepFits
  cases hc : completes d.runtime i with
  | none =>
    rw [hc] at hact
    simp only at hact ⊢
    simp [hact, fw.emitted_nil hact]
  | some c =>
    rw [hc] at hact
    obtain ⟨a, ha, rfl⟩ := hact
    simp only [ha, List.mem_singleton, forall_eq]
    rw [fw.emitted_single ha]
    exact fw.perform_answered_iff d.app a

/-! ## Whole runs -/

/-- The commands of the requests that a run completes, in order. -/
def requested (d : Board cfg σ) (inputs : List Input) : List UInt8 :=
  (fw.calls (fun _ _ => true) d inputs).filterMap fun x => completes x.1.runtime x.2

/-- All that a run emits. -/
def output (d : Board cfg σ) (inputs : List Input) : List UInt8 :=
  (fw.calls (fun _ _ => true) d inputs).flatMap fun x => fw.emitted x.1 x.2

/-- A call that fits emits its reply, in both caps, or nothing. -/
theorem emitted_reply {d : Board cfg σ} {i : Input} (h : fw.StepFits d i) :
    match completes d.runtime i with
    | some c => ∃ reply, repliesTo c reply = true ∧ fw.emitted d i = replyBytes cfg reply ∧
        (replyPayload reply).length ≤ min cfg.maxPayload maxPayloadSize
    | none => fw.emitted d i = [] := by
  have hact := step_actions d.runtime i
  cases hc : completes d.runtime i with
  | none =>
    rw [hc] at hact
    exact fw.emitted_nil hact
  | some c =>
    rw [hc] at hact
    obtain ⟨a, ha, rfl⟩ := hact
    simp only
    rw [fw.emitted_single ha]
    obtain ⟨reply, hreply, hsent, hcap⟩ := (fw.perform_ends d.app a).reply
      (h a (by rw [ha]; exact List.mem_singleton_self a))
    exact ⟨reply, repliesTo_of_isReply hreply, hsent, hcap⟩

/-- The replies of a run, in the order of the requests. -/
theorem output_replies :
    ∀ (calls : List (Board cfg σ × Input)), (∀ x ∈ calls, fw.StepFits x.1 x.2) →
      ∃ replies : List ParsedFrame,
        List.Forall₂ (fun c reply => repliesTo c reply = true)
          (calls.filterMap fun x => completes x.1.runtime x.2) replies ∧
        (calls.flatMap fun x => fw.emitted x.1 x.2) = replies.flatMap (replyBytes cfg) ∧
        ∀ reply ∈ replies, (replyPayload reply).length ≤ min cfg.maxPayload maxPayloadSize := by
  intro calls
  induction calls with
  | nil =>
    intro _
    exact ⟨[], .nil, rfl, fun _ h => absurd h List.not_mem_nil⟩
  | cons x calls ih =>
    intro h
    obtain ⟨replies, hcmd, hout, hcap⟩ := ih fun y hy => h y (List.mem_cons_of_mem _ hy)
    have hx := fw.emitted_reply (h x (List.mem_cons_self ..))
    rw [List.filterMap_cons, List.flatMap_cons, hout]
    cases hc : completes x.1.runtime x.2 with
    | none =>
      rw [hc] at hx
      simp only at hx ⊢
      exact ⟨replies, hcmd, by rw [hx]; rfl, hcap⟩
    | some c =>
      rw [hc] at hx
      obtain ⟨reply, hreply, hbytes, hle⟩ := hx
      refine ⟨reply :: replies, .cons hreply hcmd, by rw [hbytes]; rfl, ?_⟩
      intro r hr
      rcases List.mem_cons.mp hr with rfl | hr
      · exact hle
      · exact hcap r hr

/-- **One reply per request.** In a run, with `sendBytes` always succeeding, every call emits
what it is to emit (one reply to the request it completes, which a host parser in `Sync` reads
as that frame, and nothing if it completes none) if and only if no handler offers as DATA more
than `RUNTIME_MAX_PAYLOAD` or the host's cap. Then what the device emits in the whole run is
one reply for each request, in order, and the host reads all of them. -/
theorem run_answers_iff (d : Board cfg σ) (inputs : List Input) :
    ((∀ x ∈ fw.calls (fun _ _ => true) d inputs, fw.Served x.1 x.2) ↔
      ∀ x ∈ fw.calls (fun _ _ => true) d inputs, fw.StepFits x.1 x.2) ∧
    ((∀ x ∈ fw.calls (fun _ _ => true) d inputs, fw.StepFits x.1 x.2) →
      ∃ replies : List ParsedFrame,
        List.Forall₂ (fun c reply => repliesTo c reply = true) (fw.requested d inputs) replies ∧
        fw.output d inputs = replies.flatMap (replyBytes cfg) ∧
        ∀ p : FrameParser, p.state = .sync → p.addressing = false →
          (p.feedBytes (fw.output d inputs)).2 = replies ∧
            (p.feedBytes (fw.output d inputs)).1.state = .sync) := by
  constructor
  · constructor
    · intro h x hx
      exact (fw.served_iff x.1 x.2).mp (h x hx)
    · intro h x hx
      exact (fw.served_iff x.1 x.2).mpr (h x hx)
  · intro h
    obtain ⟨replies, hcmd, hout, hcap⟩ := fw.output_replies _ h
    refine ⟨replies, hcmd, hout, fun p hs ha => ?_⟩
    -- the replies stand back to back, without noise between them
    have hstream : fw.output d inputs
        = (replies.map fun r => (r, ([] : List UInt8))).flatMap fun rg =>
            replyBytes cfg rg.1 ++ rg.2 := by
      rw [List.flatMap_map]
      simp only [List.append_nil]
      exact hout
    have hfeed := feedBytes_replies cfg (replies.map fun r => (r, [])) hs ha
      (by simpa using hcap) (by simp)
    rw [hstream]
    simpa [List.map_map, Function.comp_def] using hfeed

end Firmware

/-! ## A query that is left without a reply -/

section Download

/-- A file is downloaded in chunks; the request is raw, and the response makes it a query. -/
def download : SchemaDecl where
  structs :=
    [("Chunk", { fields := [{ name := "data", type := "uint8", count := some 32 }] }),
      ("Notification", { fields := [{ name := "code", type := "uint8" }] })]
  messages :=
    [("file_download",
        { txNode := some "host", commandId := some 7, request := some "raw",
          response := some "Chunk" })]

def downloadData : Data := processed download

/-- The handler reports one byte more than the buffer holds. -/
def downloader : Firmware ⟨4096, 100⟩ Unit where
  data := downloadData
  codec := ⟨fun _ _ => Vector.replicate _ 0, fun _ _ => .struct []⟩
  handlers :=
    { onRead := fun _ s => (s, false, .struct [])
      onReadRaw := fun _ s => (s, false, ⟨Vector.replicate _ 0, 0⟩)
      onWrite := fun _ _ s => (s, .nack)
      onQuery := fun _ _ s => (s, .data, ⟨Vector.replicate _ 0, 4097⟩) }

/-- The request is complete and nothing is sent. -/
theorem query_unanswered :
    processSchema id download = .ok downloadData ∧ validateSchema id downloadData = [] ∧
      ¬ ∀ x ∈ downloader.calls (fun _ _ => true) ⟨Runtime.init _ 0, ()⟩
          [.byte 0 0x55, .byte 0 0x01, .byte 0 0x07, .byte 0 0x00, .byte 0 0x00, .byte 0 0x00],
        downloader.Served x.1 x.2 := by
  refine ⟨rfl, by decide +kernel, fun h => ?_⟩
  have hans : Answered ⟨4096, 100⟩ 7 [] := h _ (List.mem_of_getElem? (i := 5) rfl)
  exact hans.ne_nil rfl

end Download

end ProtoEmb.Device
