import ProtoEmb.Device.Answers

/-!
# The device as a server

What a dispatch of `protocol_runtime.c.j2` answers, as a frame: the handler is called on the state
it finds, and its result is the reply (`answer`). The generated dispatchers build that reply out
of `sendBytes` calls and of a buffer of their own; `perform_answer` says that nothing else goes on
the wire.

Besides replies the device sends notifications, each from a struct of the schema that is
called `Notification`.
-/

namespace ProtoEmb.Device

open ProtoEmb.Lib ProtoEmb.Framing ProtoEmb.Schema ProtoEmb.Codec

namespace Firmware

variable {cfg : RuntimeConfig} {σ : Type} (fw : Firmware cfg σ)

/-! ## Answers -/

/-- The bytes of a struct that are sent: the size is an argument of type `uint16_t`. -/
def structBytes (name : String) (v : Value) : List UInt8 :=
  (fw.codec.encode name v).toList.take (wireSizeOf fw.data name % 65536)

/-- The first `outSize` bytes of the buffer. -/
def outputBytes (out : Output cfg) : List UInt8 := out.payload.toList.take out.size.toNat

/-- The case of a READ: a struct that the handler fills, or bytes up to `RUNTIME_MAX_PAYLOAD`. -/
def readAnswer (m : Message) (s : σ) (command : UInt8) : ParsedFrame :=
  match readStruct m with
  | some name =>
    let r := fw.handlers.onRead m.name s
    if r.2.1 then .data command (fw.structBytes name r.2.2) else .nack command
  | none =>
    let r := fw.handlers.onReadRaw m.name s
    if r.2.1 && r.2.2.size.toNat ≤ cfg.maxPayload then .data command (outputBytes r.2.2)
    else .nack command

/-- The case of a WRITE: NACK for a payload of the wrong size, else what the handler decides. -/
def writeAnswer (m : Message) (s : σ) (command : UInt8) (payload : List UInt8) : ParsedFrame :=
  match fw.argument m payload with
  | some arg =>
    if m.semantic = .query then
      let r := fw.handlers.onQuery m.name arg s
      if r.2.1 = .data then .data command (outputBytes r.2.2) else .nack command
    else if (fw.handlers.onWrite m.name arg s).2 = .ack then .ack command else .nack command
  | none => .nack command

/-- The reply to a request, on the state of the application that it finds. -/
def answer (s : σ) : Action → ParsedFrame
  | .dispatchRead command =>
    ((fw.data.runtimeReadMessages.find? fun m => m.hasId command).map fun m =>
      fw.readAnswer m s command).getD (.nack command)
  | .dispatchWrite command payload =>
    ((fw.data.runtimeWriteMessages.find? fun m => m.hasId command).map fun m =>
      fw.writeAnswer m s command payload).getD (.nack command)
  | .sendNack command => .nack command

/-- The application's state after a dispatch. -/
def after (s : σ) (a : Action) : σ := (fw.perform (fun _ _ => true) s a).1

/-- Dispatches one after the other, each with the state that it finds. -/
def trace (s : σ) : List Action → List (σ × Action)
  | [] => []
  | a :: actions => (s, a) :: trace (fw.after s a) actions

/-- The last dispatch finds the state that the others left. -/
theorem trace_concat (s : σ) (actions : List Action) (a : Action) :
    fw.trace s (actions ++ [a]) = fw.trace s actions ++ [(actions.foldl fw.after s, a)] := by
  induction actions generalizing s with
  | nil => rfl
  | cons b actions ih => exact congrArg (List.cons (s, b)) (ih (fw.after s b))

/-- What the WRITE message of a command is for, if the device has one. -/
def writeSemantic (command : UInt8) : Option Semantic :=
  (fw.data.runtimeWriteMessages.find? fun m => m.hasId command).map Message.semantic

/-- Handlers that never report much, and structs that are small, fit always. -/
theorem fits_of_sizes {n : Nat} (hn : n ≤ min cfg.maxPayload maxPayloadSize)
    (hstruct : ∀ m ∈ fw.data.runtimeReadMessages, ∀ name ∈ readStruct m,
      wireSizeOf fw.data name % 65536 ≤ n)
    (hraw : ∀ name s, (fw.handlers.onReadRaw name s).2.2.size.toNat ≤ n)
    (hquery : ∀ name arg s, (fw.handlers.onQuery name arg s).2.2.size.toNat ≤ n) (s : σ)
    (a : Action) : fw.Fits s a := by
  have hsize : ∀ size ≤ n, (Outcome.data size).Fits cfg := fun size hle =>
    Nat.le_min.mp (Nat.le_trans hle hn)
  unfold Fits
  cases a with
  | sendNack c => trivial
  | dispatchRead c =>
    simp only [outcome]
    cases hm : fw.data.runtimeReadMessages.find? fun m => m.hasId c with
    | none => trivial
    | some m =>
      simp only [Option.map_some, Option.getD_some, readOutcome]
      cases hname : readStruct m with
      | some name =>
        simp only
        split
        · exact hsize _ (hstruct m (List.mem_of_find?_eq_some hm) name hname)
        · trivial
      | none =>
        simp only
        split
        · exact hsize _ (hraw m.name s)
        · trivial
  | dispatchWrite c payload =>
    simp only [outcome]
    cases fw.data.runtimeWriteMessages.find? fun m => m.hasId c with
    | none => trivial
    | some m =>
      simp only [Option.map_some, Option.getD_some, writeOutcome]
      cases fw.argument m payload with
      | none => trivial
      | some arg =>
        simp only
        split_ifs
        · exact hsize _ (hquery m.name arg s)
        all_goals trivial

/-! ## What goes on the wire -/

variable (s : σ)

/-- An ACK on the wire. -/
theorem sendAck_bytes (c : UInt8) :
    (sendAck cfg (fun _ _ => true) c).flatten = replyBytes cfg (.ack c) := rfl

/-- A NACK on the wire. -/
theorem sendNack_bytes (c : UInt8) :
    (sendNack cfg (fun _ _ => true) c).flatten = replyBytes cfg (.nack c) := rfl

/-- The case of a READ sends its answer. -/
theorem readCase_answer (m : Message) (c : UInt8) :
    (fw.readCase (fun _ _ => true) m s c).2.flatten = replyBytes cfg (fw.readAnswer m s c) := by
  unfold readCase readAnswer
  cases readStruct m with
  | some name =>
    by_cases hok : (fw.handlers.onRead m.name s).2.1 = true
    · simp only [if_pos hok]
      have hsize :
          (UInt16.ofNat (wireSizeOf fw.data name)).toNat = wireSizeOf fw.data name % 65536 :=
        UInt16.toNat_ofNat'
      rw [sendData_bytes (by rw [hsize, Vector.length_toList]; exact Nat.mod_le _ _), hsize]
      rfl
    · simp only [if_neg hok]
      exact sendNack_bytes c
  | none =>
    simp only
    split
    next hok =>
      simp only [Bool.and_eq_true, decide_eq_true_eq] at hok
      exact sendData_bytes (by rw [Vector.length_toList]; exact hok.2)
    next => exact sendNack_bytes c

/-- The case of a WRITE sends its answer, if what a query offers fits. -/
theorem writeCase_answer {m : Message} {c : UInt8} {payload : List UInt8}
    (hfit : (fw.writeOutcome m s payload).Fits cfg) :
    (fw.writeCase (fun _ _ => true) m s c payload).2.flatten
      = replyBytes cfg (fw.writeAnswer m s c payload) := by
  unfold writeOutcome at hfit
  unfold writeCase writeAnswer
  cases harg : fw.argument m payload with
  | none => exact sendNack_bytes c
  | some arg =>
    rw [harg] at hfit
    by_cases hq : m.semantic = .query
    · simp only [hq, if_true] at hfit ⊢
      cases hd : (fw.handlers.onQuery m.name arg s).2.1 with
      | data =>
        rw [hd, if_pos rfl] at hfit
        exact sendData_bytes (by rw [Vector.length_toList]; exact hfit.1)
      | nack => exact sendNack_bytes c
      | other value => exact sendNack_bytes c
    · simp only [hq, if_false] at hfit ⊢
      cases hd : (fw.handlers.onWrite m.name arg s).2 with
      | ack => exact sendAck_bytes c
      | nack => exact sendNack_bytes c
      | other value => exact sendNack_bytes c

/-- **A dispatch sends its answer**, if what is offered as DATA fits. -/
theorem perform_answer {a : Action} (hfit : fw.Fits s a) :
    (fw.perform (fun _ _ => true) s a).2.flatten = replyBytes cfg (fw.answer s a) := by
  cases a with
  | sendNack c => exact sendNack_bytes c
  | dispatchRead c =>
    simp only [Fits, outcome, perform, dispatchRead, answer] at hfit ⊢
    cases hm : fw.data.runtimeReadMessages.find? fun m => m.hasId c with
    | none => exact sendNack_bytes c
    | some m => exact fw.readCase_answer s m c
  | dispatchWrite c payload =>
    simp only [Fits, outcome, perform, dispatchWrite, answer] at hfit ⊢
    cases hm : fw.data.runtimeWriteMessages.find? fun m => m.hasId c with
    | none => exact sendNack_bytes c
    | some m =>
      rw [hm] at hfit
      exact fw.writeCase_answer s hfit

/-! ## The size and the kind of an answer -/

/-- A struct is sent in as many bytes as `uint16_t` says. -/
theorem structBytes_length_le (name : String) (v : Value) :
    (fw.structBytes name v).length ≤ wireSizeOf fw.data name % 65536 := List.length_take_le _ _

/-- A handler sends no more than it reports. -/
theorem outputBytes_length_le (out : Output cfg) : (outputBytes out).length ≤ out.size.toNat :=
  List.length_take_le _ _

/-- An answer to a READ that fits is within both caps. -/
theorem readAnswer_length {m : Message} {c : UInt8} (hfit : (fw.readOutcome m s).Fits cfg) :
    (replyPayload (fw.readAnswer m s c)).length ≤ min cfg.maxPayload maxPayloadSize := by
  unfold readOutcome at hfit
  unfold readAnswer
  cases hstruct : readStruct m with
  | some name =>
    rw [hstruct] at hfit
    by_cases hok : (fw.handlers.onRead m.name s).2.1 = true
    · simp only [if_pos hok] at hfit ⊢
      exact Nat.le_trans (fw.structBytes_length_le name _) (Nat.le_min.mpr hfit)
    · simp only [if_neg hok]
      exact Nat.zero_le _
  | none =>
    rw [hstruct] at hfit
    simp only at hfit ⊢
    split
    next hok =>
      rw [if_pos hok] at hfit
      exact Nat.le_trans (outputBytes_length_le _) (Nat.le_min.mpr hfit)
    next => exact Nat.zero_le _

/-- So is one to a WRITE. -/
theorem writeAnswer_length {m : Message} {c : UInt8} {payload : List UInt8}
    (hfit : (fw.writeOutcome m s payload).Fits cfg) :
    (replyPayload (fw.writeAnswer m s c payload)).length ≤ min cfg.maxPayload maxPayloadSize := by
  unfold writeOutcome at hfit
  unfold writeAnswer
  cases harg : fw.argument m payload with
  | none => exact Nat.zero_le _
  | some arg =>
    rw [harg] at hfit
    by_cases hq : m.semantic = .query
    · simp only [hq, if_true] at hfit ⊢
      by_cases hd : (fw.handlers.onQuery m.name arg s).2.1 = .data
      · rw [if_pos hd] at hfit ⊢
        exact Nat.le_trans (outputBytes_length_le _) (Nat.le_min.mpr hfit)
      · rw [if_neg hd]
        exact Nat.zero_le _
    · simp only [hq, if_false]
      split <;> exact Nat.zero_le _

/-- So is the answer to any dispatch. -/
theorem answer_length {a : Action} (hfit : fw.Fits s a) :
    (replyPayload (fw.answer s a)).length ≤ min cfg.maxPayload maxPayloadSize := by
  cases a with
  | sendNack c => exact Nat.zero_le _
  | dispatchRead c =>
    simp only [Fits, outcome, answer] at hfit ⊢
    cases hm : fw.data.runtimeReadMessages.find? fun m => m.hasId c with
    | none => exact Nat.zero_le _
    | some m =>
      rw [hm] at hfit
      exact fw.readAnswer_length s hfit
  | dispatchWrite c payload =>
    simp only [Fits, outcome, answer] at hfit ⊢
    cases hm : fw.data.runtimeWriteMessages.find? fun m => m.hasId c with
    | none => exact Nat.zero_le _
    | some m =>
      rw [hm] at hfit
      exact fw.writeAnswer_length s hfit

/-- A READ is answered with DATA or NACK. -/
theorem answer_read (c : UInt8) :
    (∃ payload, fw.answer s (.dispatchRead c) = .data c payload) ∨
      fw.answer s (.dispatchRead c) = .nack c := by
  simp only [answer]
  cases fw.data.runtimeReadMessages.find? fun m => m.hasId c with
  | none => exact .inr rfl
  | some m =>
    simp only [Option.map_some, Option.getD_some, readAnswer]
    split
    · split
      · exact .inl ⟨_, rfl⟩
      · exact .inr rfl
    · split
      · exact .inl ⟨_, rfl⟩
      · exact .inr rfl

/-- A WRITE is answered with DATA if it is a query, with ACK if it is not, or with NACK. -/
theorem answer_write (c : UInt8) (payload : List UInt8) :
    (fw.writeSemantic c = some .query ∧
        ∃ data, fw.answer s (.dispatchWrite c payload) = .data c data) ∨
      (∃ kind, fw.writeSemantic c = some kind ∧ kind ≠ .query ∧
        fw.answer s (.dispatchWrite c payload) = .ack c) ∨
      fw.answer s (.dispatchWrite c payload) = .nack c := by
  simp only [answer, writeSemantic]
  cases fw.data.runtimeWriteMessages.find? fun m => m.hasId c with
  | none => exact .inr (.inr rfl)
  | some m =>
    simp only [Option.map_some, Option.getD_some, writeAnswer]
    cases fw.argument m payload with
    | none => exact .inr (.inr rfl)
    | some arg =>
      by_cases hq : m.semantic = .query
      · simp only [hq, if_true]
        split
        · exact .inl ⟨trivial, _, rfl⟩
        · exact .inr (.inr rfl)
      · simp only [hq, if_false]
        split
        · exact .inr (.inl ⟨m.semantic, rfl, hq, rfl⟩)
        · exact .inr (.inr rfl)

/-! ## Notifications -/

/-- `Runtime_sendNotification`; no struct is the NULL pointer. -/
def sendNotification (sendBytes : Nat → List UInt8 → Bool) (notification : Option Value) :
    Bool × List (List UInt8) :=
  match notification with
  | none => (false, [])
  | some v =>
    sendFrame cfg sendBytes 0x03 0 (some (fw.codec.encode "Notification" v).toList)
      (UInt16.ofNat (wireSizeOf fw.data "Notification"))

/-- `Runtime_sendNotificationFromCallback`: `fill` is `fill_notification` of the application. -/
def sendNotificationFromCallback (sendBytes : Nat → List UInt8 → Bool)
    (fill : σ → σ × Bool × Value) (s : σ) : σ × Bool × List (List UInt8) :=
  let r := fill s
  if r.2.1 then (r.1, fw.sendNotification sendBytes (some r.2.2)) else (r.1, false, [])

/-- A notification goes out as it is, or not at all where `sendFrame` refuses it. -/
theorem sendNotification_bytes (v : Value) :
    (fw.sendNotification (fun _ _ => true) (some v)).2.flatten
      = if wireSizeOf fw.data "Notification" % 65536 ≤ cfg.maxPayload
        then replyBytes cfg (.notification (fw.structBytes "Notification" v)) else [] := by
  have hword : (UInt16.ofNat (wireSizeOf fw.data "Notification")).toNat
      = wireSizeOf fw.data "Notification" % 65536 := UInt16.toNat_ofNat'
  have hbuf : wireSizeOf fw.data "Notification" % 65536
      ≤ (fw.codec.encode "Notification" v).toList.length := by
    rw [Vector.length_toList]
    exact Nat.mod_le _ _
  have hlen :
      (fw.structBytes "Notification" v).length = wireSizeOf fw.data "Notification" % 65536 :=
    List.length_take_of_le hbuf
  show (sendFrame cfg _ 0x03 0 _ _).2.flatten = _
  by_cases hcap : wireSizeOf fw.data "Notification" % 65536 ≤ cfg.maxPayload
  · rw [if_pos hcap]
    have hsize : lenU16 (fw.structBytes "Notification" v)
        = UInt16.ofNat (wireSizeOf fw.data "Notification") := by
      rw [lenU16, hlen, ← hword, UInt16.ofNat_toNat]
    have htake : (fw.codec.encode "Notification" v).toList.take
      (wireSizeOf fw.data "Notification" % 65536)
        = (fw.structBytes "Notification" v).take (wireSizeOf fw.data "Notification" % 65536) := by
      rw [structBytes, List.take_take, Nat.min_self]
    have hcrc : runtimeCrc8 (fw.codec.encode "Notification" v).toList
        (wireSizeOf fw.data "Notification" % 65536)
          = runtimeCrc8 (fw.structBytes "Notification" v)
            (wireSizeOf fw.data "Notification" % 65536) := by
      rw [runtimeCrc8_eq hbuf, runtimeCrc8_eq (Nat.le_of_eq hlen.symm), htake]
    unfold replyBytes sendReply sendFrame
    simp only [hsize, hword, Option.getD_some, hcrc, htake, reduceCtorEq, and_false]
  · unfold sendFrame
    rw [if_neg hcap, if_neg (by simp), if_pos (by rw [hword]; omega)]
    rfl

end Firmware

end ProtoEmb.Device
