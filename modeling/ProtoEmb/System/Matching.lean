import ProtoEmb.System.Link

/-!
# Whose reply ends a request

A reply carries a command and a kind, and no number. When requests may time out, a late
reply can end a request that it was not made for; which requests those can be is
`late_reply_kind`.

The id of a DATA tells a READ from a query only where no id is both (`DataUnique`), which
`wire-format.md` asks of a schema.
-/

namespace ProtoEmb.System

open ProtoEmb.Framing ProtoEmb.Client ProtoEmb.Device

variable {env : Setup} {s : Link}

/-- Every request was pushed as a message. -/
theorem Linked.request_pushed (h : Linked env s) {i : Nat} {req : List UInt8}
    (hreq : (requests s.actions)[i]? = some req) : ∃ msg ∈ pushes s.actions, msg.frame = req := by
  have hacc := (steps_booked h.steps).accounted
  have hmem := List.mem_of_getElem? hreq
  rw [hacc.requests_eq] at hmem
  rcases List.mem_map.mp hmem with ⟨t, ht, rfl⟩
  exact ⟨t.1, List.mem_of_getElem? (List.mem_zipIdx_iff_getElem?.mp (hacc.sent t ht)), rfl⟩

/-- The request pending at some moment of the run was pushed as a message. -/
theorem Linked.pending_pushed (h : Linked env s) {pre post : List Client.Action} {t : Ticket}
    {sentAt : Nat} (hcut : s.actions = pre ++ post)
    (hp : (ledger pre).pending = some (t, sentAt)) : t.1 ∈ pushes s.actions := by
  have hsteps := h.steps
  rw [hcut] at hsteps
  obtain ⟨c₁, hpre⟩ := hsteps.initial
  have hacc := (steps_booked hpre).accounted
  have ht : t ∈ (ledger pre).tickets := by simp [Ledger.tickets, hp]
  have hzip := hacc.perm.mem_iff.mp ht
  rw [hcut, Ledger.pushes_append]
  exact List.mem_append_left _ (List.mem_of_getElem? (List.mem_zipIdx_iff_getElem?.mp hzip))

/-- The reply behind a frame that ends a request, and the request it was made for. -/
theorem Linked.origin (h : Linked env s) {pre post : List Client.Action} {f : ParsedFrame}
    {event : Event} (hcut : s.actions = pre ++ .frame f event :: post)
    (hreply : ∀ payload, f ≠ .notification payload) :
    ∃ i < s.received, s.replies[(handled pre).length]? = some ⟨f, some i⟩ ∧
      ∃ req, (requests s.actions)[i]? = some req ∧ env.answers req f = true := by
  obtain ⟨rest, hrest⟩ := h.delivered
  rw [hcut, handled_append] at hrest
  have hat : (s.replies.map Reply.frame)[(handled pre).length]? = some f := by
    rw [← hrest, List.append_assoc]
    exact List.getElem?_append_right (Nat.le_refl _) ▸ by simp [handled]
  rw [List.getElem?_map, Option.map_eq_some_iff] at hat
  rcases hat with ⟨⟨frame, origin⟩, hr, rfl⟩
  rcases h.answered _ (List.mem_of_getElem? hr) with ⟨payload, hn⟩ | ⟨i, hi, ho, req, hreq, hans⟩
  · exact absurd (congrArg Reply.frame hn) (hreply payload)
  · cases ho
    exact ⟨i, hi, hr, req, hreq, hans⟩

/-- The ids that produce DATA are unique: none is both read and queried. -/
def DataUnique (msgs : List QueuedMessage) : Prop :=
  ∀ read ∈ msgs, ∀ query ∈ msgs, isRead read.frame = true → isRead query.frame = false →
    query.expect = .data → commandOf read.frame ≠ commandOf query.frame

/-- A WRITE that is answered with DATA is a query. -/
theorem expect_data {frame : List UInt8} {expect : ExpectedReply} (h : env.Proper frame expect)
    (hwrite : isRead frame = false) (hdata : env.writeReply (commandOf frame) = some .data) :
    expect = .data := by
  rw [Setup.Proper, if_neg (by rw [hwrite]; exact Bool.false_ne_true)] at h
  exact h .data hdata

/-- A reply made for one request that ends another: the commands agree, and so do the frame
kinds unless it is a NACK. -/
theorem answers_ends {msgs : List QueuedMessage} (hunique : DataUnique msgs)
    (hproper : ∀ msg ∈ msgs, env.Proper msg.frame msg.expect) {pending made : QueuedMessage}
    (hpending : pending ∈ msgs) (hmade : made ∈ msgs) {f : ParsedFrame}
    (hends : ends (commandOf pending.frame) pending.expect f = true)
    (hans : env.answers made.frame f = true) :
    commandOf made.frame = commandOf pending.frame ∧
      ((∀ cmd, f ≠ .nack cmd) → isRead made.frame = isRead pending.frame) := by
  cases f with
  | nack cmd =>
    simp only [ends, Setup.answers, decide_eq_true_eq] at hends hans
    exact ⟨hans.symm.trans hends.symm, fun hno => absurd rfl (hno cmd)⟩
  | ack cmd =>
    simp only [ends, Setup.answers, decide_eq_true_eq] at hends hans
    obtain ⟨hcmd, hack⟩ := hends
    obtain ⟨hcmd', hwrite, _⟩ := hans
    refine ⟨hcmd'.symm.trans hcmd.symm, fun _ => ?_⟩
    -- a request that waits for an ACK is a WRITE
    rw [hwrite]
    cases hr : isRead pending.frame with
    | false => rfl
    | true =>
      have hread := hproper pending hpending
      rw [Setup.Proper, if_pos hr, hack] at hread
      cases hread
  | data cmd payload =>
    simp only [ends, Setup.answers, decide_eq_true_eq] at hends hans
    obtain ⟨hcmd, hdata⟩ := hends
    obtain ⟨hcmd', hkind⟩ := hans
    have hsame : commandOf made.frame = commandOf pending.frame := hcmd'.symm.trans hcmd.symm
    refine ⟨hsame, fun _ => ?_⟩
    -- both wait for DATA: the command is read or it is a query, and not both
    cases hm : isRead made.frame with
    | true =>
      cases hr : isRead pending.frame with
      | true => rfl
      | false => exact absurd hsame (hunique made hmade pending hpending hm hr hdata)
    | false =>
      cases hr : isRead pending.frame with
      | false => rfl
      | true =>
        have hquery := expect_data (hproper made hmade) hm
          (hcmd' ▸ hkind.resolve_left (by rw [hm]; exact Bool.false_ne_true))
        exact absurd hsame.symm (hunique pending hpending made hmade hr hm hquery)
  | notification payload => cases hends

/-- A NACK ends whatever is pending for its command, and reports it. -/
theorem handleFrame_nack {c : ProtoEmb.Client} {p : PendingRequest} (h : c.pending = some p) :
    c.handleFrame (.nack p.command) = some ({ c with pending := none }, .nack p.command) := by
  simp [handleFrame, handleNack, h]

/-- **A reply ends a request of its own command and, unless it is a NACK, of its own frame
kind.** In every interleaving of the client, the device and the channels, with requests that
may time out, where no id is both read and queried: when a frame ends the pending request, the
device sent it for a request with the same command, and with the same frame kind if it is not a
NACK. A NACK ends any pending request for its command. -/
theorem late_reply_kind {moves : List Move} (hrun : (Link.start env).run env moves = some s)
    (hunique : DataUnique (pushes s.actions)) :
    (∀ (pre post : List Client.Action) (f : ParsedFrame) (event : Event) (t : Ticket)
      (sentAt : Nat), s.actions = pre ++ .frame f event :: post →
      (ledger pre).pending = some (t, sentAt) →
      ends (commandOf t.1.frame) t.1.expect f = true →
      ∃ i req, s.replies[(handled pre).length]? = some ⟨f, some i⟩ ∧
        (requests s.actions)[i]? = some req ∧ env.answers req f = true ∧
        commandOf req = commandOf t.1.frame ∧
        ((∀ cmd, f ≠ .nack cmd) → isRead req = isRead t.1.frame)) ∧
    ∀ (c : ProtoEmb.Client) (p : PendingRequest), c.pending = some p →
      c.handleFrame (.nack p.command) = some ({ c with pending := none }, .nack p.command) := by
  have h := run_linked (linked_start env) hrun
  refine ⟨fun pre post f event t sentAt hcut hp hends => ?_, fun c p hp => handleFrame_nack hp⟩
  have hreply : ∀ payload, f ≠ .notification payload := by
    rintro payload rfl
    cases hends
  obtain ⟨i, _, hr, req, hreq, hans⟩ := h.origin hcut hreply
  obtain ⟨made, hmade, rfl⟩ := h.request_pushed hreq
  obtain ⟨hcmd, hkind⟩ :=
    answers_ends hunique h.proper (h.pending_pushed hcut hp) hmade hends hans
  exact ⟨i, made.frame, hr, hreq, hans, hcmd, hkind⟩

/-- A device without queries. -/
def plain : Setup := ⟨⟨100⟩, 10000, ⟨64, 100⟩, fun _ => some .ack⟩

/-- A READ times out and is sent again; the DATA for the first one ends the second. -/
def lateData : List Move :=
  [.call (.read 5 .high none), .call (.poll ⟨[], 0, 0, 0, none⟩), .call (.read 5 .high none),
    .call (.poll ⟨[], 200, 200, 200, none⟩), .receive, .receive, .reply 0 (.data 5 [7]),
    .call (.poll ⟨[.ok [0x55, 0x02, 0x05, 0x01, 0x00, 0x07, 0x83]], 201, 201, 201, none⟩)]

/-- What the client does before it handles the reply. -/
def lateDataPre : List Client.Action :=
  [.push (Client.read 5 .high none), .write [0x55, 0x00, 0x05] 0 none,
    .push (Client.read 5 .high none), .expire 200 [0x55, 0x00, 0x05],
    .write [0x55, 0x00, 0x05] 200 none]

theorem late_reply_kind_lateData :
    ∃ s, (Link.start plain).run plain lateData = some s ∧
      s.actions = lateDataPre ++ [.frame (.data 5 [7]) (.data 5 [7])] ∧
      ∃ i req, s.replies[(handled lateDataPre).length]? = some ⟨.data 5 [7], some i⟩ ∧
        (requests s.actions)[i]? = some req ∧ isRead req = true := by
  have hrun : ((Link.start plain).run plain lateData).map Link.actions
      = some (lateDataPre ++ [.frame (.data 5 [7]) (.data 5 [7])]) := by
    decide +kernel
  obtain ⟨s, hs, hacts⟩ := Option.map_eq_some_iff.mp hrun
  have hunique : DataUnique (pushes s.actions) := by
    rw [hacts]
    unfold DataUnique
    decide +kernel
  obtain ⟨i, req, hr, hreq, _, _, hkind⟩ :=
    (late_reply_kind hs hunique).1 lateDataPre [] _ _ (Client.read 5 .high none, 1) 200 hacts
      (by decide +kernel) (by decide)
  exact ⟨s, hs, hacts, i, req, hr, hreq, hkind nofun⟩

/-- A READ times out and a WRITE of the same command is sent; the NACK for the READ ends the
WRITE. -/
def lateNack : List Move :=
  [.call (.read 5 .high none), .call (.poll ⟨[], 0, 0, 0, none⟩), .call (.write 5 []),
    .call (.poll ⟨[], 200, 200, 200, none⟩), .receive, .receive, .reply 0 (.nack 5),
    .call (.poll ⟨[.ok [0x55, 0x00, 0x05]], 201, 201, 201, none⟩)]

def lateNackPre : List Client.Action :=
  [.push (Client.read 5 .high none), .write [0x55, 0x00, 0x05] 0 none,
    .push (Client.write 5 []), .expire 200 [0x55, 0x00, 0x05],
    .write [0x55, 0x01, 0x05, 0x00, 0x00, 0x00] 200 none]

theorem late_nack_ends_write :
    ∃ s, (Link.start plain).run plain lateNack = some s ∧
      s.actions = lateNackPre ++ [.frame (.nack 5) (.nack 5)] ∧
      (ledger lateNackPre).pending = some ((Client.write 5 [], 1), 200) ∧
      ends 5 (Client.write 5 []).expect (.nack 5) = true ∧
      s.replies[(handled lateNackPre).length]? = some ⟨.nack 5, some 0⟩ ∧
      (requests s.actions)[0]? = some (Client.read 5 .high none).frame ∧
      isRead (Client.read 5 .high none).frame ≠ isRead (Client.write 5 []).frame ∧
      s.client.pending = none := by
  have hrun : ((Link.start plain).run plain lateNack).map
      (fun s => (s.actions, s.replies, s.client.pending))
      = some (lateNackPre ++ [.frame (.nack 5) (.nack 5)], [⟨.nack 5, some 0⟩], none) := by
    decide +kernel
  obtain ⟨s, hs, heq⟩ := Option.map_eq_some_iff.mp hrun
  obtain ⟨hacts, hreplies, hpending⟩ : s.actions = _ ∧ s.replies = _ ∧ s.client.pending = _ := by
    simpa using heq
  refine ⟨s, hs, hacts, by decide +kernel, by decide, ?_, ?_, by decide, hpending⟩
  · rw [hreplies]
    rfl
  · rw [hacts]
    rfl

end ProtoEmb.System
