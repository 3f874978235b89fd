import ProtoEmb.Lib.Runs
import ProtoEmb.System.InStep

/-!
# After a timeout

Once a request has timed out in `client.rs`, a late reply can end a later one (`late_reply_kind`),
and request and reply are out of step. How far that goes is said here, for any device that answers
what it has received at most once.

Whatever has been missed, the answer to the request on its way is never among the replies that
have been handled (`Awaited`): so a request that has been answered is pending only until what is
on the wire has been read. And once nothing is on its way, the client is back in step: what is
said in `InStep` of a run without timeouts holds of everything after that (`Resumed`).
-/

namespace ProtoEmb.System

open ProtoEmb.Lib ProtoEmb.Framing ProtoEmb.Client ProtoEmb.Device

/-! ## What a step does to the request on its way -/

/-- The books before and after the actions of one step. -/
inductive Turn (l l' : Ledger) : List Client.Action → Prop where
  | other {actions : List Client.Action} (hended : ended l' = ended l) (hsent : l'.sent = l.sent)
      (hpending : l'.pending = l.pending) (hhandled : handled actions = []) : Turn l l' actions
  /-- A frame that ends nothing. -/
  | passed {f : ParsedFrame} {event : Event}
      (hends : ∀ t sentAt, l.pending = some (t, sentAt) →
        ends (commandOf t.1.frame) t.1.expect f = false)
      (hevent : isReply f = false → event = eventOf f) (hended : ended l' = ended l)
      (hsent : l'.sent = l.sent) (hpending : l'.pending = l.pending) : Turn l l' [.frame f event]
  | reply {t : Ticket} {sentAt : Nat} {f : ParsedFrame} (hpending : l.pending = some (t, sentAt))
      (hends : ends (commandOf t.1.frame) t.1.expect f = true)
      (hended : ended l' = ended l ++ [(t, f)]) (hsent : l'.sent = l.sent)
      (hdone : l'.pending = none) : Turn l l' [.frame f (eventOf f)]
  | write {t : Ticket} {bytes : List UInt8} {now : Nat} (hidle : l.pending = none)
      (hended : ended l' = ended l) (hsent : l'.sent = l.sent ++ [t])
      (hpending : l'.pending = some (t, now)) : Turn l l' [.write bytes now none]
  /-- A timeout, or a write that failed. -/
  | failed {a : Client.Action} (hrough : smooth a = false) (hended : ended l' = ended l)
      (hsent : l'.sent = l.sent) (hdone : l'.pending = none) (hhandled : handled [a] = []) :
      Turn l l' [a]

variable {env : Setup} {l : Ledger} {pre actions : List Client.Action} {c c' : ProtoEmb.Client}

/-- Tickets that are settled otherwise than by a reply. -/
theorem ended_settled {settled : List Settled}
    (h : ∀ x ∈ settled, ∀ f, x.fate ≠ .ended f) :
    ended { l with settled := l.settled ++ settled } = ended l := by
  have hnone : ended { l with settled } = [] := by
    refine List.filterMap_eq_nil_iff.mpr fun x hx => ?_
    cases hfate : x.fate with
    | ended f => exact absurd hfate (h x hx f)
    | replaced | cleared | dropped | timedOut => rfl
  rw [ended_append, hnone, List.append_nil]

theorem push_turn (msg : QueuedMessage) : Turn l (l.step (.push msg)) [.push msg] := by
  have hpush : ended (l.push msg) = ended l ∧ (l.push msg).sent = l.sent ∧
      (l.push msg).pending = l.pending := by
    have hreplaced : ∀ (olds : List Ticket), ∀ x ∈ olds.map fun old =>
        (⟨old, .replaced l.next, l.seen⟩ : Settled), ∀ f, x.fate ≠ .ended f :=
      fun olds => List.forall_mem_map.mpr fun old _ f h => by cases h
    unfold Ledger.push
    cases msg.priority with
    | high => exact ⟨ended_settled (hreplaced _), rfl, rfl⟩
    | low => exact ⟨ended_settled (hreplaced _), rfl, rfl⟩
  exact .other hpush.1 hpush.2.1 hpush.2.2 rfl

theorem clear_turn : Turn l (l.step .clear) [.clear] :=
  .other (ended_settled (List.forall_mem_map.mpr fun _ _ _ h => by cases h)) rfl rfl rfl

theorem frame_turn (h : l.Matches c) {f : ParsedFrame} {event : Event}
    (hf : c.handleFrame f = some (c', event)) :
    Turn l (l.step (.frame f event)) [.frame f event] := by
  have hnotice : isReply f = false → event = eventOf f := by
    intro hreply
    cases f with
    | notification payload =>
      cases hf
      rfl
    | ack | nack | data => cases hreply
  unfold Ledger.step Ledger.enact
  cases hp : l.pending with
  | none => exact .passed (fun t sentAt h => by rw [hp] at h; cases h) hnotice rfl rfl rfl
  | some p =>
    obtain ⟨t, sentAt⟩ := p
    simp only
    split
    next hends =>
      -- a frame that ends the request is reported as what it is
      obtain rfl | ⟨q, m, hq, hkeeps, -⟩ := (handleFrame_spec hf).2
      · exact .reply hp hends (ended_append _ _) rfl rfl
      · rw [h.pending, hp] at hq
        cases hq
        exact absurd hends (Bool.eq_false_iff.mp hkeeps)
    next hkeeps =>
      refine .passed (fun t' at' h => ?_) hnotice rfl rfl rfl
      rw [hp] at h
      cases h
      exact Bool.eq_false_iff.mpr hkeeps

theorem write_turn (h : l.Matches c) {msg : QueuedMessage} {queue : PriorityQueue} {now : Nat}
    {error : Option String} (hp : c.pending = none) (hpop : c.queue.pop = some (msg, queue)) :
    Turn l (l.step (.write msg.frame now error)) [.write msg.frame now error] := by
  have hidle : l.pending = none := Option.map_eq_none_iff.mp (h.pending.symm.trans hp)
  obtain ⟨t, l', hl, -⟩ := h.pop hpop
  obtain ⟨hl', -⟩ := Ledger.pop_spec hl
  have hended : ended l' = ended l := by rw [hl']; rfl
  have hsent : l'.sent = l.sent := by rw [hl']
  unfold Ledger.step Ledger.enact
  simp only [hl]
  cases error with
  | none => exact .write hidle hended (congrArg (· ++ [t]) hsent) rfl
  | some e =>
    refine .failed rfl ?_ hsent ?_ rfl
    · refine Eq.trans (ended_settled (l := l') ?_) hended
      exact List.forall_mem_singleton.mpr fun f h => by cases h
    · show l'.pending = none
      rw [hl', hidle]

/-- **One step.** -/
theorem step_turn (h : (ledger pre).Matches c) (hstep : Step c actions c') :
    Turn (ledger pre) (ledger (pre ++ actions)) actions := by
  cases hstep with
  | parse | schedule =>
    rw [List.append_nil]
    exact .other rfl rfl rfl rfl
  | frame hf =>
    rw [ledger_concat]
    exact frame_turn h hf
  | push msg =>
    rw [ledger_concat]
    exact push_turn msg
  | clear =>
    rw [ledger_concat]
    exact clear_turn
  | readError | register | clearAll =>
    rw [ledger_concat]
    exact .other rfl rfl rfl rfl
  | expire hp hlate =>
    rw [ledger_concat]
    obtain ⟨⟨t, sentAt⟩, hl, -⟩ := Option.map_eq_some_iff.mp (h.pending.symm.trans hp)
    unfold Ledger.step Ledger.enact
    rw [hl]
    refine .failed rfl ?_ rfl rfl rfl
    exact ended_settled (List.forall_mem_singleton.mpr fun f h => by cases h)
  | write now error hp hpop =>
    rw [ledger_concat]
    exact write_turn h hp hpop

/-! ## In a call -/

/-- What is known of the replies that are there while the client is in a call: `start` is what
was done before it, and `final` what has been done after it. -/
structure Replied (env : Setup) (replies : List Reply) (start final : List Client.Action) :
    Prop where
  /-- An answer is to a request that was written before the call. -/
  made : ∀ r ∈ replies, ∀ i, r.origin = some i →
    ∃ req, (requests start)[i]? = some req ∧ env.answers req r.frame = true
  delivered : handled final <+: replies.map Reply.frame
  proper : ∀ msg ∈ pushes final, env.Proper msg.frame msg.expect

/-- A state inside the call, where `I` has held so far. -/
structure Within (env : Setup) (I : List Client.Action → Prop)
    (start final pre : List Client.Action)
    (c : ProtoEmb.Client) : Prop where
  steps : Steps (withConfig env.config) pre c
  extends_start : start <+: pre
  holds : pre <+: final → I pre

/-- The frame that is handled next is that of the next reply. -/
theorem Replied.next {replies : List Reply} {start final : List Client.Action}
    (h : Replied env replies start final) {f : ParsedFrame} {event : Event}
    (hfinal : pre ++ [.frame f event] <+: final) :
    ∃ r, replies[(handled pre).length]? = some r ∧ r.frame = f := by
  obtain ⟨rest, hrest⟩ := (prefix_handled hfinal).trans h.delivered
  have hat : (replies.map Reply.frame)[(handled pre).length]? = some f := by
    rw [← hrest, handled_append, List.append_assoc]
    exact List.getElem?_append_right (Nat.le_refl _) ▸ by simp [handled]
  rw [List.getElem?_map, Option.map_eq_some_iff] at hat
  exact hat

/-- The request on its way is ended by an answer to it. -/
theorem Replied.expected {replies : List Reply} {start final : List Client.Action}
    (h : Replied env replies start final) (hsteps : Steps (withConfig env.config) pre c)
    (hfinal : pre <+: final) {t : Ticket} {sentAt : Nat} {f : ParsedFrame}
    (hpending : (ledger pre).pending = some (t, sentAt))
    (hans : env.answers t.1.frame f = true) : ends (commandOf t.1.frame) t.1.expect f = true := by
  have hpushed : t ∈ (pushes pre).zipIdx :=
    (steps_booked hsteps).accounted.perm.mem_iff.mp (by simp [Ledger.tickets, hpending])
  refine ends_of_answers (h.proper t.1 ?_) hans
  obtain ⟨post, rfl⟩ := hfinal
  rw [Ledger.pushes_append]
  exact List.mem_append_left _ (List.mem_of_getElem? (List.mem_zipIdx_iff_getElem?.mp hpushed))

/-- A request that was answered before the call is one that was sent. -/
theorem Replied.sent {replies : List Reply} {start final : List Client.Action}
    (h : Replied env replies start final) (hsteps : Steps (withConfig env.config) pre c)
    (hstart : start <+: pre) {r : Reply} (hr : r ∈ replies) {i : Nat} (ho : r.origin = some i) :
    ∃ t, (ledger pre).sent[i]? = some t ∧ env.answers t.1.frame r.frame = true := by
  obtain ⟨req, hreq, hans⟩ := h.made r hr i ho
  obtain ⟨more, rfl⟩ := hstart
  have hat : (requests (start ++ more))[i]? = some req := by
    rw [Ledger.requests_append, List.getElem?_append_left (List.getElem?_eq_some_iff.mp hreq).1,
      hreq]
  rw [(steps_booked hsteps).accounted.requests_eq, List.getElem?_map, Option.map_eq_some_iff] at hat
  obtain ⟨t, ht, rfl⟩ := hat
  exact ⟨t, ht, hans⟩

/-! ## The answer that is missing -/

/-- The request on its way is the last one that was sent, and its answer has not been handled. -/
def Awaits (replies : List Reply) (pre : List Client.Action) : Prop :=
  ∀ t sentAt, (ledger pre).pending = some (t, sentAt) →
    ∃ before, (ledger pre).sent = before ++ [t] ∧
      ∀ r ∈ replies.take (handled pre).length, r.origin ≠ some before.length

/-- **One step of the client**, with the replies that are there. -/
theorem awaits_step {replies : List Reply} {start final : List Client.Action}
    (hreplied : Replied env replies start final)
    (h : Within env (Awaits replies) start final pre c) (hstep : Step c actions c') :
    Within env (Awaits replies) start final (pre ++ actions) c' := by
  refine ⟨h.steps.trans hstep.steps, h.extends_start.trans (List.prefix_append _ _),
    fun hfinal t sentAt hpending => ?_⟩
  have hpre := (List.prefix_append pre actions).trans hfinal
  have hawaits := h.holds hpre
  cases step_turn (steps_booked h.steps).matched hstep with
  | other _ hsent hsame hhandled =>
    obtain ⟨before, hbefore, hnone⟩ := hawaits t sentAt (hsame ▸ hpending)
    refine ⟨before, hsent.trans hbefore, ?_⟩
    rw [handled_append, hhandled, List.append_nil]
    exact hnone
  | @passed f event hends hevent _ hsent hsame =>
    have hp := hsame ▸ hpending
    obtain ⟨before, hbefore, hnone⟩ := hawaits t sentAt hp
    obtain ⟨r, hr, hframe⟩ := hreplied.next hfinal
    refine ⟨before, hsent.trans hbefore, ?_⟩
    have hlen : (handled (pre ++ [.frame f event])).length = (handled pre).length + 1 := by
      rw [handled_append, List.length_append]
      rfl
    rw [hlen, List.take_add_one, hr]
    refine List.forall_mem_append.mpr ⟨hnone, List.forall_mem_singleton.mpr fun ho => ?_⟩
    -- the answer to the request on its way would have ended it
    obtain ⟨t', ht', hans⟩ :=
      hreplied.sent h.steps h.extends_start (List.mem_of_getElem? hr) ho
    rw [hbefore, List.getElem?_concat_length] at ht'
    cases ht'
    have hyes := hreplied.expected h.steps hpre hp (hframe ▸ hans)
    rw [hends t sentAt hp] at hyes
    cases hyes
  | reply _ _ _ _ hdone =>
    rw [hdone] at hpending
    cases hpending
  | @write t' bytes now _ _ hsent hpending' =>
    rw [hpending'] at hpending
    cases hpending
    refine ⟨(ledger pre).sent, hsent, fun r hr ho => ?_⟩
    -- what has been answered was sent before
    obtain ⟨t'', ht'', -⟩ :=
      hreplied.sent h.steps h.extends_start (List.mem_of_mem_take hr) ho
    exact Nat.lt_irrefl _ (List.getElem?_eq_some_iff.mp ht'').1
  | failed _ _ _ hdone _ =>
    rw [hdone] at hpending
    cases hpending

/-- What holds along every run. -/
structure Awaited (env : Setup) (s : Link) : Prop where
  linked : Linked env s
  awaits : Awaits s.replies s.actions

variable {s s' : Link}

theorem Linked.replied (h : Linked env s) {final : List Client.Action}
    (hdelivered : handled final <+: s.replies.map Reply.frame)
    (hproper : ∀ msg ∈ pushes final, env.Proper msg.frame msg.expect) :
    Replied env s.replies s.actions final := by
  refine ⟨fun r hr i ho => ?_, hdelivered, hproper⟩
  rcases h.answered r hr with ⟨payload, rfl⟩ | ⟨j, -, ho', req, hreq, hans⟩
  · cases ho
  · rw [ho] at ho'
    cases ho'
    exact ⟨req, hreq, hans⟩

theorem awaited_start (env : Setup) : Awaited env (Link.start env) :=
  ⟨linked_start env, fun _ _ h => by cases h⟩

/-- **One move.** -/
theorem Awaited.step (h : Awaited env s) {m : Move} (hm : s.step env m = some s') :
    Awaited env s' := by
  have hlinked := h.linked.step hm
  refine ⟨hlinked, ?_⟩
  -- a reply that is sent now has not been handled
  have hmore : ∀ more, Awaits (s.replies ++ more) s.actions := by
    intro more t sentAt hpending
    obtain ⟨before, hbefore, hnone⟩ := h.awaits t sentAt hpending
    refine ⟨before, hbefore, ?_⟩
    have hle := h.linked.delivered.length_le
    rw [List.length_map] at hle
    rw [List.take_append_of_le_length hle]
    exact hnone
  cases m with
  | call op =>
    simp only [Link.step] at hm
    split at hm
    next =>
      simp only [Option.bind_eq_bind, Option.bind_eq_some_iff, Option.pure_def,
        Option.some.injEq] at hm
      obtain ⟨⟨client, actions⟩, hcall, rfl⟩ := hm
      have hreplied := h.linked.replied hlinked.delivered hlinked.proper
      exact (Steps.invariant (Within env (Awaits s.replies) s.actions (s.actions ++ actions))
        (awaits_step hreplied) (call_steps hcall)
        ⟨h.linked.steps, List.prefix_refl _, fun _ => h.awaits⟩).holds (List.prefix_refl _)
    next => cases hm
  | receive =>
    simp only [Link.step] at hm
    split at hm
    · cases hm
      exact h.awaits
    · cases hm
  | reply request frame =>
    simp only [Link.step] at hm
    split at hm
    · cases hm
      exact hmore _
    · cases hm
  | notify payload =>
    simp only [Link.step] at hm
    split at hm
    · cases hm
      exact hmore _
    · cases hm

theorem run_link {link : Link} :
    ∀ {moves : List Move}, link.run env moves = Machine.run (Link.step env) link moves := by
  intro moves
  induction moves generalizing link with
  | nil => rfl
  | cons m moves ih =>
    show ((link.step env m).bind fun s => s.run env moves) = _
    rw [Machine.run_cons]
    congr 1
    funext s
    exact ih

theorem run_awaited {moves : List Move} (hrun : (Link.start env).run env moves = some s) :
    Awaited env s :=
  Machine.run_invariant (fun h hm => h.step hm) (awaited_start env) (run_link.symm.trans hrun)

/-! ## When all has been read -/

/-- Without errors, reading only handles frames. -/
theorem readLoop_frames :
    ∀ {reads : List ReadResult} {c c' : ProtoEmb.Client} {actions : List Client.Action},
      (∀ e, .error e ∉ reads) → c.readLoop reads = some (c', actions) →
      ∀ a ∈ actions, ∃ f event, a = .frame f event := by
  intro reads
  induction reads with
  | nil =>
    intro c c' actions _ h
    cases h
    exact List.forall_mem_nil _
  | cons r reads ih =>
    intro c c' actions hok h
    cases r with
    | timedOut =>
      cases h
      exact List.forall_mem_nil _
    | error message => exact absurd (List.mem_cons_self ..) (hok message)
    | ok bytes =>
      have hrest : ∀ e, .error e ∉ reads := fun e he => hok e (List.mem_cons_of_mem _ he)
      unfold readLoop at h
      split at h
      · cases h
        exact List.forall_mem_nil _
      · split at h
        · simp only [Option.bind_eq_bind, Option.bind_eq_some_iff] at h
          obtain ⟨⟨c₁, acts⟩, hframes, h⟩ := h
          have hacts := (handleFrames_spec hframes).2
          -- a short read was the last, a full one is followed by the rest
          split at h
          · cases h
            exact hacts
          · simp only [Option.bind_eq_some_iff, Option.pure_def, Option.some.injEq,
              Prod.mk.injEq] at h
            obtain ⟨⟨c₂, more⟩, hmore, rfl, rfl⟩ := h
            exact List.forall_mem_append.mpr ⟨hacts, ih hrest hmore⟩
        · cases h

theorem frames_smooth {actions : List Client.Action}
    (h : ∀ a ∈ actions, ∃ f event, a = Client.Action.frame f event) :
    (∀ a ∈ actions, smooth a = true) ∧ pushes actions = [] ∧ requests actions = [] := by
  refine ⟨fun a ha => ?_, List.filterMap_eq_nil_iff.mpr fun a ha => ?_,
    List.filterMap_eq_nil_iff.mpr fun a ha => ?_⟩
  all_goals
    obtain ⟨f, event, rfl⟩ := h a ha
    rfl

/-- Nothing is on its way: every request was answered, and what was sent has been read. -/
structure Link.Idle (s : Link) : Prop where
  pending : (ledger s.actions).pending = none
  wire : s.wire = []
  answered : ∀ i < (requests s.actions).length, ∃ r ∈ s.replies, r.origin = some i

/-- **A request is pending until its answer is read**, and not longer: if the device has answered
all that was written and all of that has been read, there is none, whatever timeouts and late
replies there have been. -/
theorem Awaited.idle (h : Awaited env s) (hwire : s.wire = [])
    (hall : ∀ i < (requests s.actions).length, ∃ r ∈ s.replies, r.origin = some i) : s.Idle := by
  refine ⟨?_, hwire, hall⟩
  cases hp : (ledger s.actions).pending with
  | none => rfl
  | some p =>
    obtain ⟨t, sentAt⟩ := p
    obtain ⟨before, hbefore, hnone⟩ := h.awaits t sentAt hp
    obtain ⟨r, hr, ho⟩ := hall before.length (by
      rw [(steps_booked h.linked.steps).accounted.requests_eq, hbefore]
      simp)
    rw [h.linked.delivered_all hwire, List.length_map, List.take_length] at hnone
    exact absurd ho (hnone r hr)

/-- The link in the middle of a poll that reads all that is on the wire. -/
def Link.read (s : Link) (client : ProtoEmb.Client) (received : List Client.Action) : Link :=
  { s with client, actions := s.actions ++ received, wire := [] }

theorem Awaited.read (h : Awaited env s) {reads : List ReadResult} {received : List Client.Action}
    (hok : ∀ e, .error e ∉ reads) (hwire : bytesRead reads = s.wire)
    (hread : s.client.readLoop reads = some (c, received)) : Awaited env (s.read c received) := by
  obtain ⟨-, hpushes, hrequests⟩ := frames_smooth (readLoop_frames hok hread)
  have hsame : requests (s.actions ++ received) = requests s.actions := by
    rw [Ledger.requests_append, hrequests, List.append_nil]
  have hlinked : Linked env (s.read c received) := by
    obtain ⟨fed, hfed, hstream⟩ := h.linked.stream
    refine ⟨h.linked.steps.trans (readLoop_steps hread), ?_, ⟨fed ++ s.wire, ?_, ?_⟩,
      h.linked.sendable, ?_, ?_⟩
    · show ∀ msg ∈ pushes (s.actions ++ received), _
      rw [Ledger.pushes_append, hpushes, List.append_nil]
      exact h.linked.proper
    · rw [FrameParser.feedBytes_append, hfed, ← hwire, readLoop_handled hread]
      exact congrArg _ (handled_append _ _).symm
    · exact (List.append_nil _).trans hstream
    · show ∀ r ∈ s.replies, _ ∨ ∃ i < s.received, _ ∧
        ∃ req ∈ (requests (s.actions ++ received))[i]?, _
      rw [hsame]
      exact h.linked.answered
    · show s.received ≤ (requests (s.actions ++ received)).length
      rw [hsame]
      exact h.linked.received_le
  have hreplied := h.linked.replied hlinked.delivered hlinked.proper
  exact ⟨hlinked, (Steps.invariant
    (Within env (Awaits s.replies) s.actions (s.actions ++ received)) (awaits_step hreplied)
    (readLoop_steps hread) ⟨h.linked.steps, List.prefix_refl _, fun _ => h.awaits⟩).holds
      (List.prefix_refl _)⟩

/-! ## Back in step -/

/-- `InStep` of what was done after `base`; `es` are the requests that were ended since then. -/
structure Since (base more : List Client.Action) (es : List (Ticket × ParsedFrame)) : Prop where
  ended_eq : ended (ledger (base ++ more)) = ended (ledger base) ++ es
  sent_eq : (ledger (base ++ more)).sent = (ledger base).sent
    ++ (es.map Prod.fst ++ ((ledger (base ++ more)).pending.map Prod.fst).toList)
  handled_eq : (handled more).filter isReply = es.map Prod.snd
  events : ∀ f event, .frame f event ∈ more → event = eventOf f

theorem since_nil {base : List Client.Action} (hpending : (ledger base).pending = none) :
    Since base [] [] where
  ended_eq := by rw [List.append_nil, List.append_nil]
  sent_eq := by rw [List.append_nil, hpending]; exact (List.append_nil _).symm
  handled_eq := rfl
  events := fun _ _ h => absurd h List.not_mem_nil

/-- What an action that ends nothing and sends nothing leaves. -/
theorem Since.same {base more : List Client.Action} {es : List (Ticket × ParsedFrame)}
    (h : Since base more es) {actions : List Client.Action}
    (hended : ended (ledger (base ++ (more ++ actions))) = ended (ledger (base ++ more)))
    (hsent : (ledger (base ++ (more ++ actions))).sent = (ledger (base ++ more)).sent)
    (hpending : (ledger (base ++ (more ++ actions))).pending = (ledger (base ++ more)).pending)
    (hhandled : (handled actions).filter isReply = [])
    (hevents : ∀ f event, .frame f event ∈ actions → event = eventOf f) :
    Since base (more ++ actions) es where
  ended_eq := hended.trans h.ended_eq
  sent_eq := by rw [hsent, hpending]; exact h.sent_eq
  handled_eq := by
    rw [handled_append, List.filter_append, hhandled, List.append_nil]
    exact h.handled_eq
  events := fun f event hmem => (List.mem_append.mp hmem).elim (h.events f event) (hevents f event)

/-- **One step of the client** after `base`, as long as the answers are in order: if a frame
answers something, it is what is on its way. -/
theorem Since.step {base more : List Client.Action} {es : List (Ticket × ParsedFrame)}
    (h : Since base more es)
    (hturn : Turn (ledger (base ++ more)) (ledger (base ++ (more ++ actions))) actions)
    (hsmooth : ∀ a ∈ actions, smooth a = true)
    (hanswer : ∀ f event, actions = [.frame f event] → isReply f = true →
      ∃ t sentAt, (ledger (base ++ more)).pending = some (t, sentAt) ∧
        ends (commandOf t.1.frame) t.1.expect f = true) :
    ∃ es', Since base (more ++ actions) es' := by
  cases hturn with
  | other hended hsent hpending hhandled =>
    refine ⟨es, h.same hended hsent hpending (by rw [hhandled]; rfl) fun f event hmem => ?_⟩
    have hf : f ∈ handled actions := List.mem_filterMap.mpr ⟨_, hmem, rfl⟩
    rw [hhandled] at hf
    exact absurd hf List.not_mem_nil
  | @passed f event hends hevent hended hsent hpending =>
    cases hreply : isReply f with
    | true =>
      obtain ⟨t, sentAt, hp, hyes⟩ := hanswer f event rfl hreply
      rw [hends t sentAt hp] at hyes
      cases hyes
    | false =>
      refine ⟨es, h.same hended hsent hpending ?_ fun g event' hmem => ?_⟩
      · show List.filter isReply [f] = []
        rw [List.filter_singleton, hreply]
        rfl
      · cases List.mem_singleton.mp hmem
        exact hevent hreply
  | @reply t sentAt f hpending hends hended hsent hdone =>
    have hreply : isReply f = true := by
      cases f with
      | notification payload => cases hends
      | ack | nack | data => rfl
    refine ⟨es ++ [(t, f)], ?_, ?_, ?_, fun g event hmem => ?_⟩
    · rw [hended, h.ended_eq, List.append_assoc]
    · rw [hsent, h.sent_eq, hpending, hdone, List.map_append]
      exact congrArg _ (List.append_nil _).symm
    · rw [handled_append, List.filter_append, h.handled_eq, List.map_append]
      congr 1
      show List.filter isReply [f] = [f]
      rw [List.filter_singleton, hreply]
      rfl
    · rcases List.mem_append.mp hmem with hmem | hmem
      · exact h.events g event hmem
      · cases List.mem_singleton.mp hmem
        rfl
  | @write t bytes now hidle hended hsent hpending =>
    refine ⟨es, hended.trans h.ended_eq, ?_, ?_, fun g event hmem => ?_⟩
    · rw [hsent, h.sent_eq, hidle, hpending, List.append_assoc]
      exact congrArg (_ ++ ·) (by rw [Option.map_none, Option.toList_none, List.append_nil]; rfl)
    · rw [handled_append, List.filter_append, h.handled_eq]
      exact List.append_nil _
    · rcases List.mem_append.mp hmem with hmem | hmem
      · exact h.events g event hmem
      · cases List.mem_singleton.mp hmem
  | @failed a hrough _ _ _ _ =>
    rw [hsmooth a (List.mem_singleton.mpr rfl)] at hrough
    cases hrough

/-- What holds after `b`: as long as no request times out, the client is in step and the answers
are in the order of the requests. -/
structure Resumed (env : Setup) (b s : Link) : Prop where
  linked : Linked env s
  since : ∃ more replies, s.actions = b.actions ++ more ∧ s.replies = b.replies ++ replies ∧
    ((∀ a ∈ more, smooth a = true) → (∃ es, Since b.actions more es) ∧
      (answers replies).map Prod.snd
        = List.range' (requests b.actions).length (answers replies).length)

variable {b : Link} {more : List Client.Action} {replies : List Reply}

theorem resumed_start (h : Linked env b) (hidle : b.Idle) : Resumed env b b :=
  ⟨h, [], [], (List.append_nil _).symm, (List.append_nil _).symm,
    fun _ => ⟨⟨[], since_nil hidle.pending⟩, rfl⟩⟩

/-- What was handled after `b` is what was sent after `b`, as far as it has got. -/
theorem Link.Idle.delivered (hidle : b.Idle) (hb : Linked env b)
    (h : handled (b.actions ++ more) <+: (b.replies ++ replies).map Reply.frame) :
    handled more <+: replies.map Reply.frame := by
  rw [handled_append, List.map_append, hb.delivered_all hidle.wire] at h
  exact (List.prefix_append_right_inj _).mp h

theorem Link.Idle.frames (hb : Linked env b) (h : Linked env s)
    (hreplies : s.replies = b.replies ++ replies) :
    (replies.map Reply.frame).filter isReply = (answers replies).map Prod.fst := by
  have hall := h.frames
  rw [hreplies, List.map_append, List.filter_append, answers_append, List.map_append, hb.frames]
    at hall
  exact List.append_cancel_left hall

/-- With the answers in order, the reply with number `i` answers request `n + i`. -/
theorem answers_get {n i : Nat} {f : ParsedFrame}
    (hframes : (replies.map Reply.frame).filter isReply = (answers replies).map Prod.fst)
    (horder : (answers replies).map Prod.snd = List.range' n (answers replies).length)
    (hi : ((replies.map Reply.frame).filter isReply)[i]? = some f) :
    (f, n + i) ∈ answers replies := by
  rw [hframes, List.getElem?_map, Option.map_eq_some_iff] at hi
  obtain ⟨⟨g, j⟩, hget, rfl⟩ := hi
  have hlt := (List.getElem?_eq_some_iff.mp hget).1
  have hsnd : ((answers replies).map Prod.snd)[i]? = some j := by
    rw [List.getElem?_map, hget]
    rfl
  rw [horder, List.getElem?_range' hlt, Nat.one_mul] at hsnd
  cases hsnd
  exact List.mem_of_getElem? hget

/-- The reply that is handled next answers the request after those that were ended. -/
theorem answers_next {n : Nat} {f : ParsedFrame} {frames : List ParsedFrame}
    (hframes : (replies.map Reply.frame).filter isReply = (answers replies).map Prod.fst)
    (horder : (answers replies).map Prod.snd = List.range' n (answers replies).length)
    (hdelivered : frames ++ [f] <+: replies.map Reply.frame) (hreply : isReply f = true) :
    (f, n + (frames.filter isReply).length) ∈ answers replies := by
  obtain ⟨rest, hrest⟩ := hdelivered.filter isReply
  have hone : List.filter isReply [f] = [f] := by
    rw [List.filter_singleton, hreply]
    rfl
  refine answers_get hframes horder ?_
  rw [← hrest, List.filter_append, hone]
  simp

/-- A reply that is handled is the answer to what is on its way. -/
theorem Replied.answer {start final : List Client.Action} (hidle : b.Idle) (hb : Linked env b)
    (h : Replied env (b.replies ++ replies) start final)
    (hframes : (replies.map Reply.frame).filter isReply = (answers replies).map Prod.fst)
    (horder : (answers replies).map Prod.snd
      = List.range' (requests b.actions).length (answers replies).length)
    {es : List (Ticket × ParsedFrame)} (hsince : Since b.actions more es)
    (hsteps : Steps (withConfig env.config) (b.actions ++ more) c)
    (hstart : start <+: b.actions ++ more) {f : ParsedFrame} {event : Event}
    (hfinal : b.actions ++ more ++ [.frame f event] <+: final) (hreply : isReply f = true) :
    ∃ t sentAt, (ledger (b.actions ++ more)).pending = some (t, sentAt) ∧
      ends (commandOf t.1.frame) t.1.expect f = true := by
  have hdelivered := (prefix_handled hfinal).trans h.delivered
  rw [List.append_assoc] at hdelivered
  have hat := answers_next hframes horder
    (handled_append more [.frame f event] ▸ hidle.delivered hb hdelivered) hreply
  rw [hsince.handled_eq, List.length_map] at hat
  obtain ⟨t, ht, hans⟩ := h.sent hsteps hstart
    (List.mem_append_right _ (mem_answers.mp hat)) rfl
  -- the request is the last one that was sent
  have hbase : (ledger b.actions).sent.length = (requests b.actions).length := by
    rw [(steps_booked hb.steps).accounted.requests_eq, List.length_map]
  rw [hsince.sent_eq, ← hbase, List.getElem?_append_right (Nat.le_add_right _ _),
    Nat.add_sub_cancel_left, List.getElem?_append_right (by rw [List.length_map]),
    List.length_map, Nat.sub_self] at ht
  cases hp : (ledger (b.actions ++ more)).pending with
  | none =>
    rw [hp] at ht
    cases ht
  | some p =>
    obtain ⟨t', sentAt⟩ := p
    rw [hp] at ht
    obtain rfl : t' = t := Option.some.inj ht
    exact ⟨t', sentAt, rfl, h.expected hsteps ((List.prefix_append _ _).trans hfinal) hp hans⟩

/-- What was done after `base` was in step. -/
def Afterwards (base pre : List Client.Action) : Prop :=
  ∃ more es, pre = base ++ more ∧ Since base more es

/-- **One step of the client** after `b`, with the replies that are there. -/
theorem afterwards_step {start : List Client.Action} (hidle : b.Idle) (hb : Linked env b)
    (hreplied : Replied env (b.replies ++ replies) start (b.actions ++ more))
    (hframes : (replies.map Reply.frame).filter isReply = (answers replies).map Prod.fst)
    (horder : (answers replies).map Prod.snd
      = List.range' (requests b.actions).length (answers replies).length)
    (hsmooth : ∀ a ∈ more, smooth a = true)
    (h : Within env (Afterwards b.actions) start (b.actions ++ more) pre c)
    (hstep : Step c actions c') :
    Within env (Afterwards b.actions) start (b.actions ++ more) (pre ++ actions) c' := by
  refine ⟨h.steps.trans hstep.steps, h.extends_start.trans (List.prefix_append _ _),
    fun hfinal => ?_⟩
  obtain ⟨before, es, rfl, hes⟩ := h.holds ((List.prefix_append _ _).trans hfinal)
  have hturn := step_turn (steps_booked h.steps).matched hstep
  rw [List.append_assoc] at hturn
  have hcalm : ∀ a ∈ actions, smooth a = true := by
    have hsub := hfinal
    rw [List.append_assoc, List.prefix_append_right_inj] at hsub
    exact fun a ha => hsmooth a (hsub.subset (List.mem_append_right _ ha))
  obtain ⟨es', hes'⟩ := hes.step hturn hcalm fun f event hacts hreply =>
    hreplied.answer hidle hb hframes horder hes h.steps h.extends_start (hacts ▸ hfinal) hreply
  exact ⟨before ++ actions, es', List.append_assoc .., hes'⟩

/-- A request that the device may still answer is the one after those it has answered. -/
theorem Since.next (hidle : b.Idle) (hb : Linked env b) (h : Linked env s)
    (hactions : s.actions = b.actions ++ more) (hreplies : s.replies = b.replies ++ replies)
    {es : List (Ticket × ParsedFrame)} (hsince : Since b.actions more es)
    (horder : (answers replies).map Prod.snd
      = List.range' (requests b.actions).length (answers replies).length) {i : Nat}
    (hi : i < s.received) (hfree : ∀ r ∈ s.replies, r.origin ≠ some i) :
    i = (requests b.actions).length + (answers replies).length := by
  have hle : es.length ≤ (answers replies).length := by
    have hdelivered := h.delivered
    rw [hactions, hreplies] at hdelivered
    have hfilter := ((hidle.delivered hb hdelivered).filter isReply).length_le
    rw [hsince.handled_eq, Link.Idle.frames hb h hreplies, List.length_map, List.length_map]
      at hfilter
    exact hfilter
  have hbase : (ledger b.actions).sent.length = (requests b.actions).length := by
    rw [(steps_booked hb.steps).accounted.requests_eq, List.length_map]
  have hsent : (requests s.actions).length ≤ (requests b.actions).length + es.length + 1 := by
    rw [(steps_booked h.steps).accounted.requests_eq, List.length_map, hactions, hsince.sent_eq,
      List.length_append, List.length_append, List.length_map, hbase]
    have hone : (((ledger (b.actions ++ more)).pending.map Prod.fst).toList).length ≤ 1 := by
      cases (ledger (b.actions ++ more)).pending <;> simp
    omega
  have hrecv := h.received_le
  have hold : (requests b.actions).length ≤ i := by
    by_contra hlt
    obtain ⟨r, hr, ho⟩ := hidle.answered i (Nat.lt_of_not_le hlt)
    exact hfree r (hreplies ▸ List.mem_append_left _ hr) ho
  have hge : (requests b.actions).length + (answers replies).length ≤ i := by
    by_contra hlt
    have hmem : i ∈ (answers replies).map Prod.snd := by
      rw [horder, List.mem_range'_1]
      omega
    rcases List.mem_map.mp hmem with ⟨⟨f, j⟩, hj, rfl⟩
    exact hfree _ (hreplies ▸ List.mem_append_right _ (mem_answers.mp hj)) rfl
  omega

/-- The steps of a call, or of a part of it. -/
theorem Resumed.steps (hidle : b.Idle) (hb : Linked env b) (h : Resumed env b s)
    {actions : List Client.Action} {client : ProtoEmb.Client} {wire : List UInt8}
    (hsteps : Steps s.client actions client)
    (hlinked : Linked env { s with client, actions := s.actions ++ actions, wire }) :
    Resumed env b { s with client, actions := s.actions ++ actions, wire } := by
  obtain ⟨more, replies, hactions, hreplies, hsince⟩ := h.since
  have hfinal : s.actions ++ actions = b.actions ++ (more ++ actions) := by
    rw [hactions, List.append_assoc]
  refine ⟨hlinked, more ++ actions, replies, hfinal, hreplies, fun hsmooth => ?_⟩
  obtain ⟨⟨es, hes⟩, horder⟩ := hsince fun a ha => hsmooth a (List.mem_append_left _ ha)
  refine ⟨?_, horder⟩
  have hreplied := h.linked.replied hlinked.delivered hlinked.proper
  rw [hreplies, hfinal] at hreplied
  -- one step after the other
  obtain ⟨more', es', heq, hes'⟩ := (Steps.invariant
    (Within env (Afterwards b.actions) s.actions (b.actions ++ (more ++ actions)))
    (afterwards_step hidle hb hreplied (Link.Idle.frames hb h.linked hreplies) horder hsmooth)
    hsteps ⟨h.linked.steps, List.prefix_refl _, fun _ => ⟨more, es, hactions, hes⟩⟩).holds
      (hfinal ▸ List.prefix_refl _)
  rw [hfinal] at heq
  exact ⟨es', List.append_cancel_left heq ▸ hes'⟩

/-- **One move.** -/
theorem Resumed.step (hidle : b.Idle) (hb : Linked env b) (h : Resumed env b s) {m : Move}
    (hm : s.step env m = some s') : Resumed env b s' := by
  have hlinked := h.linked.step hm
  cases m with
  | call op =>
    simp only [Link.step] at hm
    split at hm
    next =>
      simp only [Option.bind_eq_bind, Option.bind_eq_some_iff, Option.pure_def,
        Option.some.injEq] at hm
      obtain ⟨⟨client, actions⟩, hcall, rfl⟩ := hm
      exact h.steps hidle hb (call_steps hcall) hlinked
    next => cases hm
  | receive =>
    simp only [Link.step] at hm
    split at hm
    · cases hm
      exact ⟨hlinked, h.since⟩
    · cases hm
  | reply request frame =>
    simp only [Link.step] at hm
    split at hm
    next hok =>
      obtain ⟨hi, hfree, -⟩ := hok
      cases hm
      obtain ⟨more, replies, hactions, hreplies, hsince⟩ := h.since
      refine ⟨hlinked, more, replies ++ [⟨frame, some request⟩], hactions, ?_, fun hsmooth => ?_⟩
      · rw [hreplies, List.append_assoc]
      obtain ⟨⟨es, hes⟩, horder⟩ := hsince hsmooth
      -- the device answers the next request in line
      refine ⟨⟨es, hes⟩, ?_⟩
      rw [answers_append, List.map_append, horder, List.length_append]
      show _ ++ [request] = List.range' _ (_ + 1)
      rw [List.range'_1_concat, hes.next hidle hb h.linked hactions hreplies horder hi hfree]
    next => cases hm
  | notify payload =>
    simp only [Link.step] at hm
    split at hm
    · cases hm
      obtain ⟨more, replies, hactions, hreplies, hsince⟩ := h.since
      refine ⟨hlinked, more, replies ++ [⟨.notification payload, none⟩], hactions, ?_,
        fun hsmooth => ?_⟩
      · rw [hreplies, List.append_assoc]
      obtain ⟨hes, horder⟩ := hsince hsmooth
      have hsame : answers (replies ++ [⟨.notification payload, none⟩]) = answers replies := by
        rw [answers_append]
        exact List.append_nil _
      rw [hsame]
      exact ⟨hes, horder⟩
    · cases hm

/-- What a request was ended with after `b` is the answer that the device made to it. -/
theorem Since.answered (hidle : b.Idle) (hb : Linked env b) (h : Linked env s)
    (hactions : s.actions = b.actions ++ more) (hreplies : s.replies = b.replies ++ replies)
    {es : List (Ticket × ParsedFrame)} (hsince : Since b.actions more es)
    (horder : (answers replies).map Prod.snd
      = List.range' (requests b.actions).length (answers replies).length)
    {i : Nat} {t : Ticket} {f : ParsedFrame} (hi : es[i]? = some (t, f)) :
    (ledger s.actions).sent[(requests b.actions).length + i]? = some t ∧
      (f, (requests b.actions).length + i) ∈ answers s.replies := by
  have hlt := (List.getElem?_eq_some_iff.mp hi).1
  constructor
  · have hbase : (ledger b.actions).sent.length = (requests b.actions).length := by
      rw [(steps_booked hb.steps).accounted.requests_eq, List.length_map]
    rw [hactions, hsince.sent_eq, ← hbase, List.getElem?_append_right (Nat.le_add_right _ _),
      Nat.add_sub_cancel_left, List.getElem?_append_left (by rw [List.length_map]; exact hlt),
      List.getElem?_map, hi]
    rfl
  · have hdelivered := h.delivered
    rw [hactions, hreplies] at hdelivered
    obtain ⟨rest, hrest⟩ := (hidle.delivered hb hdelivered).filter isReply
    rw [hreplies, answers_append]
    refine List.mem_append_right _ (answers_get (Link.Idle.frames hb h hreplies) horder ?_)
    rw [← hrest, hsince.handled_eq,
      List.getElem?_append_left (by rw [List.length_map]; exact hlt), List.getElem?_map, hi]
    rfl

end ProtoEmb.System
