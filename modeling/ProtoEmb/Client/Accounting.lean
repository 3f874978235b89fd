import ProtoEmb.Client.Ledger

/-!
# Every request is accounted for

`Ledger.Matches` says that the client of `client.rs` has in its queue and pending what its books
say, which are no part of the source. A run
keeps the two together (`Step.booked`), so what holds of the books holds of the client: no
request is lost, sent twice or sent while another is outstanding (`requests_accounted`).
-/

namespace ProtoEmb.Client

open ProtoEmb.Framing

namespace Ledger

variable {l : Ledger} {c : Client}

/-- The client has in its queue and pending what the books say. -/
structure Matches (l : Ledger) (c : Client) : Prop where
  high : c.queue.high = l.high.map Prod.fst
  low : c.queue.low = l.low.map Prod.fst
  pending : c.pending = l.pending.map fun p => p.1.1.sent c.config p.2

/-- A push goes into the queue and into the books in the same way. -/
theorem Matches.push (h : l.Matches c) (msg : QueuedMessage) :
    (l.step (.push msg)).Matches { c with queue := c.queue.push msg } := by
  show Matches { l.push msg with seen := l.seen + 1 } _
  unfold Ledger.push PriorityQueue.push
  cases msg.priority with
  | high =>
    refine ⟨?_, h.low, h.pending⟩
    show _ = (enter l.high (msg, l.next)).map Prod.fst
    rw [enter_map, ← h.high]
  | low =>
    refine ⟨h.high, ?_, h.pending⟩
    show _ = (enter l.low (msg, l.next)).map Prod.fst
    rw [enter_map, ← h.low]

/-- The client pops what the books pop. -/
theorem Matches.pop (h : l.Matches c) {msg : QueuedMessage} {queue : PriorityQueue}
    (hpop : c.queue.pop = some (msg, queue)) :
    ∃ t l', l.pop = some (t, l') ∧ t.1 = msg ∧ queue.high = l'.high.map Prod.fst ∧
      queue.low = l'.low.map Prod.fst := by
  unfold PriorityQueue.pop at hpop
  unfold Ledger.pop
  have hhigh := h.high
  have hlow := h.low
  cases hl : l.high with
  | cons t high =>
    rw [hl, List.map_cons] at hhigh
    simp only [hhigh, Option.some.injEq, Prod.mk.injEq] at hpop
    obtain ⟨rfl, rfl⟩ := hpop
    exact ⟨t, _, rfl, rfl, rfl, hlow⟩
  | nil =>
    rw [hl, List.map_nil] at hhigh
    simp only [hhigh] at hpop
    cases hl' : l.low with
    | cons t low =>
      rw [hl', List.map_cons] at hlow
      simp only [hlow, Option.some.injEq, Prod.mk.injEq] at hpop
      obtain ⟨rfl, rfl⟩ := hpop
      exact ⟨t, _, rfl, rfl, rfl, rfl⟩
    | nil =>
      rw [hl', List.map_nil] at hlow
      simp [hlow] at hpop

end Ledger

/-- What holds along a run: the books match the client and are in order. -/
structure Booked (config : ClientConfig) (pre : List Action) (c : Client) : Prop where
  config_eq : c.config = config
  matched : (ledger pre).Matches c
  accounted : (ledger pre).Accounted config pre

variable {config : ClientConfig} {pre actions : List Action} {c c' : Client} {a : Action}

/-- The books after one action more. -/
theorem ledger_concat (pre : List Action) (a : Action) :
    ledger (pre ++ [a]) = (ledger pre).step a := by
  rw [ledger, List.foldl_append]
  rfl

/-- A frame ends what is pending, in the client and in the books, or neither. -/
theorem Booked.frame (h : Booked config pre c) {f : ParsedFrame} {event : Event}
    (hf : c.handleFrame f = some (c', event)) : Booked config (pre ++ [.frame f event]) c' := by
  obtain ⟨hc', hevent⟩ := handleFrame_spec hf
  have hpend := h.matched.pending
  refine ⟨by rw [hc']; exact h.config_eq, ?_, ?_⟩
  · rw [ledger_concat, hc']
    unfold Ledger.step Ledger.enact
    -- a frame without a request on its way changes nothing
    cases hp : (ledger pre).pending with
    | none =>
      rw [hp] at hpend
      refine ⟨h.matched.high, h.matched.low, ?_⟩
      show c.pendingAfter f = Option.map _ (ledger pre).pending
      rw [pendingAfter_none hpend, hp]
      rfl
    | some p =>
      rw [hp] at hpend
      simp only
      split
      next hends =>
        refine ⟨h.matched.high, h.matched.low, ?_⟩
        exact pendingAfter_ends hpend hends
      next hkeeps =>
        refine ⟨h.matched.high, h.matched.low, ?_⟩
        show c.pendingAfter f = Option.map _ (ledger pre).pending
        rw [pendingAfter_keeps hpend (Bool.eq_false_iff.mpr hkeeps), hp, hpend]
  · have hacc := h.accounted
    rw [ledger_concat]
    unfold Ledger.step Ledger.enact
    cases hp : (ledger pre).pending with
    | none => exact hacc.same rfl rfl
    | some p =>
      rw [hp] at hpend
      simp only
      split
      next hends =>
        refine hacc.settlePending hp rfl rfl ⟨?_, hends⟩
        -- the frame is in the trace, under the number the ledger has counted to
        obtain rfl | ⟨q, m, hq, hkeeps, _⟩ := hevent
        · rw [hacc.seen_eq]
          exact List.getElem?_concat_length
        · -- an error is reported only if the pending request goes on
          rw [hpend] at hq
          cases hq
          exact absurd hends (Bool.eq_false_iff.mp hkeeps)
      next => exact hacc.same rfl rfl

/-- What has waited for too long is given up in both. -/
theorem Booked.expire (h : Booked config pre c) {p : PendingRequest} {now : Nat}
    (hp : c.pending = some p) (hlate : p.timeout ≤ now - p.sentAt) :
    Booked config (pre ++ [.expire now p.frame]) { c with pending := none } := by
  have hpend := h.matched.pending
  rw [hp] at hpend
  obtain ⟨⟨t, sentAt⟩, hl, rfl⟩ := Option.map_eq_some_iff.mp hpend.symm
  have hstep : (ledger pre).step (.expire now t.1.frame)
      = { Ledger.settle { ledger pre with pending := none } t (.timedOut sentAt now) with
            seen := (ledger pre).seen + 1 } := by
    unfold Ledger.step Ledger.enact
    rw [hl]
  refine ⟨h.config_eq, ?_, ?_⟩
  · rw [ledger_concat]
    show ((ledger pre).step (.expire now t.1.frame)).Matches _
    rw [hstep]
    exact ⟨h.matched.high, h.matched.low, rfl⟩
  · have hacc := h.accounted
    obtain ⟨sent, hsent⟩ := hacc.pending t sentAt hl
    have hlt := (List.getElem?_eq_some_iff.mp hsent).1
    rw [ledger_concat]
    show Ledger.Accounted config _ ((ledger pre).step (.expire now t.1.frame))
    rw [hstep]
    refine hacc.settlePending hl rfl rfl ⟨?_, ⟨sent, ?_, ?_⟩, ?_⟩
    · rw [hacc.seen_eq]
      exact List.getElem?_concat_length
    · rw [hacc.seen_eq]
      exact hlt
    · rw [List.getElem?_append_left hlt, hsent]
    · have hlate' : t.1.responseTimeout.getD c.config.responseTimeout ≤ now - sentAt := hlate
      rwa [h.config_eq] at hlate'

/-- The message that is popped is the ticket that is popped, and a failed write drops both. -/
theorem Booked.write (h : Booked config pre c) {msg : QueuedMessage} {queue : PriorityQueue}
    (now : Nat) (error : Option String) (hp : c.pending = none)
    (hpop : c.queue.pop = some (msg, queue)) :
    Booked config (pre ++ [.write msg.frame now error])
      { c with queue, pending := if error = none then some (msg.sent c.config now) else none } := by
  have hnone : (ledger pre).pending = none := by
    have hpend := h.matched.pending
    rw [hp] at hpend
    exact Option.map_eq_none_iff.mp hpend.symm
  obtain ⟨t, l', hl, rfl, hhigh, hlow⟩ := h.matched.pop hpop
  refine ⟨h.config_eq, ?_, ?_⟩
  · rw [ledger_concat]
    unfold Ledger.step Ledger.enact
    simp only [hl]
    obtain ⟨hl', _⟩ := Ledger.pop_spec hl
    cases error with
    | none => exact ⟨hhigh, hlow, rfl⟩
    | some e =>
      refine ⟨hhigh, hlow, ?_⟩
      show none = Option.map _ l'.pending
      rw [hl', hnone]
      rfl
  · rw [ledger_concat]
    exact h.accounted.write hnone hl now error

/-- **One step.** -/
theorem Step.booked (h : Booked config pre c) (hstep : Step c actions c') :
    Booked config (pre ++ actions) c' := by
  have hsame : ∀ a, (ledger pre).enact a = ledger pre → pushes [a] = [] → requests [a] = [] →
      ∀ c₁ : Client, (ledger pre).Matches c₁ → c₁.config = config →
        Booked config (pre ++ [a]) c₁ := by
    intro a hnone hpush hsent c₁ hm hconfig
    have hstep : (ledger pre).step a = { ledger pre with seen := (ledger pre).seen + 1 } := by
      rw [Ledger.step, hnone]
    refine ⟨hconfig, ?_, ?_⟩
    · rw [ledger_concat, hstep]
      exact ⟨hm.high, hm.low, hm.pending⟩
    · rw [ledger_concat, hstep]
      exact h.accounted.same hpush hsent
  have hm := h.matched
  cases hstep with
  | parse | schedule =>
    rw [List.append_nil]
    exact ⟨h.config_eq, ⟨hm.high, hm.low, hm.pending⟩, h.accounted⟩
  | frame hf => exact h.frame hf
  | expire hp hlate => exact h.expire hp hlate
  | push msg =>
    refine ⟨h.config_eq, ?_, ?_⟩
    · rw [ledger_concat]
      exact hm.push msg
    · rw [ledger_concat]
      exact h.accounted.push msg
  | clear =>
    refine ⟨h.config_eq, ?_, ?_⟩
    · rw [ledger_concat]
      exact ⟨rfl, rfl, hm.pending⟩
    · rw [ledger_concat]
      exact h.accounted.clear
  | write now error hp hpop => exact h.write now error hp hpop
  | readError error => exact hsame (.readError error) rfl rfl rfl c hm h.config_eq
  | register hreg =>
    exact hsame (.register _ _) rfl rfl rfl _ ⟨hm.high, hm.low, hm.pending⟩ h.config_eq
  | clearAll => exact hsame .clearAll rfl rfl rfl _ ⟨hm.high, hm.low, hm.pending⟩ h.config_eq

theorem booked_withConfig (config : ClientConfig) : Booked config [] (withConfig config) where
  config_eq := rfl
  matched := ⟨rfl, rfl, rfl⟩
  accounted := ⟨rfl, rfl, .nil, nofun, nofun, nofun, nofun, rfl, nofun⟩

/-- Steps keep the two together, from a new client on. -/
theorem steps_booked (h : Steps (withConfig config) actions c) : Booked config actions c :=
  Steps.invariant (Booked config) Step.booked h (booked_withConfig config)

/-- So do calls. -/
theorem run_booked {lastInstant : Nat} {ops : List Call}
    (hrun : (withConfig config).run lastInstant ops = some (c, actions)) :
    Booked config actions c :=
  steps_booked (run_steps hrun)

/-! ## The clock readings of a run -/

/-- The clock readings that the calls make. -/
def instants (ops : List Call) : List Nat :=
  ops.flatMap fun
    | .poll io => [io.checkAt, io.enqueueAt, io.sentAt]
    | _ => []

theorem times_append (pre more : List Action) : times (pre ++ more) = times pre ++ times more :=
  List.filterMap_append

/-- What a read does has no time of its own. -/
theorem readLoop_untimed {reads : List ReadResult} (h : c.readLoop reads = some (c', actions)) :
    ∀ a ∈ actions, a.time? = none := by
  intro a ha
  obtain ⟨f, event, rfl⟩ | ⟨error, rfl⟩ := (readLoop_spec h).2 a ha <;> rfl

/-- Neither have the reads that are due. -/
theorem enqueueEntries_untimed {lastInstant now : Nat} {entries entries' : List PeriodicEntry}
    {queue queue' : PriorityQueue}
    (h : enqueueEntries lastInstant now entries queue = some (entries', queue', actions)) :
    ∀ a ∈ actions, a.time? = none := by
  rw [enqueueEntries_actions h]
  intro a ha
  obtain ⟨entry, _, rfl⟩ := List.mem_map.mp ha
  rfl

/-- A check of the timeout gives up one request or does nothing. -/
theorem checkTimeout_actions (c : Client) (now : Nat) :
    (c.checkTimeout now).2 = [] ∨ ∃ frame, (c.checkTimeout now).2 = [.expire now frame] := by
  unfold checkTimeout
  split
  · split
    · exact .inr ⟨_, rfl⟩
    · exact .inl rfl
  · exact .inl rfl

/-- What a flush does. -/
theorem tryFlush_cases (c : Client) (now : Nat) (error : Option String) :
    ((c.tryFlush now error).2 = [] ∧ (c.tryFlush now error).1 = c ∧
      (c.pending.isSome ∨ c.queue = .new)) ∨
    ∃ msg, (c.tryFlush now error).2 = [.write msg now error] ∧
      (error = none → (c.tryFlush now error).1.pending.isSome) := by
  unfold tryFlush
  cases hp : c.pending with
  | some p => exact .inl ⟨rfl, rfl, .inl rfl⟩
  | none =>
    cases hpop : c.queue.pop with
    | none => exact .inl ⟨rfl, rfl, .inr (PriorityQueue.pop_eq_none hpop)⟩
    | some p =>
      obtain ⟨msg, queue⟩ := p
      cases error with
      | none => exact .inr ⟨_, rfl, fun _ => rfl⟩
      | some e => exact .inr ⟨_, rfl, nofun⟩

/-- The parts of a poll. -/
theorem poll_cases {lastInstant : Nat} {io : PollInput}
    (h : c.poll lastInstant io = some (c', actions)) :
    ∃ (c₁ : Client) (received expired pushed : List Action),
      (∀ a ∈ received ++ pushed, a.time? = none) ∧
      (expired = [] ∨ ∃ frame, expired = [.expire io.checkAt frame]) ∧
      c' = (c₁.tryFlush io.sentAt io.writeError).1 ∧
      actions = received ++ expired ++ pushed ++ (c₁.tryFlush io.sentAt io.writeError).2 := by
  simp only [poll, Option.bind_eq_bind, Option.bind_eq_some_iff, Option.pure_def,
    Option.some.injEq, Prod.mk.injEq] at h
  obtain ⟨⟨c₀, received⟩, hread, ⟨c₁, pushed⟩, henq, rfl, rfl⟩ := h
  simp only [enqueuePeriodicAt, Option.bind_eq_bind, Option.bind_eq_some_iff, Option.pure_def,
    Option.some.injEq, Prod.mk.injEq] at henq
  obtain ⟨⟨periodic, queue, pushed'⟩, hentries, rfl, rfl⟩ := henq
  exact ⟨_, received, _, _, List.forall_mem_append.mpr ⟨readLoop_untimed hread,
    enqueueEntries_untimed hentries⟩, checkTimeout_actions c₀ io.checkAt, rfl, rfl⟩

theorem times_untimed (h : ∀ a ∈ actions, a.time? = none) : times actions = [] :=
  List.filterMap_eq_nil_iff.mpr h

/-- A poll looks at the clock at most three times, in this order. -/
theorem poll_times {lastInstant : Nat} {io : PollInput}
    (h : c.poll lastInstant io = some (c', actions)) :
    (times actions).Sublist [io.checkAt, io.enqueueAt, io.sentAt] := by
  obtain ⟨c₁, received, expired, pushed, huntimed, hexpired, _, rfl⟩ := poll_cases h
  obtain ⟨hreceived, hpushed⟩ := List.forall_mem_append.mp huntimed
  rw [times_append, times_append, times_append, times_untimed hreceived, times_untimed hpushed,
    List.nil_append, List.append_nil]
  have hexp : (times expired).Sublist [io.checkAt] := by
    obtain rfl | ⟨frame, rfl⟩ := hexpired
    · exact List.nil_sublist _
    · exact List.Sublist.refl _
  have hsent :
      (times (c₁.tryFlush io.sentAt io.writeError).2).Sublist [io.enqueueAt, io.sentAt] := by
    obtain ⟨hnone, _⟩ | ⟨msg, hone, _⟩ := tryFlush_cases c₁ io.sentAt io.writeError
    · rw [hnone]
      exact List.nil_sublist _
    · rw [hone]
      exact List.sublist_cons_self _ _
  exact hexp.append hsent

/-- The clock readings in the actions are among those of the calls, in order. -/
theorem run_times {lastInstant : Nat} :
    ∀ {ops : List Call} {c c' : Client} {actions : List Action},
      c.run lastInstant ops = some (c', actions) → (times actions).Sublist (instants ops) := by
  intro ops
  induction ops with
  | nil =>
    intro c c' actions h
    cases h
    exact List.nil_sublist _
  | cons op ops ih =>
    intro c c' actions h
    simp only [run, Option.bind_eq_bind, Option.bind_eq_some_iff, Option.pure_def,
      Option.some.injEq, Prod.mk.injEq] at h
    obtain ⟨⟨c₁, done⟩, hcall, ⟨c₂, more⟩, hrest, rfl, rfl⟩ := h
    rw [times_append]
    refine List.Sublist.append ?_ (ih hrest)
    cases op with
    | poll io => exact poll_times hcall
    | read | write | query | unregisterPeriodic | clearQueue | clearStore =>
      cases hcall
      exact List.nil_sublist _
    | registerPeriodic | registerStore =>
      simp only [call, Option.bind_eq_bind, Option.bind_eq_some_iff, Option.pure_def,
        Option.some.injEq, Prod.mk.injEq] at hcall
      obtain ⟨_, _, _, rfl⟩ := hcall
      exact List.nil_sublist _

/-- A poll writes once at most, and then something is pending, or nothing waits, or the write
failed. -/
theorem poll_flushes {lastInstant : Nat} {io : PollInput}
    (h : c.poll lastInstant io = some (c', actions)) :
    (actions.filter Action.isWrite).length ≤ 1 ∧
      (c'.pending.isSome ∨ (c'.queue = .new ∧ ∀ a ∈ actions, a.isWrite = false) ∨
        ∃ e, Event.error ("Transport write error: " ++ e) ∈ actions.filterMap Action.event?) := by
  obtain ⟨c₁, received, expired, pushed, huntimed, hexpired, rfl, rfl⟩ := poll_cases h
  have hquiet : ∀ a ∈ received ++ expired ++ pushed, a.isWrite = false := by
    obtain ⟨hreceived, hpushed⟩ := List.forall_mem_append.mp huntimed
    have hmute : ∀ a : Action, a.time? = none → a.isWrite = false := by
      intro a ha
      cases a <;> first | rfl | cases ha
    refine List.forall_mem_append.mpr ⟨List.forall_mem_append.mpr
      ⟨fun a ha => hmute a (hreceived a ha), ?_⟩, fun a ha => hmute a (hpushed a ha)⟩
    obtain rfl | ⟨frame, rfl⟩ := hexpired
    · exact nofun
    · exact List.forall_mem_singleton.mpr rfl
  have hfilter : (received ++ expired ++ pushed).filter Action.isWrite = [] :=
    List.filter_eq_nil_iff.mpr fun a ha => by rw [hquiet a ha]; exact Bool.false_ne_true
  rw [List.filter_append, hfilter, List.nil_append]
  obtain ⟨hnone, hsame, hidle⟩ | ⟨msg, hone, hpend⟩ :=
    tryFlush_cases c₁ io.sentAt io.writeError
  · rw [hnone, hsame, List.append_nil]
    exact ⟨Nat.zero_le _, hidle.imp_right fun hempty => .inl ⟨hempty, hquiet⟩⟩
  · rw [hone]
    refine ⟨Nat.le_refl _, ?_⟩
    cases herr : io.writeError with
    | none => exact .inl (herr ▸ hpend herr)
    | some e =>
      refine .inr (.inr ⟨e, ?_⟩)
      rw [List.filterMap_append, List.mem_append]
      exact .inr (List.mem_singleton.mpr rfl)

/-- With a clock that does not go back, a request times out no earlier than its own timeout
after it was sent. -/
theorem timedOut_late (h : (ledger actions).Accounted config actions)
    (hclock : (times actions).Pairwise (· ≤ ·)) {s : Settled} (hs : s ∈ (ledger actions).settled)
    {sentAt now : Nat} (hfate : s.fate = .timedOut sentAt now) :
    sentAt + s.ticket.1.responseTimeout.getD config.responseTimeout ≤ now := by
  have hwhy := h.settled s hs
  rw [hfate] at hwhy
  obtain ⟨hat, ⟨sent, hlt, hsent⟩, hlate⟩ := hwhy
  rw [times, List.pairwise_filterMap, List.pairwise_iff_getElem] at hclock
  obtain ⟨hi, hwrite⟩ := List.getElem?_eq_some_iff.mp hsent
  obtain ⟨hj, hexpire⟩ := List.getElem?_eq_some_iff.mp hat
  have hle : sentAt ≤ now :=
    hclock sent s.after hi hj hlt sentAt (by rw [hwrite]; rfl) now (by rw [hexpire]; rfl)
  omega

/-- **Every request is accounted for.** For any calls, any transport and a clock that does not
go back: the client's queue and pending request are those of its books; at every moment the
books are in order, so each message pushed waits, is pending, or has met one fate for the
reason `Fate.Justified` gives, and the bytes written are the frames sent, in the order they
left the queue; a request times out no earlier than its timeout after it was sent; nothing is
written while something is pending; and a poll writes at most once and leaves something
pending, or nothing waiting, or reports that the write failed. -/
theorem requests_accounted {lastInstant : Nat} {ops : List Call}
    (hrun : (withConfig config).run lastInstant ops = some (c, actions))
    (hclock : (instants ops).Pairwise (· ≤ ·)) :
    (ledger actions).Matches c ∧
    (∀ pre post, actions = pre ++ post → (ledger pre).Accounted config pre ∧
      written pre = (ledger pre).sent.flatMap fun t => t.1.frame) ∧
    (∀ s ∈ (ledger actions).settled, ∀ sentAt now, s.fate = .timedOut sentAt now →
      sentAt + s.ticket.1.responseTimeout.getD config.responseTimeout ≤ now) ∧
    (∀ pre post bytes now error, actions = pre ++ .write bytes now error :: post →
      (ledger pre).pending = none) ∧
    (∀ (c₁ c₂ : Client) (io : PollInput) (done : List Action),
      c₁.poll lastInstant io = some (c₂, done) →
      (done.filter Action.isWrite).length ≤ 1 ∧
        (c₂.pending.isSome ∨ (c₂.queue = .new ∧ ∀ a ∈ done, a.isWrite = false) ∨
          ∃ e, Event.error ("Transport write error: " ++ e) ∈ done.filterMap Action.event?)) := by
  refine ⟨(run_booked hrun).matched, fun pre post hcut => ?_, fun s hs sentAt now hfate => ?_,
    fun pre post bytes now error hcut => ?_, fun c₁ c₂ io done hpoll => poll_flushes hpoll⟩
  · have hacc : (ledger pre).Accounted config pre := by
      subst hcut
      obtain ⟨c₁, hpre⟩ := (run_steps hrun).initial
      exact (steps_booked hpre).accounted
    refine ⟨hacc, ?_⟩
    rw [written, hacc.requests_eq, List.flatMap]
  · exact timedOut_late (run_booked hrun).accounted (hclock.sublist (run_times hrun)) hs hfate
  · obtain ⟨c₁, c₂, hpre, hstep, _⟩ := (run_steps hrun).split hcut
    have hpend := (steps_booked hpre).matched.pending
    cases hstep with
    | write _ _ hp _ =>
      rw [hp] at hpend
      exact Option.map_eq_none_iff.mp hpend.symm

/-- A read is replaced, a write times out, the read that is left cannot be written, and a
query is cleared. -/
def troubled : List Call :=
  [.read 1 .low (some "a"), .read 2 .low (some "a"), .write 3 [9], .poll ⟨[], 1, 1, 2, none⟩,
    .poll ⟨[], 200, 200, 201, some "closed"⟩, .query 4 [], .clearQueue]

/-- A run with each of the fates but an answer. -/
theorem requests_accounted_troubled :
    ∃ c actions, (withConfig ⟨100⟩).run 1000 troubled = some (c, actions) ∧
      (ledger actions).settled.map Settled.fate
        = [.replaced 1, .timedOut 2 200, .dropped "closed", .cleared] ∧
      (ledger actions).Accounted ⟨100⟩ actions := by
  have hrun : ((withConfig ⟨100⟩).run 1000 troubled).map
      (fun r => (ledger r.2).settled.map Settled.fate)
        = some [.replaced 1, .timedOut 2 200, .dropped "closed", .cleared] := by
    decide +kernel
  obtain ⟨⟨c, actions⟩, hc, hfates⟩ := Option.map_eq_some_iff.mp hrun
  exact ⟨c, actions, hc, hfates,
    ((requests_accounted hc (by decide)).2.1 actions [] (List.append_nil _).symm).1⟩

end ProtoEmb.Client
