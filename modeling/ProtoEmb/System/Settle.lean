import ProtoEmb.System.Browser

/-!
# Every request ends

`loop_returns` says what a request that has ended was ended with. Here requests do end. In a
round everything on the line reaches the device and then a poll reads everything on the wire,
whatever the other clock readings are: the answer to the request on its way is read before the
poll looks at its timeout, and the next request is written.

So each round makes the backlog smaller, the requests in the queue and the registrations that
are due (`Ready.round`), and `Rounds.settle` does the rest: after more rounds than the backlog
counts, nothing is on its way any more (`loop_settles`).
-/

namespace ProtoEmb.System

open ProtoEmb.Lib ProtoEmb.Framing ProtoEmb.Schema ProtoEmb.Client ProtoEmb.Device

variable {cfg : RuntimeConfig} {σ : Type} {fw : Firmware cfg σ} {env : Setup} {s s' : Loop cfg σ}
  {config : ClientConfig} {lastInstant now : Nat} {base : List Client.Action}

/-! ## A round -/

/-- A round, with the schedule of the client polled at `now`. -/
def Round (fw : Firmware cfg σ) (env : Setup) (now : Nat) (s s' : Loop cfg σ) : Prop :=
  ∃ (stamps : List UInt32) (io : PollInput) (s₁ : Loop cfg σ),
    stamps.length = s.line.length ∧
    Machine.run (Loop.step fw env) s (stamps.map .deliver) = some s₁ ∧
    bytesRead io.reads = s₁.wire ∧ (∀ e, .error e ∉ io.reads) ∧ io.enqueueAt = now ∧
    s₁.step fw env (.call (.poll io)) = some s'

/-- Nothing is on its way, and nothing waits for it. -/
structure Settled (s : Loop cfg σ) : Prop where
  pending : s.client.pending = none
  queue : s.client.queue = .new
  line : s.line = []
  wire : s.wire = []

def queued (q : PriorityQueue) : Nat := q.high.length + q.low.length

/-- The requests in the queue and the registrations that are due. -/
def backlog (now : Nat) (c : ProtoEmb.Client) : Nat :=
  queued c.queue + (c.periodic.filter (·.due now)).length

/-- A round is a run of the loop. -/
theorem Round.run (h : Round fw env now s s') :
    ∃ events, Machine.run (Loop.step fw env) s events = some s' := by
  obtain ⟨stamps, io, s₁, -, hrun, -, -, -, hpoll⟩ := h
  refine ⟨stamps.map .deliver ++ [.call (.poll io)], ?_⟩
  rw [Machine.run_append, hrun, Option.bind_some, Machine.run_cons, hpoll]
  rfl

/-- What is on the line can be delivered. -/
theorem run_deliver :
    ∀ {stamps : List UInt32} {s : Loop cfg σ}, stamps.length = s.line.length →
      ∃ s₁, Machine.run (Loop.step fw env) s (stamps.map .deliver) = some s₁ ∧ s₁.line = [] ∧
        s₁.client = s.client ∧ s₁.actions = s.actions := by
  intro stamps
  induction stamps with
  | nil =>
    intro s hlen
    exact ⟨s, rfl, List.eq_nil_of_length_eq_zero hlen.symm, rfl, rfl⟩
  | cons stamp stamps ih =>
    intro s hlen
    cases hline : s.line with
    | nil =>
      rw [hline] at hlen
      cases hlen
    | cons b line =>
      rw [hline] at hlen
      obtain ⟨s₂, hs₂, hline₂, hclient₂, hactions₂⟩ :
          ∃ s₂, s.step fw env (.deliver stamp) = some s₂ ∧ s₂.line = line ∧
            s₂.client = s.client ∧ s₂.actions = s.actions := by
        simp only [Loop.step, hline]
        exact ⟨_, rfl, rfl, rfl, rfl⟩
      obtain ⟨s₁, hrun, hnil, hclient, hactions⟩ := @ih s₂ (by
        rw [hline₂]
        exact Nat.succ.inj hlen)
      refine ⟨s₁, ?_, hnil, hclient.trans hclient₂, hactions.trans hactions₂⟩
      rw [List.map_cons, Machine.run_cons, hs₂]
      exact hrun

/-! ## The reads of a round -/

/-- With nothing on the line, as many requests were executed as were written. -/
theorem Closed.served_length (h : Closed fw config lastInstant s) (hmax : cfg.maxPayload ≤ 65535)
    (hline : s.line = []) : s.served.length = (requests s.actions).length := by
  have heq := congrArg List.length (h.heard.executed_all hmax hline)
  rw [List.length_map, List.length_map] at heq
  exact heq

/-- Every request that was dispatched has been answered. -/
theorem Follows.answers_all {link : Link} (h : Follows fw s link) {i : Nat}
    (hi : i < s.served.length) : ∃ r ∈ link.replies, r.origin = some i := by
  have hmem : (fw.answer s.served[i].1 s.served[i].2, i) ∈ answers link.replies := by
    rw [h.answered, List.mem_zipIdx_iff_getElem?, List.getElem?_map,
      List.getElem?_eq_getElem hi]
    rfl
  exact ⟨_, mem_answers.mp hmem, rfl⟩

/-- The link in the middle of a poll: the device has been fed all that was written, and the client
has read all that was sent. -/
theorem Closed.read (h : Closed fw config lastInstant s) (hmax : cfg.maxPayload ≤ 65535)
    (hpolite : Polite fw s) (hline : s.line = [])
    {reads : List ReadResult} (hok : ∀ e, .error e ∉ reads) (hwire : bytesRead reads = s.wire)
    {c : ProtoEmb.Client} {received : List Client.Action}
    (hread : s.client.readLoop reads = some (c, received)) :
    ∃ link, Linked (setup fw config lastInstant) link ∧ Follows fw s link ∧
      Linked (setup fw config lastInstant) (link.read c received) ∧
        (link.read c received).Idle := by
  obtain ⟨moves, link, hlink, hfollows⟩ := h.follows hpolite
  have hawaited := run_awaited (run_link.trans hlink)
  have hmid : Awaited (setup fw config lastInstant) (link.read c received) :=
    hawaited.read hok (hwire.trans hfollows.wire.symm) (hfollows.client ▸ hread)
  refine ⟨link, hawaited.linked, hfollows, hmid.linked, hmid.idle rfl fun i hi => ?_⟩
  -- all that was written has been answered
  refine hfollows.answers_all ?_
  rw [h.served_length hmax hline, ← hfollows.actions]
  rwa [Link.read, Ledger.requests_append,
    (frames_smooth (readLoop_frames hok hread)).2.2, List.append_nil] at hi

/-- **The answer is there**: then no request is pending. -/
theorem Closed.read_all (h : Closed fw config lastInstant s) (hmax : cfg.maxPayload ≤ 65535)
    (hpolite : Polite fw s) (hline : s.line = [])
    {reads : List ReadResult} (hok : ∀ e, .error e ∉ reads) (hwire : bytesRead reads = s.wire)
    {c : ProtoEmb.Client} {received : List Client.Action}
    (hread : s.client.readLoop reads = some (c, received)) : c.pending = none := by
  obtain ⟨link, -, -, hlinked, hidle⟩ := h.read hmax hpolite hline hok hwire hread
  have hpending := (steps_booked hlinked.steps).matched.pending
  rw [hidle.pending] at hpending
  exact hpending

/-! ## The backlog -/

theorem pushLevel_length (queue : List QueuedMessage) (msg : QueuedMessage) :
    (PriorityQueue.pushLevel queue msg).length ≤ queue.length + 1 := by
  unfold PriorityQueue.pushLevel
  split
  · split
    · rw [List.length_set]
      omega
    · rw [List.length_append, List.length_singleton]
  · rw [List.length_append, List.length_singleton]

theorem queued_push (q : PriorityQueue) (msg : QueuedMessage) :
    queued (q.push msg) ≤ queued q + 1 := by
  unfold queued PriorityQueue.push
  cases msg.priority with
  | high =>
    have hle := pushLevel_length q.high msg
    simp only
    omega
  | low =>
    have hle := pushLevel_length q.low msg
    simp only
    omega

/-- Each read that is due takes at most one place in the queue. -/
theorem queued_enqueue :
    ∀ {entries entries' : List PeriodicEntry} {q q' : PriorityQueue}
      {actions : List Client.Action},
      enqueueEntries lastInstant now entries q = some (entries', q', actions) →
      queued q' ≤ queued q + (entries.filter (·.due now)).length := by
  intro entries
  induction entries with
  | nil =>
    intro entries' q q' actions h
    cases h
    exact Nat.le_refl _
  | cons entry entries ih =>
    intro entries' q q' actions h
    unfold enqueueEntries at h
    split at h
    next hdue =>
      simp only [Option.bind_eq_bind, Option.bind_eq_some_iff, Option.pure_def,
        Option.some.injEq, Prod.mk.injEq] at h
      obtain ⟨_, _, ⟨_, _, more⟩, hrest, _, rfl, _⟩ := h
      rw [List.filter_cons, if_pos hdue, List.length_cons]
      exact Nat.le_trans (ih hrest) (by have := queued_push q entry.message; omega)
    next hearly =>
      simp only [Option.bind_eq_bind, Option.bind_eq_some_iff, Option.pure_def,
        Option.some.injEq, Prod.mk.injEq] at h
      obtain ⟨⟨_, _, more⟩, hrest, _, rfl, _⟩ := h
      rw [List.filter_cons, if_neg hearly]
      exact ih hrest

theorem queued_pop {q q' : PriorityQueue} {msg : QueuedMessage} (h : q.pop = some (msg, q')) :
    queued q' + 1 = queued q := by
  unfold queued
  unfold PriorityQueue.pop at h
  split at h
  next m high hq =>
    cases h
    rw [hq, List.length_cons]
    exact Nat.add_right_comm _ _ _
  next hq =>
    split at h
    next m low hq' =>
      cases h
      rw [hq, hq', List.length_cons]
      rfl
    next => cases h

/-- After `enqueue_periodic_at(now)` nothing is due at `now`. -/
theorem tick_not_due {entry : PeriodicEntry} (h : 0 < entry.interval) :
    (entry.tick now).due now = false := by
  have hlt := Grid.now_lt_due h entry.nextDue now
  rw [Grid.poll_now] at hlt
  simp only [PeriodicEntry.due, PeriodicEntry.tick, PeriodicEntry.poll, ge_iff_le,
    decide_eq_false_iff_not, Nat.not_le]
  exact hlt

/-- What holds before and after each round; `base` is what was done before the first. -/
structure Ready (fw : Firmware cfg σ) (config : ClientConfig) (lastInstant now : Nat)
    (base : List Client.Action) (s : Loop cfg σ) : Prop where
  closed : Closed fw config lastInstant s
  calm : ∃ more, s.actions = base ++ more ∧ ∀ a ∈ more, smooth a = true
  room : ∀ entry ∈ s.client.periodic,
    0 < entry.interval ∧ now + entry.interval ≤ lastInstant

theorem enqueue_backlog {c c' : ProtoEmb.Client} {pushed : List Client.Action}
    (h : c.enqueuePeriodicAt lastInstant now = some (c', pushed)) :
    c'.pending = c.pending ∧ queued c'.queue ≤ backlog now c ∧
      ∀ a ∈ pushed, smooth a = true ∧ a.isWrite = false := by
  simp only [enqueuePeriodicAt, Option.bind_eq_bind, Option.bind_eq_some_iff, Option.pure_def,
    Option.some.injEq, Prod.mk.injEq] at h
  obtain ⟨⟨periodic, queue, actions⟩, hentries, rfl, rfl⟩ := h
  refine ⟨rfl, queued_enqueue hentries, ?_⟩
  rw [enqueueEntries_actions hentries]
  exact List.forall_mem_map.mpr fun _ _ => ⟨rfl, rfl⟩

theorem tryFlush_idle {c : ProtoEmb.Client} (hp : c.pending = none) (sentAt : Nat) :
    (c.tryFlush sentAt none = (c, []) ∧ c.queue = .new) ∨
      ∃ msg queue, c.queue.pop = some (msg, queue) ∧
        c.tryFlush sentAt none = ({ c with queue, pending := some (msg.sent c.config sentAt) },
          [.write msg.frame sentAt none]) := by
  unfold tryFlush
  rw [hp]
  cases hpop : c.queue.pop with
  | none => exact .inl ⟨rfl, PriorityQueue.pop_eq_none hpop⟩
  | some r => exact .inr ⟨r.1, r.2, rfl, rfl⟩

/-- A poll that has nothing to wait for pushes what is due, and writes a request if there is
one. -/
theorem poll_idle {c c₁ c' : ProtoEmb.Client} {io : PollInput}
    {received actions : List Client.Action} (hread : c.readLoop io.reads = some (c₁, received))
    (hidle : c₁.pending = none) (herror : io.writeError = none)
    (hpos : ∀ entry ∈ c.periodic, 0 < entry.interval)
    (h : c.poll lastInstant io = some (c', actions)) :
    ∃ more, actions = received ++ more ∧ (∀ a ∈ more, smooth a = true) ∧
      c'.periodic = c.periodic.map (·.tick io.enqueueAt) ∧
      (backlog io.enqueueAt c' < backlog io.enqueueAt c ∨
        backlog io.enqueueAt c' = 0 ∧ c'.pending = none ∧ c'.queue = .new ∧ written more = []) := by
  have hperiodic := (poll_schedule h).1
  have hbacklog : backlog io.enqueueAt c' = queued c'.queue := by
    have hnone : c'.periodic.filter (·.due io.enqueueAt) = [] := by
      rw [hperiodic, List.filter_eq_nil_iff]
      intro entry hentry
      obtain ⟨before, hbefore, rfl⟩ := List.mem_map.mp hentry
      rw [tick_not_due (hpos before hbefore)]
      exact Bool.false_ne_true
    rw [backlog, hnone]
    rfl
  -- nothing times out
  have htimeout : c₁.checkTimeout io.checkAt = (c₁, []) := by
    unfold checkTimeout
    rw [hidle]
  simp only [poll, hread, htimeout, herror, Option.bind_eq_bind, Option.bind_some,
    Option.bind_eq_some_iff, Option.pure_def, Option.some.injEq, Prod.mk.injEq] at h
  obtain ⟨⟨c₂, pushed⟩, henq, hc', rfl⟩ := h
  obtain ⟨hsame, -⟩ := readLoop_spec hread
  have hbefore : backlog io.enqueueAt c₁ = backlog io.enqueueAt c := by rw [hsame]; rfl
  obtain ⟨hpending, hlen, hpushed⟩ := enqueue_backlog henq
  rw [hbefore] at hlen
  have hsmooth : ∀ a ∈ pushed, smooth a = true := fun a ha => (hpushed a ha).1
  have hquiet := written_quiet fun a ha => (hpushed a ha).2
  refine ⟨pushed ++ (c₂.tryFlush io.sentAt none).2, by
    rw [List.append_nil, List.append_assoc], ?_, hperiodic, ?_⟩
  all_goals
    rcases tryFlush_idle (hpending.trans hidle) io.sentAt with
      ⟨hflush, hnew⟩ | ⟨msg, queue, hpop, hflush⟩
  · rw [hflush, List.append_nil]
    exact hsmooth
  · rw [hflush]
    exact List.forall_mem_append.mpr ⟨hsmooth, by simp [smooth]⟩
  · rw [hbacklog, ← hc', hflush, hnew, List.append_nil]
    exact .inr ⟨rfl, hpending.trans hidle, rfl, hquiet⟩
  · have hshort := queued_pop hpop
    rw [hbacklog, ← hc', hflush]
    exact .inl (Nat.lt_of_lt_of_le (by simp only; omega) hlen)

/-! ## Rounds -/

theorem Ready.store (h : Ready fw config lastInstant now base s) :
    s.client.store.Mirrors (logs s.actions) := by
  have hstart : (withConfig config).store.Mirrors (logs []) := mirrors_withConfig config
  exact Steps.invariant (fun pre c => c.store.Mirrors (logs pre)) Step.mirrors
    h.closed.heard.steps hstart

/-- Whatever is on the line, whatever has been sent: a round is possible. -/
theorem Ready.next (h : Ready fw config lastInstant now base s) :
    ∃ s', Round fw (setup fw config lastInstant) now s s' := by
  obtain ⟨s₁, hrun, -, hclient, hactions⟩ := @run_deliver _ _ fw (setup fw config lastInstant)
    (List.replicate s.line.length 0) s List.length_replicate
  obtain ⟨reads, hbytes, hok, hreads⟩ := readMemory_reads s₁.wire
  -- reading does not panic, and neither does the schedule
  obtain ⟨c₁, received, hread⟩ : ∃ c₁ received, s₁.client.readLoop reads = some (c₁, received) := by
    obtain ⟨c₁, received, hframes⟩ := @handleFrames_isSome
      (s₁.client.parser.feedBytes s₁.wire).2
      { s₁.client with parser := (s₁.client.parser.feedBytes s₁.wire).1 } s.actions
      (by rw [hclient]; exact h.store)
    exact ⟨c₁, received, by rw [hreads s₁.client [], readMemory_eq, hframes]; rfl⟩
  have hperiodic : (c₁.checkTimeout now).1.periodic = s.client.periodic := by
    rw [checkTimeout_periodic, (readLoop_spec hread).1, hclient]
  obtain ⟨⟨periodic, queue, pushed⟩, hentries⟩ := @enqueueEntries_isSome lastInstant now
    (c₁.checkTimeout now).1.periodic (c₁.checkTimeout now).1.queue (by
      rw [hperiodic]
      exact fun entry hentry => (h.room entry hentry).2)
  obtain ⟨r, hpoll⟩ : ∃ r, s₁.client.poll lastInstant ⟨reads, now, now, now, none⟩ = some r := by
    simp only [poll, hread, Option.bind_eq_bind, Option.bind_some, enqueuePeriodicAt, hentries,
      Option.pure_def]
    exact ⟨_, rfl⟩
  obtain ⟨s', hs'⟩ : ∃ s', s₁.step fw (setup fw config lastInstant)
      (.call (.poll ⟨reads, now, now, now, none⟩)) = some s' := by
    simp only [Loop.step]
    rw [if_pos ⟨rfl, rfl, by rw [taken, hbytes]⟩]
    show ∃ s', ((s₁.client.poll lastInstant _).bind fun r => _) = some s'
    rw [hpoll]
    exact ⟨_, rfl⟩
  exact ⟨s', List.replicate s.line.length 0, _, s₁, List.length_replicate, hrun, hbytes, hok, rfl,
    hs'⟩

/-- **One round** makes the backlog smaller, or it was the last that had anything to do. -/
theorem Ready.round (h : Ready fw config lastInstant now base s) (hmax : cfg.maxPayload ≤ 65535)
    (hfits : ∀ app a, fw.Fits app a)
    (hround : Round fw (setup fw config lastInstant) now s s') :
    Ready fw config lastInstant now base s' ∧
      (backlog now s'.client < backlog now s.client ∨
        backlog now s'.client = 0 ∧ Settled s') := by
  obtain ⟨stamps, io, s₁, hlen, hrun, hwire, hok, hnow, hpoll⟩ := hround
  obtain ⟨s₂, hrun₂, hline, hclient, hactions⟩ :=
    @run_deliver _ _ fw (setup fw config lastInstant) stamps s hlen
  cases hrun.symm.trans hrun₂
  have hclosed := Machine.run_invariant (fun h hs => Closed.step h hmax hs) h.closed hrun
  obtain ⟨past, hpast, hcalm⟩ := h.calm
  have hclosed' := hclosed.step hmax hpoll
  simp only [Loop.step] at hpoll
  split at hpoll
  next hop =>
    obtain ⟨-, herror, -⟩ := hop
    simp only [Option.bind_eq_bind, Option.bind_eq_some_iff, Option.pure_def,
      Option.some.injEq] at hpoll
    obtain ⟨⟨c', actions⟩, hcall, rfl⟩ := hpoll
    obtain ⟨⟨c₁, received⟩, hread, -⟩ := Option.bind_eq_some_iff.mp hcall
    have hidle := hclosed.read_all hmax (fun x _ => hfits x.1 x.2) hline hok hwire hread
    obtain ⟨more, rfl, hmore, hperiodic, hless⟩ := poll_idle hread hidle (of_decide_eq_true herror)
      (fun entry hentry => (h.room entry (hclient ▸ hentry)).1) hcall
    obtain ⟨hframes, -, hrequests⟩ := frames_smooth (readLoop_frames hok hread)
    rw [hnow, hclient] at hless hperiodic
    refine ⟨⟨hclosed', ?_, ?_⟩, ?_⟩
    · refine ⟨past ++ (received ++ more), ?_, List.forall_mem_append.mpr
        ⟨hcalm, List.forall_mem_append.mpr ⟨hframes, hmore⟩⟩⟩
      show s₁.actions ++ (received ++ more) = _
      rw [hactions, hpast, List.append_assoc]
    · rw [hperiodic]
      exact List.forall_mem_map.mpr h.room
    · rcases hless with hless | ⟨hzero, hpending, hqueue, hwritten⟩
      · exact .inl hless
      · refine .inr ⟨hzero, hpending, hqueue, ?_, ?_⟩
        · show s₁.line ++ written (received ++ more) = []
          rw [hline, written_append, hwritten, written, hrequests]
          rfl
        · show s₁.wire.drop (bytesRead io.reads).length = []
          rw [hwire, List.drop_length]
  next => cases hpoll

/-- Any number of rounds is a run of the loop. -/
theorem run_rounds {n : Nat} (h : Rounds (Round fw env now) n s s') :
    ∃ events, Machine.run (Loop.step fw env) s events = some s' := by
  induction h with
  | refl s => exact ⟨[], rfl⟩
  | round head _ ih =>
    obtain ⟨events, hrun⟩ := head.run
    obtain ⟨more, hmore⟩ := ih
    exact ⟨events ++ more, by rw [Machine.run_append, hrun]; exact hmore⟩

/-! ## What becomes of a message -/

/-- The message has met its fate: its request was executed and ended by the handler's answer, or
a later message took its place in the queue, or the queue was cleared. -/
def Fulfilled (fw : Firmware cfg σ) (s : Loop cfg σ) (t : Ticket) : Prop :=
  ∃ x ∈ (ledger s.actions).settled, x.ticket = t ∧
    match x.fate with
    | .ended f => ∃ (i : Nat) (state : σ), (ended (ledger s.actions))[i]? = some (t, f) ∧
        s.served[i]? = some (state, actionOf t.1.frame) ∧
        f = fw.answer state (actionOf t.1.frame)
    | .replaced _ | .cleared => True
    | .dropped _ | .timedOut _ _ => False

theorem Closed.pending_ledger (h : Closed fw config lastInstant s) :
    s.client.pending = none ↔ (ledger s.actions).pending = none := by
  rw [(steps_booked h.heard.steps).matched.pending, Option.map_eq_none_iff]

/-- With nothing on its way and nothing queued, every message has met a fate. -/
theorem Settled.fate (hs : Settled s) (h : Closed fw config lastInstant s) {t : Ticket}
    (ht : t ∈ (pushes s.actions).zipIdx) : ∃ x ∈ (ledger s.actions).settled, x.ticket = t := by
  have hbooked := steps_booked h.heard.steps
  have hhigh : (ledger s.actions).high = [] := by
    have hmap := hbooked.matched.high
    rw [hs.queue] at hmap
    exact List.map_eq_nil_iff.mp hmap.symm
  have hlow : (ledger s.actions).low = [] := by
    have hmap := hbooked.matched.low
    rw [hs.queue] at hmap
    exact List.map_eq_nil_iff.mp hmap.symm
  have hpending := h.pending_ledger.mp hs.pending
  -- every ticket is in one place, and only one is left
  have hmem := hbooked.accounted.perm.mem_iff.mpr ht
  rw [Ledger.tickets, hhigh, hlow, hpending] at hmem
  exact List.mem_map.mp hmem

theorem Closed.fulfilled (h : Closed fw config lastInstant s) (hmax : cfg.maxPayload ≤ 65535)
    (hpolite : Polite fw s) (hsmooth : ∀ a ∈ s.actions, smooth a = true) (hs : Settled s)
    {t : Ticket} (ht : t ∈ (pushes s.actions).zipIdx) : Fulfilled fw s t := by
  have hbooked := steps_booked h.heard.steps
  obtain ⟨x, hx, rfl⟩ := hs.fate h ht
  refine ⟨x, hx, rfl, ?_⟩
  have hwhy := hbooked.accounted.settled x hx
  cases hfate : x.fate with
  | replaced | cleared => trivial
  | dropped error =>
    rw [hfate] at hwhy
    obtain ⟨time, hat⟩ := hwhy
    cases hsmooth _ (List.mem_of_getElem? hat)
  | timedOut sentAt now =>
    rw [hfate] at hwhy
    cases hsmooth _ (List.mem_of_getElem? hwhy.1)
  | ended f =>
    have hended : (x.ticket, f) ∈ ended (ledger s.actions) :=
      List.mem_filterMap.mpr ⟨x, hx, by rw [hfate]⟩
    obtain ⟨i, hi⟩ := List.mem_iff_getElem?.mp hended
    obtain ⟨state, hserved, hf⟩ := h.ended_served hmax hpolite hsmooth hi
    exact ⟨i, state, hi, hserved, hf⟩

/-- Any number of rounds is possible, and after enough of them there is nothing left to do. -/
theorem Ready.rounds {n : Nat} (h : Ready fw config lastInstant now base s)
    (hmax : cfg.maxPayload ≤ 65535) (hfits : ∀ app a, fw.Fits app a)
    (hn : backlog now s.client < n) :
    (∃ s', Rounds (Round fw (setup fw config lastInstant) now) n s s') ∧
    ∀ s', Rounds (Round fw (setup fw config lastInstant) now) n s s' →
      Ready fw config lastInstant now base s' ∧ Settled s' :=
  ⟨Rounds.exists (fun h hround => (h.round hmax hfits hround).1) (fun h => h.next) n h,
    fun _ hrounds => hrounds.settle (fun h hround => h.round hmax hfits hround) h hn⟩

theorem ready_start (h : Closed fw config lastInstant s)
    (hroom : ∀ entry ∈ s.client.periodic,
      0 < entry.interval ∧ now + entry.interval ≤ lastInstant) :
    Ready fw config lastInstant now s.actions s :=
  ⟨h, ⟨[], (List.append_nil _).symm, List.forall_mem_nil _⟩, hroom⟩

/-- **Every request ends.** Take any run so far without timeouts and read errors, with handlers
that never offer too much, and any registrations with a positive interval. More rounds at one
reading of the clock than the backlog counts are possible, and whatever these rounds are, in the
end nothing is on its way: the device has executed all that was written, there was no timeout,
and every message that was ever pushed has been ended by the answer of its handler, unless a
later one took its place or the queue was cleared. -/
theorem loop_settles {start : UInt32} {app : σ} {events : List (LoopEvent σ)} {n : Nat}
    (hmax : cfg.maxPayload ≤ 65535)
    (hrun : Machine.run (Loop.step fw (setup fw config lastInstant))
      (Loop.start config start app) events = some s)
    (hfits : ∀ app a, fw.Fits app a) (hsmooth : ∀ a ∈ s.actions, smooth a = true)
    (hroom : ∀ entry ∈ s.client.periodic,
      0 < entry.interval ∧ now + entry.interval ≤ lastInstant)
    (hn : backlog now s.client < n) :
    (∃ s', Rounds (Round fw (setup fw config lastInstant) now) n s s') ∧
    ∀ s', Rounds (Round fw (setup fw config lastInstant) now) n s s' →
      s.actions <+: s'.actions ∧ Settled s' ∧ (∀ a ∈ s'.actions, smooth a = true) ∧
      s'.served.map Prod.snd = (requests s'.actions).map actionOf ∧
      ∀ t ∈ (pushes s'.actions).zipIdx, Fulfilled fw s' t := by
  obtain ⟨hexists, hall⟩ := (ready_start (run_closed hmax hrun) hroom).rounds hmax hfits hn
  refine ⟨hexists, fun s' hrounds => ?_⟩
  obtain ⟨hready, hsettled⟩ := hall s' hrounds
  obtain ⟨more, hmore, hcalm⟩ := hready.calm
  have hsmooth' : ∀ a ∈ s'.actions, smooth a = true := by
    rw [hmore]
    exact List.forall_mem_append.mpr ⟨hsmooth, hcalm⟩
  exact ⟨⟨more, hmore.symm⟩, hsettled, hsmooth',
    hready.closed.heard.executed_all hmax hsettled.line,
    fun t ht => hready.closed.fulfilled hmax (fun x _ => hfits x.1 x.2) hsmooth' hsettled ht⟩

section Thermostat

theorem heater_fits (app : UInt8) (a : Device.Action) : heater.Fits app a :=
  heater.fits_of_sizes (n := 1) (by decide) (by decide +kernel) (fun _ _ => Nat.zero_le _)
    (fun _ _ _ => Nat.zero_le _) app a

/-- A read that is registered, a write, a read, and one request on its way. -/
def busy : List (LoopEvent UInt8) :=
  [.call (.registerPeriodic 5 100 3 none), .call (.write 6 [25]), .call (.read 5 .high none),
    .call (.poll ⟨[], 0, 0, 0, none⟩), .deliver 1]

/-- Of the three messages one is pending and two are queued. -/
theorem loop_settles_busy :
    ∃ s, Machine.run (Loop.step heater (setup heater ⟨1000⟩ 10000)) (Loop.start ⟨1000⟩ 0 20) busy
        = some s ∧ backlog 50 s.client = 2 ∧
      (∃ s', Rounds (Round heater (setup heater ⟨1000⟩ 10000) 50) 3 s s') ∧
      ∀ s', Rounds (Round heater (setup heater ⟨1000⟩ 10000) 50) 3 s s' →
        s.actions <+: s'.actions ∧ Settled s' ∧ (∀ a ∈ s'.actions, smooth a = true) ∧
        s'.served.map Prod.snd = (requests s'.actions).map actionOf ∧
        ∀ t ∈ (pushes s'.actions).zipIdx, Fulfilled heater s' t := by
  have heq : (Machine.run (Loop.step heater (setup heater ⟨1000⟩ 10000))
        (Loop.start ⟨1000⟩ 0 20) busy).map (fun s => (s.actions.all smooth, backlog 50 s.client,
          s.client.periodic.all fun entry => 0 < entry.interval ∧ 50 + entry.interval ≤ 10000))
      = some (true, 2, true) := by
    decide +kernel
  obtain ⟨s, hs, h⟩ := Option.map_eq_some_iff.mp heq
  simp only [Prod.mk.injEq] at h
  obtain ⟨hsmooth, hbacklog, hroom⟩ := h
  exact ⟨s, hs, hbacklog, loop_settles (by decide) hs heater_fits (List.all_eq_true.mp hsmooth)
    (fun entry hentry => of_decide_eq_true (List.all_eq_true.mp hroom entry hentry))
    (by rw [hbacklog]; decide)⟩

end Thermostat

end ProtoEmb.System
