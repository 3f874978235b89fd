import ProtoEmb.System.Settle

/-!
# Timeouts are got over

A request that timed out may still be executed, and its reply may end a later request. That is
all the harm there is. In whatever state that has left client and device, rounds of delivering
and polling bring both to rest, without another timeout (`loop_recovers`). And from any point
where nothing is on its way, requests and replies are in step again: what `loop_returns` says of a
run without timeouts holds of everything after that point (`loop_resumes`).

The rounds are those of `System.Settle`: no part of the source, but one way to go on that is
always open.
-/

namespace ProtoEmb.System

open ProtoEmb.Lib ProtoEmb.Framing ProtoEmb.Schema ProtoEmb.Client ProtoEmb.Device

variable {cfg : RuntimeConfig} {σ : Type} {fw : Firmware cfg σ} {s s' : Loop cfg σ}
  {config : ClientConfig} {lastInstant now : Nat}

/-- Nothing is on its way. -/
structure Quiet (s : Loop cfg σ) : Prop where
  pending : s.client.pending = none
  line : s.line = []
  wire : s.wire = []

/-- The requests that were ended after `base`, each with its reply. -/
def endedSince (base actions : List Client.Action) : List (Ticket × ParsedFrame) :=
  (ended (ledger actions)).drop (ended (ledger base)).length

/-! ## Back in step -/

/-- A quiet loop is an idle link. -/
theorem Closed.idle (h : Closed fw config lastInstant s) (hmax : cfg.maxPayload ≤ 65535)
    (hquiet : Quiet s) {link : Link} (hfollows : Follows fw s link) : link.Idle where
  pending := by rw [hfollows.actions]; exact h.pending_ledger.mp hquiet.pending
  wire := hfollows.wire.trans hquiet.wire
  answered i hi := by
    rw [hfollows.actions, ← h.served_length hmax hquiet.line] at hi
    exact hfollows.answers_all hi

/-- The link goes on as the loop does. -/
theorem run_follows {link : Link} {events : List (LoopEvent σ)}
    (hheard : Heard config s) (hfollows : Follows fw s link) (hmax : cfg.maxPayload ≤ 65535)
    (hrun : Machine.run (Loop.step fw (setup fw config lastInstant)) s events = some s')
    (hpolite : Polite fw s') :
    ∃ moves link', Machine.run (Link.step (setup fw config lastInstant)) link moves = some link' ∧
      Follows fw s' link' := by
  have hinv := Machine.run_invariant
    (I := fun s₁ : Loop cfg σ => Heard config s₁ ∧ (Polite fw s₁ → ∃ moves link₁,
      Machine.run (Link.step (setup fw config lastInstant)) link moves = some link₁ ∧
        Follows fw s₁ link₁))
    (fun {s₁ e s₂} h hs => by
      refine ⟨h.1.step hs, fun hpolite₂ => ?_⟩
      obtain ⟨moves, link₁, hmoves, h₁⟩ :=
        h.2 fun x hx => hpolite₂ x ((served_grows hs).subset hx)
      obtain ⟨more, link₂, hmore, h₂⟩ := h₁.step h.1 hmax hs hpolite₂
      exact ⟨moves ++ more, link₂, by rw [Machine.run_append, hmoves]; exact hmore, h₂⟩)
    ⟨hheard, fun _ => ⟨[], link, rfl, hfollows⟩⟩ hrun
  exact hinv.2 hpolite

theorem run_served {events : List (LoopEvent σ)}
    (hrun : Machine.run (Loop.step fw (setup fw config lastInstant)) s events = some s') :
    s.served <+: s'.served :=
  Machine.run_invariant (I := fun s₁ : Loop cfg σ => s.served <+: s₁.served)
    (fun h hs => h.trans (served_grows hs)) (List.prefix_refl _) hrun

theorem Since.endedSince_eq {base more : List Client.Action} {es : List (Ticket × ParsedFrame)}
    (h : Since base more es) : endedSince base (base ++ more) = es := by
  rw [endedSince, h.ended_eq, List.drop_left]

/-- A request, when it was written, and what it was ended with: the answer of the handler that
executed it. -/
def Returned (fw : Firmware cfg σ) (s : Loop cfg σ) (i : Nat) (t : Ticket) (f : ParsedFrame) :
    Prop :=
  (ledger s.actions).sent[i]? = some t ∧
    ∃ state, s.served[i]? = some (state, actionOf t.1.frame) ∧
      f = fw.answer state (actionOf t.1.frame)

/-- The dispatch of a request is the one that it asks for. -/
theorem Closed.returned (h : Closed fw config lastInstant s) (hmax : cfg.maxPayload ≤ 65535)
    {link : Link} (hfollows : Follows fw s link) {i : Nat} {t : Ticket} {f : ParsedFrame}
    (hsent : (ledger s.actions).sent[i]? = some t) (hans : (f, i) ∈ answers link.replies) :
    Returned fw s i t f := by
  refine ⟨hsent, ?_⟩
  rw [hfollows.answered, List.mem_zipIdx_iff_getElem?, List.getElem?_map,
    Option.map_eq_some_iff] at hans
  obtain ⟨⟨state, a⟩, hserved, rfl⟩ := hans
  obtain ⟨rest, hrest⟩ := h.heard.executed hmax
  have hat : ((requests s.actions).map actionOf)[i]? = some a := by
    rw [← hrest, List.getElem?_append_left, List.getElem?_map, hserved]
    · rfl
    · rw [List.length_map]
      exact (List.getElem?_eq_some_iff.mp hserved).1
  rw [(steps_booked h.heard.steps).accounted.requests_eq, List.getElem?_map, List.getElem?_map,
    hsent] at hat
  cases hat
  exact ⟨state, hserved, rfl⟩

/-- **From a quiet point on** requests and replies are in step, and the replies are what the
handlers answered. -/
theorem Closed.since {b link : Link} {since : List Client.Action}
    (h : Closed fw config lastInstant s) (hmax : cfg.maxPayload ≤ 65535)
    (hb : Linked (setup fw config lastInstant) b) (hidle : b.Idle)
    (hresumed : Resumed (setup fw config lastInstant) b link) (hfollows : Follows fw s link)
    (hsince : s.actions = b.actions ++ since) (hsmooth : ∀ a ∈ since, smooth a = true) :
    Since b.actions since (endedSince b.actions s.actions) ∧
    ∀ (i : Nat) (t : Ticket) (f : ParsedFrame),
      (endedSince b.actions s.actions)[i]? = some (t, f) →
      Returned fw s ((requests b.actions).length + i) t f := by
  obtain ⟨hlinked, acts, replies, hactions, hreplies, hall⟩ := hresumed
  have hacts : acts = since := by
    rw [hfollows.actions, hsince] at hactions
    exact (List.append_cancel_left hactions).symm
  subst hacts
  obtain ⟨⟨es, hes⟩, horder⟩ := hall hsmooth
  have heq : endedSince b.actions s.actions = es := by rw [hsince, hes.endedSince_eq]
  rw [heq]
  refine ⟨hes, fun i t f hi => ?_⟩
  obtain ⟨hsent, hans⟩ := hes.answered hidle hb hlinked hactions hreplies horder hi
  rw [hfollows.actions] at hsent
  exact h.returned hmax hfollows hsent hans

/-- **Back in step.** Take any run so far, with timeouts, read errors and late replies, and a point
where nothing is on its way. As long as there is no timeout and no read error after it: the
requests written since then are those that have been answered since then and the pending one;
each of these answers is the one that the handler gave when it executed that very request; and the
client reports every frame as what it is. With nothing pending again, every request executed
since has been answered. -/
theorem loop_resumes {start : UInt32} {app : σ} {events more : List (LoopEvent σ)}
    {since : List Client.Action} (hmax : cfg.maxPayload ≤ 65535)
    (hrun : Machine.run (Loop.step fw (setup fw config lastInstant))
      (Loop.start config start app) events = some s)
    (hquiet : Quiet s)
    (hmore : Machine.run (Loop.step fw (setup fw config lastInstant)) s more = some s')
    (hpolite : Polite fw s') (hsince : s'.actions = s.actions ++ since)
    (hsmooth : ∀ a ∈ since, smooth a = true) :
    requests since = ((endedSince s.actions s'.actions).map fun e => e.1.1.frame)
        ++ (s'.client.pending.map PendingRequest.frame).toList ∧
    (∀ (i : Nat) (t : Ticket) (f : ParsedFrame),
      (endedSince s.actions s'.actions)[i]? = some (t, f) →
      Returned fw s' (s.served.length + i) t f) ∧
    (∀ f event, .frame f event ∈ since → event = eventOf f) ∧
    (s'.client.pending = none →
      s'.served.length = s.served.length + (endedSince s.actions s'.actions).length) := by
  have h := run_closed hmax hrun
  have h' := Machine.run_invariant (fun h hs => Closed.step h hmax hs) h hmore
  obtain ⟨moves, b, hb, hfollows⟩ :=
    h.follows fun x hx => hpolite x ((run_served hmore).subset hx)
  have hlinked := run_linked (linked_start _) (run_link.trans hb)
  have hidle := h.idle hmax hquiet hfollows
  obtain ⟨moves', link, hmoves, hfollows'⟩ := run_follows h.heard hfollows hmax hmore hpolite
  have hresumed := Machine.run_invariant (fun h hm => Resumed.step hidle hlinked h hm)
    (resumed_start hlinked hidle) hmoves
  rw [← hfollows.actions] at hsince ⊢
  obtain ⟨hes, hget⟩ := h'.since hmax hlinked hidle hresumed hfollows' hsince hsmooth
  have hlen : (requests b.actions).length = s.served.length := by
    rw [hfollows.actions]
    exact (h.served_length hmax hquiet.line).symm
  rw [hlen] at hget
  have hbooked := steps_booked h'.heard.steps
  -- the requests written since are those that were sent since
  have hsent : requests since = ((endedSince b.actions s'.actions).map fun e => e.1.1.frame)
      ++ (s'.client.pending.map PendingRequest.frame).toList := by
    have hall := hbooked.accounted.requests_eq
    rw [hsince, Ledger.requests_append, hes.sent_eq, List.map_append,
      (steps_booked hlinked.steps).accounted.requests_eq, List.append_cancel_left_eq] at hall
    rw [hall, List.map_append, List.map_map, hbooked.matched.pending, hsince]
    congr 1
    cases (ledger (b.actions ++ since)).pending <;> rfl
  refine ⟨hsent, hget, hes.events, fun hdone => ?_⟩
  rw [hdone, Option.map_none, Option.toList_none, List.append_nil] at hsent
  have hle := (h'.heard.executed hmax).length_le
  rw [List.length_map, List.length_map, hsince, Ledger.requests_append, List.length_append, hlen,
    hsent, List.length_map] at hle
  refine Nat.le_antisymm hle ?_
  -- the last of the answered requests has been executed
  by_contra hlt
  have hgrow := (run_served hmore).length_le
  obtain ⟨⟨t, f⟩, hi⟩ : ∃ e, (endedSince b.actions s'.actions)[s'.served.length
      - s.served.length]? = some e := ⟨_, List.getElem?_eq_getElem (by omega)⟩
  obtain ⟨-, state, hserved, -⟩ := hget _ t f hi
  have hout := (List.getElem?_eq_some_iff.mp hserved).1
  omega

/-! ## The books after a point -/

section Books

variable {l l' : Ledger}

/-- A message can meet this fate without having been sent. -/
def Unsent : Fate → Prop
  | .ended _ => False
  | .timedOut _ _ => False
  | _ => True

/-- What the books show of one action. -/
structure Turned (l l' : Ledger) : Prop where
  /-- Something is settled now, and if it was sent it was what was on its way. -/
  settled : ∃ xs, l'.settled = l.settled ++ xs ∧ ∀ x ∈ xs, x.after = l.seen ∧
    (Unsent x.fate ∨ ∃ sentAt, l.pending = some (x.ticket, sentAt))
  sent : l.sent <+: l'.sent
  pending : ∀ t sentAt, l'.pending = some (t, sentAt) → l.pending = some (t, sentAt) ∨ t ∈ l'.sent
  seen : l'.seen = l.seen + 1

/-- What waits in a queue meets a fate without having been sent. -/
theorem turned_queue (ts : List Ticket) (fate : Fate) (hfate : Unsent fate)
    (hsettled : l'.settled = l.settled ++ ts.map fun t => ⟨t, fate, l.seen⟩)
    (hsent : l'.sent = l.sent) (hpending : l'.pending = l.pending) (hseen : l'.seen = l.seen + 1) :
    Turned l l' where
  settled := ⟨_, hsettled, List.forall_mem_map.mpr fun _ _ => ⟨rfl, .inl hfate⟩⟩
  sent := by rw [hsent]
  pending := fun _ _ h => .inl (hpending ▸ h)
  seen := hseen

theorem turned_same : Turned l { l with seen := l.seen + 1 } :=
  turned_queue [] .cleared trivial (List.append_nil _).symm rfl rfl rfl

/-- What is on its way meets a fate. -/
theorem turned_pending {t : Ticket} {sentAt : Nat} (fate : Fate)
    (hp : l.pending = some (t, sentAt)) :
    Turned l { l with pending := none, settled := l.settled ++ [⟨t, fate, l.seen⟩]
                      seen := l.seen + 1 } where
  settled := ⟨_, rfl, List.forall_mem_singleton.mpr ⟨rfl, .inr ⟨sentAt, hp⟩⟩⟩
  sent := List.prefix_refl _
  pending := fun _ _ h => by cases h
  seen := rfl

/-- **One action.** -/
theorem step_turned (l : Ledger) (a : Client.Action) : Turned l (l.step a) := by
  cases a with
  | push msg =>
    cases hprio : msg.priority with
    | high =>
      refine turned_queue (Ledger.displaced l.high (msg, l.next)).toList (.replaced l.next) trivial
        ?_ ?_ ?_ rfl
      all_goals rw [Ledger.step, Ledger.enact, Ledger.push, hprio]; rfl
    | low =>
      refine turned_queue (Ledger.displaced l.low (msg, l.next)).toList (.replaced l.next) trivial
        ?_ ?_ ?_ rfl
      all_goals rw [Ledger.step, Ledger.enact, Ledger.push, hprio]; rfl
  | clear => exact turned_queue (l.high ++ l.low) .cleared trivial rfl rfl rfl rfl
  | frame f event =>
    cases hp : l.pending with
    | none =>
      have hstep : l.step (.frame f event) = { l with seen := l.seen + 1 } := by
        simp only [Ledger.step, Ledger.enact, hp]
      rw [hstep]
      exact turned_same
    | some p =>
      obtain ⟨t, sentAt⟩ := p
      by_cases hends : ends (t.1.frame.getD 2 0) t.1.expect f = true
      · have hstep : l.step (.frame f event) = { l with
            pending := none, settled := l.settled ++ [⟨t, .ended f, l.seen⟩],
            seen := l.seen + 1 } := by
          simp only [Ledger.step, Ledger.enact, hp, hends, if_true]
          rfl
        rw [hstep]
        exact turned_pending _ hp
      · have hstep : l.step (.frame f event) = { l with seen := l.seen + 1 } := by
          simp only [Ledger.step, Ledger.enact, hp, if_neg hends]
        rw [hstep]
        exact turned_same
  | expire now bytes =>
    cases hp : l.pending with
    | none =>
      have hstep : l.step (.expire now bytes) = { l with seen := l.seen + 1 } := by
        simp only [Ledger.step, Ledger.enact, hp]
      rw [hstep]
      exact turned_same
    | some p =>
      obtain ⟨t, sentAt⟩ := p
      have hstep : l.step (.expire now bytes) = { l with
          pending := none, settled := l.settled ++ [⟨t, .timedOut sentAt now, l.seen⟩]
          seen := l.seen + 1 } := by
        simp only [Ledger.step, Ledger.enact, hp]
        rfl
      rw [hstep]
      exact turned_pending _ hp
  | write bytes now error =>
    unfold Ledger.step Ledger.enact
    cases hpop : l.pop with
    | none => exact turned_same
    | some r =>
      obtain ⟨t, l₁⟩ := r
      obtain ⟨hl₁, -⟩ := Ledger.pop_spec hpop
      cases error with
      | none =>
        refine ⟨⟨[], ?_, List.forall_mem_nil _⟩, ?_, fun t' sentAt h => .inr ?_, rfl⟩
        · show l₁.settled = _
          rw [hl₁, List.append_nil]
        · show l.sent <+: l₁.sent ++ [t]
          rw [hl₁]
          exact List.prefix_append _ _
        · cases h
          exact List.mem_append_right _ (List.mem_singleton.mpr rfl)
      | some e =>
        refine turned_queue [t] (.dropped e) trivial ?_ ?_ ?_ rfl
        · show l₁.settled ++ [⟨t, .dropped e, l₁.seen⟩] = _
          rw [hl₁]
          rfl
        · show l₁.sent = _
          rw [hl₁]
        · show l₁.pending = _
          rw [hl₁]
  | readError | register | clearAll => exact turned_same

/-- What is settled after `base` is marked with the number of actions before it. -/
theorem books_after (base more : List Client.Action) :
    (∃ xs, (ledger (base ++ more)).settled = (ledger base).settled ++ xs ∧
      ∀ x ∈ xs, (ledger base).seen ≤ x.after) ∧
    (ledger base).sent <+: (ledger (base ++ more)).sent ∧
    (ledger base).seen ≤ (ledger (base ++ more)).seen := by
  induction more using List.reverseRecOn with
  | nil =>
    rw [List.append_nil]
    exact ⟨⟨[], (List.append_nil _).symm, List.forall_mem_nil _⟩, List.prefix_refl _, Nat.le_refl _⟩
  | append_singleton more a ih =>
    obtain ⟨⟨xs, hxs, hafter⟩, hsent, hseen⟩ := ih
    have hturn := step_turned (ledger (base ++ more)) a
    obtain ⟨ys, hys, hnow⟩ := hturn.settled
    rw [← List.append_assoc, ledger_concat]
    refine ⟨⟨xs ++ ys, ?_, List.forall_mem_append.mpr ⟨hafter, fun y hy => ?_⟩⟩,
      hsent.trans hturn.sent, ?_⟩
    · rw [hys, hxs, List.append_assoc]
    · rw [(hnow y hy).1]
      exact hseen
    · rw [hturn.seen]
      exact Nat.le_succ_of_le hseen

/-- What was on its way was sent, and only what was sent is ended or times out. -/
theorem ledger_sent (actions : List Client.Action) :
    (∀ t sentAt, (ledger actions).pending = some (t, sentAt) → t ∈ (ledger actions).sent) ∧
    ∀ x ∈ (ledger actions).settled, Unsent x.fate ∨ x.ticket ∈ (ledger actions).sent := by
  induction actions using List.reverseRecOn with
  | nil => exact ⟨fun _ _ h => (by cases h), List.forall_mem_nil _⟩
  | append_singleton pre a ih =>
    obtain ⟨hpending, hsettled⟩ := ih
    rw [ledger_concat]
    have hturn := step_turned (ledger pre) a
    obtain ⟨xs, hxs, hnow⟩ := hturn.settled
    have hkept : ∀ {t : Ticket}, t ∈ (ledger pre).sent → t ∈ ((ledger pre).step a).sent :=
      fun ht => hturn.sent.subset ht
    constructor
    · intro t sentAt hp
      exact (hturn.pending t sentAt hp).elim (fun h => hkept (hpending t sentAt h)) id
    · rw [hxs]
      refine List.forall_mem_append.mpr ⟨fun x hx => (hsettled x hx).imp_right hkept,
        fun x hx => (hnow x hx).2.imp_right ?_⟩
      rintro ⟨sentAt, hp⟩
      exact hkept (hpending _ sentAt hp)

end Books

/-! ## Recovery -/

/-- A poll reads first, and what it does then are steps of the client. -/
theorem poll_reads {c c' : ProtoEmb.Client} {io : PollInput} {actions : List Client.Action}
    (h : c.poll lastInstant io = some (c', actions)) :
    ∃ c₁ received rest, c.readLoop io.reads = some (c₁, received) ∧ actions = received ++ rest ∧
      Steps c₁ rest c' := by
  simp only [poll, Option.bind_eq_bind, Option.bind_eq_some_iff, Option.pure_def,
    Option.some.injEq, Prod.mk.injEq] at h
  obtain ⟨⟨c₁, received⟩, hread, ⟨c₂, pushed⟩, henq, rfl, rfl⟩ := h
  refine ⟨c₁, received, _, hread, by rw [List.append_assoc, List.append_assoc], ?_⟩
  exact (checkTimeout_steps c₁ io.checkAt).trans ((enqueuePeriodicAt_steps henq).trans
    (tryFlush_steps c₂ io.sentAt io.writeError))

/-- **In the middle of a round** nothing is on its way, so from there on request and reply are in
step. -/
theorem Round.resumed (hround : Round fw (setup fw config lastInstant) now s s')
    (h : Closed fw config lastInstant s) (hmax : cfg.maxPayload ≤ 65535)
    (hfits : ∀ app a, fw.Fits app a) :
    ∃ b link received, Linked (setup fw config lastInstant) b ∧ b.Idle ∧
      Resumed (setup fw config lastInstant) b link ∧ Follows fw s' link ∧
      b.actions = s.actions ++ received ∧ (ledger b.actions).sent = (ledger s.actions).sent ∧
      b.actions <+: s'.actions := by
  obtain ⟨stamps, io, s₁, hlen, hrun, hwire, hok, -, hpoll⟩ := hround
  obtain ⟨s₂, hrun₂, hline, -, hactions⟩ :=
    @run_deliver _ _ fw (setup fw config lastInstant) stamps s hlen
  cases hrun.symm.trans hrun₂
  have h₁ := Machine.run_invariant (fun h hs => Closed.step h hmax hs) h hrun
  simp only [Loop.step] at hpoll
  split at hpoll
  next hop =>
    obtain ⟨hallow, -, htaken⟩ := hop
    simp only [Option.bind_eq_bind, Option.bind_eq_some_iff, Option.pure_def,
      Option.some.injEq] at hpoll
    obtain ⟨⟨c', actions⟩, hcall, rfl⟩ := hpoll
    obtain ⟨c₁, received, rest, hread, rfl, hrest⟩ := poll_reads hcall
    obtain ⟨link, hlinked, hfollows, hmid, hidle⟩ :=
      h₁.read hmax (fun x _ => hfits x.1 x.2) hline hok hwire hread
    obtain ⟨hmove, hfollows'⟩ := hfollows.call hallow htaken hcall
    have hsame : link.actions ++ (received ++ rest) = link.actions ++ received ++ rest :=
      (List.append_assoc ..).symm
    rw [hsame] at hmove hfollows'
    -- the link after the poll is the one in the middle of it and the rest of the steps
    have hresumed := (resumed_start hmid hidle).steps hidle hmid hrest (hlinked.step hmove)
    refine ⟨link.read c₁ received, _, received, hmid, hidle, hresumed, hfollows', ?_, ?_, ?_⟩
    · show link.actions ++ received = _
      rw [hfollows.actions, hactions]
    · -- reading sends nothing
      have hlen := congrArg List.length (steps_booked hmid.steps).accounted.requests_eq
      have hlen₀ := congrArg List.length (steps_booked hlinked.steps).accounted.requests_eq
      rw [Link.read, Ledger.requests_append, (frames_smooth (readLoop_frames hok hread)).2.2,
        List.append_nil, hlen₀, List.length_map, List.length_map] at hlen
      have hsent := (books_after link.actions received).2.1.eq_of_length hlen
      rw [Link.read, ← hsent, hfollows.actions, hactions]
    · show link.actions ++ received <+: s₁.actions ++ (received ++ rest)
      rw [hfollows.actions, ← List.append_assoc]
      exact List.prefix_append _ _
  next => cases hpoll

/-- No write of the loop fails. -/
theorem call_writes {c c' : ProtoEmb.Client} {op : Client.Call} {actions : List Client.Action}
    (h : c.call lastInstant op = some (c', actions)) (hfit : fitsDevice cfg op = true)
    (bytes : List UInt8) (time : Nat) (error : String) :
    Client.Action.write bytes time (some error) ∉ actions := by
  cases op with
  | read | write | query | unregisterPeriodic | clearQueue | clearStore =>
    cases h
    simp
  | registerPeriodic =>
    simp only [call, addPeriodic, Option.bind_eq_bind, Option.bind_eq_some_iff, Option.pure_def,
      Option.some.injEq, Prod.mk.injEq] at h
    obtain ⟨_, ⟨_, _, rfl⟩, rfl, rfl⟩ := h
    simp
  | registerStore =>
    simp only [call, Option.bind_eq_bind, Option.bind_eq_some_iff, Option.pure_def,
      Option.some.injEq, Prod.mk.injEq] at h
    obtain ⟨_, _, rfl, rfl⟩ := h
    simp
  | poll io =>
    simp only [call, poll, Option.bind_eq_bind, Option.bind_eq_some_iff, Option.pure_def,
      Option.some.injEq, Prod.mk.injEq] at h
    obtain ⟨⟨c₁, received⟩, hread, ⟨c₂, pushed⟩, henq, rfl, rfl⟩ := h
    have hreceived : Client.Action.write bytes time (some error) ∉ received := fun hmem => by
      rcases (readLoop_spec hread).2 _ hmem with ⟨_, _, h⟩ | ⟨_, h⟩ <;> cases h
    have hexpired : Client.Action.write bytes time (some error)
        ∉ (c₁.checkTimeout io.checkAt).2 := by
      unfold checkTimeout
      split
      · split <;> simp
      · simp
    have hpushed : Client.Action.write bytes time (some error) ∉ pushed := fun hmem => by
      have hsmooth := ((enqueue_backlog henq).2.2 _ hmem).1
      cases hsmooth
    have hsent : Client.Action.write bytes time (some error)
        ∉ (c₂.tryFlush io.sentAt io.writeError).2 := by
      rw [show io.writeError = none from of_decide_eq_true hfit]
      unfold tryFlush
      split
      · simp
      · split <;> simp
    simp only [List.mem_append, not_or]
    exact ⟨⟨⟨hreceived, hexpired⟩, hpushed⟩, hsent⟩

/-- Only calls add to what the client has done. -/
theorem event_actions {e : LoopEvent σ}
    (hs : s.step fw (setup fw config lastInstant) e = some s') :
    s'.actions = s.actions ∨ ∃ op client actions, fitsDevice cfg op = true ∧
      s.client.call lastInstant op = some (client, actions) ∧
      s'.actions = s.actions ++ actions := by
  cases e with
  | call op =>
    simp only [Loop.step] at hs
    split at hs
    next hop =>
      simp only [Option.bind_eq_bind, Option.bind_eq_some_iff, Option.pure_def,
        Option.some.injEq] at hs
      obtain ⟨⟨client, actions⟩, hcall, rfl⟩ := hs
      exact .inr ⟨op, client, actions, hop.2.1, hcall, rfl⟩
    next => cases hs
  | deliver now =>
    simp only [Loop.step] at hs
    split at hs
    · cases hs
    · cases hs
      exact .inl rfl
  | tick now =>
    simp only [Loop.step] at hs
    split at hs
    · cases hs
      exact .inl rfl
    · cases hs
  | notify notification =>
    simp only [Loop.step] at hs
    split at hs
    · cases hs
      exact .inl rfl
    · cases hs
  | work app =>
    cases hs
    exact .inl rfl

theorem run_writes {start : UInt32} {app : σ} {events : List (LoopEvent σ)}
    (hrun : Machine.run (Loop.step fw (setup fw config lastInstant))
      (Loop.start config start app) events = some s)
    (bytes : List UInt8) (time : Nat) (error : String) :
    Client.Action.write bytes time (some error) ∉ s.actions := by
  refine Machine.run_invariant
    (I := fun s₁ : Loop cfg σ => Client.Action.write bytes time (some error) ∉ s₁.actions)
    (fun {s₁ e s₂} h hs => ?_) List.not_mem_nil hrun
  rcases event_actions hs with heq | ⟨op, client, actions, hfit, hcall, heq⟩
  · rw [heq]
    exact h
  · rw [heq]
    exact fun hmem => (List.mem_append.mp hmem).elim h (call_writes hcall hfit bytes time error)

theorem run_actions {events : List (LoopEvent σ)}
    (hrun : Machine.run (Loop.step fw (setup fw config lastInstant)) s events = some s') :
    s.actions <+: s'.actions := by
  refine Machine.run_invariant (I := fun s₁ : Loop cfg σ => s.actions <+: s₁.actions)
    (fun {s₁ e s₂} h hs => ?_) (List.prefix_refl _) hrun
  rcases event_actions hs with heq | ⟨op, client, actions, -, -, heq⟩
  · rw [heq]
    exact h
  · rw [heq]
    exact h.trans (List.prefix_append _ _)

/-- What becomes of a message that had not been written before: its request is ended by the
answer of the handler that executed it, or a later message takes its place in the queue, or the
queue is cleared. -/
def Recovered (fw : Firmware cfg σ) (s : Loop cfg σ) (t : Ticket) : Prop :=
  ∃ x ∈ (ledger s.actions).settled, x.ticket = t ∧
    match x.fate with
    | .ended f => ∃ i, Returned fw s i t f
    | .replaced _ | .cleared => True
    | .dropped _ | .timedOut _ _ => False

/-- After some rounds, what was ended since the first poll had read is in step. -/
theorem rounds_since {n : Nat} {since : List Client.Action}
    (hrounds : Rounds (Round fw (setup fw config lastInstant) now) n s s') (hn : 0 < n)
    (h : Closed fw config lastInstant s) (hmax : cfg.maxPayload ≤ 65535)
    (hfits : ∀ app a, fw.Fits app a) (hsince : s'.actions = s.actions ++ since)
    (hcalm : ∀ a ∈ since, smooth a = true) :
    ∃ base, (ledger base).sent = (ledger s.actions).sent ∧
      ended (ledger s'.actions) = ended (ledger base) ++ endedSince base s'.actions ∧
      ∀ e ∈ endedSince base s'.actions, ∃ i, Returned fw s' i e.1 e.2 := by
  cases hrounds with
  | refl => exact absurd hn (Nat.lt_irrefl 0)
  | round head tail =>
    obtain ⟨b, link, received, hb, hidle, hresumed, hfollows, hactions, hsent, hprefix⟩ :=
      head.resumed h hmax hfits
    obtain ⟨first, hfirst⟩ := head.run
    obtain ⟨rest, hrest⟩ := run_rounds tail
    have h₁ := Machine.run_invariant (fun h hs => Closed.step h hmax hs) h hfirst
    have h' := Machine.run_invariant (fun h hs => Closed.step h hmax hs) h₁ hrest
    obtain ⟨moves, link', hmoves, hfollows'⟩ :=
      run_follows h₁.heard hfollows hmax hrest fun x _ => hfits x.1 x.2
    have hresumed' := Machine.run_invariant (fun h hm => Resumed.step hidle hb h hm) hresumed hmoves
    obtain ⟨since', hsince'⟩ := hprefix.trans (run_actions hrest)
    have hsub : since = received ++ since' := by
      rw [← hsince', hactions, List.append_assoc] at hsince
      exact (List.append_cancel_left hsince).symm
    obtain ⟨hes, hget⟩ := h'.since hmax hb hidle hresumed' hfollows' hsince'.symm
      fun a ha => hcalm a (hsub ▸ List.mem_append_right _ ha)
    refine ⟨b.actions, hsent, hsince' ▸ hes.ended_eq, fun e he => ?_⟩
    obtain ⟨i, hi⟩ := List.mem_iff_getElem?.mp he
    exact ⟨_, hget i e.1 e.2 hi⟩

/-- **Timeouts are got over.** From any state that a run can reach, with timeouts, read errors and
late replies in its past, more rounds at one reading of the clock than the backlog counts are
possible, and whatever these rounds are, in the end nothing is on its way. No request times out
meanwhile, the device has executed all that was written, and every message has met a fate; each
one that had not been written when the rounds began has been ended by the answer of the handler
that executed it, unless a later one took its place or the queue was cleared. -/
theorem loop_recovers {start : UInt32} {app : σ} {events : List (LoopEvent σ)} {n : Nat}
    (hmax : cfg.maxPayload ≤ 65535)
    (hrun : Machine.run (Loop.step fw (setup fw config lastInstant))
      (Loop.start config start app) events = some s)
    (hfits : ∀ app a, fw.Fits app a)
    (hroom : ∀ entry ∈ s.client.periodic,
      0 < entry.interval ∧ now + entry.interval ≤ lastInstant)
    (hn : backlog now s.client < n) :
    (∃ s', Rounds (Round fw (setup fw config lastInstant) now) n s s') ∧
    ∀ s', Rounds (Round fw (setup fw config lastInstant) now) n s s' →
      Settled s' ∧ (∃ since, s'.actions = s.actions ++ since ∧ ∀ a ∈ since, smooth a = true) ∧
      s'.served.map Prod.snd = (requests s'.actions).map actionOf ∧
      ∀ t ∈ (pushes s'.actions).zipIdx,
        (∃ x ∈ (ledger s'.actions).settled, x.ticket = t) ∧
        (t ∉ (ledger s.actions).sent → Recovered fw s' t) := by
  have h := run_closed hmax hrun
  obtain ⟨hexists, hall⟩ := (ready_start h hroom).rounds hmax hfits hn
  refine ⟨hexists, fun s' hrounds => ?_⟩
  obtain ⟨hready, hsettled⟩ := hall s' hrounds
  obtain ⟨since, hsince, hcalm⟩ := hready.calm
  refine ⟨hsettled, ⟨since, hsince, hcalm⟩,
    hready.closed.heard.executed_all hmax hsettled.line, fun t ht => ?_⟩
  obtain ⟨x, hx, rfl⟩ := hsettled.fate hready.closed ht
  refine ⟨⟨x, hx, rfl⟩, fun hunsent => ⟨x, hx, rfl, ?_⟩⟩
  obtain ⟨⟨xs, hxs, hafter⟩, -, -⟩ := books_after s.actions since
  have hacc := (steps_booked hready.closed.heard.steps).accounted
  have hwhy := hacc.settled x hx
  cases hfate : x.fate with
  | replaced | cleared => trivial
  | dropped error =>
    rw [hfate] at hwhy
    obtain ⟨time, hat⟩ := hwhy
    obtain ⟨more, hmore⟩ := run_rounds hrounds
    have hwhole : Machine.run (Loop.step fw (setup fw config lastInstant))
        (Loop.start config start app) (events ++ more) = some s' := by
      rw [Machine.run_append, hrun]
      exact hmore
    exact run_writes hwhole _ _ _ (List.mem_of_getElem? hat)
  | timedOut sentAt time =>
    rw [hfate] at hwhy
    rw [hsince, hxs] at hx
    rcases List.mem_append.mp hx with hold | hnew
    · -- what had timed out had been written
      rcases (ledger_sent s.actions).2 x hold with hfree | hsent
      · rw [hfate] at hfree
        exact hfree
      · exact hunsent hsent
    · have hlate := hafter x hnew
      rw [(steps_booked h.heard.steps).accounted.seen_eq] at hlate
      have hat := hwhy.1
      rw [hsince, List.getElem?_append_right hlate] at hat
      cases hcalm _ (List.mem_of_getElem? hat)
  | ended f =>
    obtain ⟨base, hsent, hended, hget⟩ := rounds_since hrounds (Nat.zero_lt_of_lt hn) h hmax hfits
      hsince hcalm
    have hmem : (x.ticket, f) ∈ ended (ledger s'.actions) :=
      List.mem_filterMap.mpr ⟨x, hx, by rw [hfate]⟩
    rw [hended] at hmem
    rcases List.mem_append.mp hmem with hold | hnew
    · -- what had been ended had been written
      obtain ⟨y, hy, hyf⟩ := List.mem_filterMap.mp hold
      cases hfate' : y.fate with
      | ended g =>
        rw [hfate'] at hyf
        obtain ⟨hticket, -⟩ := Prod.mk.inj (Option.some.inj hyf)
        rcases (ledger_sent base).2 y hy with hfree | hold'
        · rw [hfate'] at hfree
          cases hfree
        · rw [hticket, hsent] at hold'
          exact absurd hold' hunsent
      | replaced | cleared | dropped | timedOut =>
        rw [hfate'] at hyf
        cases hyf
    · exact hget _ hnew

section Thermostat

/-- A read times out before the device has been fed; the second one is on its way when the answer
to the first is sent, and a write is queued. -/
def outOfStep : List (LoopEvent UInt8) :=
  [.call (.read 5 .high none), .call (.poll ⟨[], 0, 0, 0, none⟩), .call (.read 5 .high none),
    .call (.poll ⟨[], 2000, 2000, 2000, none⟩), .deliver 1, .deliver 1, .deliver 1,
    .call (.write 6 [25])]

/-- The write had not been written. -/
theorem loop_recovers_outOfStep :
    ∃ s, Machine.run (Loop.step heater (setup heater ⟨1000⟩ 10000))
      (Loop.start ⟨1000⟩ 0 20) outOfStep
        = some s ∧ s.actions.all smooth = false ∧ (pushes s.actions).length = 3 ∧
      (∃ s', Rounds (Round heater (setup heater ⟨1000⟩ 10000) 2000) 2 s s') ∧
      ∀ s', Rounds (Round heater (setup heater ⟨1000⟩ 10000) 2000) 2 s s' →
        Settled s' ∧ (∃ since, s'.actions = s.actions ++ since ∧ ∀ a ∈ since, smooth a = true) ∧
        s'.served.map Prod.snd = (requests s'.actions).map actionOf ∧
        ∀ t ∈ (pushes s'.actions).zipIdx,
          (∃ x ∈ (ledger s'.actions).settled, x.ticket = t) ∧
          (t ∉ (ledger s.actions).sent → Recovered heater s' t) := by
  have heq : (Machine.run (Loop.step heater (setup heater ⟨1000⟩ 10000))
        (Loop.start ⟨1000⟩ 0 20) outOfStep).map (fun s => (s.actions.all smooth,
          (pushes s.actions).length, backlog 2000 s.client, s.client.periodic.length))
      = some (false, 3, 1, 0) := by
    decide +kernel
  obtain ⟨s, hs, h⟩ := Option.map_eq_some_iff.mp heq
  simp only [Prod.mk.injEq] at h
  obtain ⟨hsmooth, hpushes, hbacklog, hperiodic⟩ := h
  refine ⟨s, hs, hsmooth, hpushes, loop_recovers (by decide) hs heater_fits ?_
    (by rw [hbacklog]; decide)⟩
  rw [List.eq_nil_of_length_eq_zero hperiodic]
  exact List.forall_mem_nil _

/-- A read times out, and its answer comes when nothing is pending. -/
def late : List (LoopEvent UInt8) :=
  [.call (.read 5 .high none), .call (.poll ⟨[], 0, 0, 0, none⟩),
    .call (.poll ⟨[], 2000, 2000, 2000, none⟩), .deliver 1, .deliver 1, .deliver 1,
    .call (.poll ⟨[.ok [0x55, 0x02, 0x05, 0x01, 0x00, 0x14, 0xFC]], 2001, 2001, 2001, none⟩)]

/-- 25 degrees are written after that. -/
def later : List (LoopEvent UInt8) :=
  [.call (.write 6 [25]), .call (.poll ⟨[], 2002, 2002, 2002, none⟩), .deliver 5, .deliver 5,
    .deliver 5, .deliver 5, .deliver 5, .deliver 5, .deliver 5,
    .call (.poll ⟨[.ok [0x55, 0x01, 0x06]], 2003, 2003, 2003, none⟩)]

theorem loop_resumes_later :
    ∃ s s', Machine.run (Loop.step heater (setup heater ⟨1000⟩ 10000)) (Loop.start ⟨1000⟩ 0 20) late
        = some s ∧
      Machine.run (Loop.step heater (setup heater ⟨1000⟩ 10000)) s later = some s' ∧
      s.actions.all smooth = false ∧
      (endedSince s.actions s'.actions).map Prod.snd = [.ack 6] ∧
      ∀ (i : Nat) (t : Ticket) (f : ParsedFrame),
        (endedSince s.actions s'.actions)[i]? = some (t, f) →
        Returned heater s' (s.served.length + i) t f := by
  have heq : (Machine.run (Loop.step heater (setup heater ⟨1000⟩ 10000))
        (Loop.start ⟨1000⟩ 0 20) late).bind (fun s =>
          (Machine.run (Loop.step heater (setup heater ⟨1000⟩ 10000)) s later).map fun s' =>
            (s.actions.all smooth, (s.client.pending.isNone, s.line, s.wire),
              (s'.actions.drop s.actions.length).all smooth,
              (endedSince s.actions s'.actions).map Prod.snd))
      = some (false, (true, [], []), true, [.ack 6]) := by
    decide +kernel
  obtain ⟨s, hs, heq⟩ := Option.bind_eq_some_iff.mp heq
  obtain ⟨s', hs', h⟩ := Option.map_eq_some_iff.mp heq
  simp only [Prod.mk.injEq] at h
  obtain ⟨hrough, ⟨hpending, hline, hwire⟩, hsmooth, hended⟩ := h
  have hsince : s'.actions = s.actions ++ s'.actions.drop s.actions.length :=
    (List.prefix_iff_eq_append.mp (run_actions hs')).symm
  have hpolite : Polite heater s' := fun x _ => heater_fits x.1 x.2
  exact ⟨s, s', hs, hs', hrough, hended,
    (loop_resumes (by decide) hs ⟨Option.isNone_iff_eq_none.mp hpending, hline, hwire⟩ hs' hpolite
      hsince (List.all_eq_true.mp hsmooth)).2.1⟩

end Thermostat

end ProtoEmb.System
