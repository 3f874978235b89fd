import ProtoEmb.System.Matching

/-!
# Request and reply in step

`client.rs` writes the next request when nothing is pending. So without timeouts and transport
errors there is never more than one request under way, so
the replies of the device come in the order of the requests and each ends its own. The
books say which request was ended by which frame (`ended`); `InStep` says that those are
all the requests but the pending one, and all the replies that were handled.

The device runs ahead of the client: it may have sent the reply to the pending request, and
nothing more (`Aligned`).
-/

namespace ProtoEmb.System

open ProtoEmb.Framing ProtoEmb.Client ProtoEmb.Device

/-- Neither a timeout nor a transport error. -/
def smooth : Client.Action → Bool
  | .expire _ _ => false
  | .write _ _ (some _) => false
  | .readError _ => false
  | _ => true

def isReply : ParsedFrame → Bool
  | .notification _ => false
  | _ => true

/-- The requests that a reply has ended, each with its reply. -/
def ended (l : Ledger) : List (Ticket × ParsedFrame) :=
  l.settled.filterMap fun s =>
    match s.fate with
    | .ended f => some (s.ticket, f)
    | _ => none

/-- The requests sent are those that were ended and the pending one; the replies handled are
those that ended them. -/
structure InStep (pre : List Client.Action) : Prop where
  sent_eq : (ledger pre).sent
    = (ended (ledger pre)).map Prod.fst ++ ((ledger pre).pending.map Prod.fst).toList
  handled_eq : (handled pre).filter isReply = (ended (ledger pre)).map Prod.snd
  events : ∀ f event, .frame f event ∈ pre → event = eventOf f

/-- The answers of the device and the requests they were made for. -/
def answers (replies : List Reply) : List (ParsedFrame × Nat) :=
  replies.filterMap fun r => r.origin.map fun i => (r.frame, i)

variable {env : Setup} {pre : List Client.Action} {l : Ledger}

theorem ended_append (settled more : List Settled) :
    ended { l with settled := settled ++ more }
      = ended { l with settled } ++ ended { l with settled := more } :=
  List.filterMap_append

/-- A proper request is ended by what its operation expects. -/
theorem ends_of_answers {frame : List UInt8} {expect : ExpectedReply} {f : ParsedFrame}
    (hproper : env.Proper frame expect) (h : env.answers frame f = true) :
    ends (commandOf frame) expect f = true := by
  cases f with
  | nack cmd =>
    simp only [ends, Setup.answers, decide_eq_true_eq] at h ⊢
    exact h.symm
  | ack cmd =>
    simp only [ends, Setup.answers, decide_eq_true_eq] at h ⊢
    obtain ⟨hcmd, hwrite, hack⟩ := h
    rw [Setup.Proper, if_neg (by rw [hwrite]; exact Bool.false_ne_true), ← hcmd] at hproper
    exact ⟨hcmd.symm, hproper .ack hack⟩
  | data cmd payload =>
    simp only [ends, Setup.answers, decide_eq_true_eq] at h ⊢
    obtain ⟨hcmd, hkind⟩ := h
    refine ⟨hcmd.symm, ?_⟩
    rw [Setup.Proper] at hproper
    split at hproper
    next => exact hproper
    next hwrite =>
      rw [← hcmd] at hproper
      exact hproper .data (hkind.resolve_left hwrite)
  | notification payload => cases h

/-! ## One action -/

theorem inStep_nil : InStep [] := ⟨rfl, rfl, nofun⟩

/-- An action that ends no request and sends none. -/
theorem InStep.same (h : InStep pre) {a : Client.Action}
    (hended : ended ((ledger pre).step a) = ended (ledger pre))
    (hsent : ((ledger pre).step a).sent = (ledger pre).sent)
    (hpending : ((ledger pre).step a).pending = (ledger pre).pending)
    (hhandled : (handled [a]).filter isReply = [])
    (hevent : ∀ f event, a = .frame f event → event = eventOf f) : InStep (pre ++ [a]) := by
  refine ⟨?_, ?_, fun f event hmem => ?_⟩
  · rw [ledger_concat, hended, hsent, hpending]
    exact h.sent_eq
  · rw [ledger_concat, hended, handled_append, List.filter_append, hhandled, List.append_nil]
    exact h.handled_eq
  · rcases List.mem_append.mp hmem with hmem | hmem
    · exact h.events f event hmem
    · exact hevent f event (List.mem_singleton.mp hmem).symm

theorem InStep.push (h : InStep pre) (msg : QueuedMessage) : InStep (pre ++ [.push msg]) := by
  have hreplaced : ∀ olds : List Ticket, ended { ledger pre with
      settled := olds.map fun old => ⟨old, .replaced (ledger pre).next, (ledger pre).seen⟩ } = [] :=
    fun olds => by
      rw [ended, List.filterMap_map]
      exact List.filterMap_eq_nil_iff.mpr fun _ _ => rfl
  have hpush : ended ((ledger pre).push msg) = ended (ledger pre) ∧
      ((ledger pre).push msg).sent = (ledger pre).sent ∧
      ((ledger pre).push msg).pending = (ledger pre).pending := by
    unfold Ledger.push
    cases msg.priority with
    | high =>
      refine ⟨?_, rfl, rfl⟩
      rw [← List.append_nil (ended (ledger pre)), ← hreplaced]
      exact ended_append _ _
    | low =>
      refine ⟨?_, rfl, rfl⟩
      rw [← List.append_nil (ended (ledger pre)), ← hreplaced]
      exact ended_append _ _
  exact h.same hpush.1 hpush.2.1 hpush.2.2 rfl nofun

theorem InStep.clear (h : InStep pre) : InStep (pre ++ [.clear]) := by
  have hcleared : ∀ ts : List Ticket, ended { ledger pre with
      settled := ts.map fun t => ⟨t, .cleared, (ledger pre).seen⟩ } = [] := fun ts => by
    rw [ended, List.filterMap_map]
    exact List.filterMap_eq_nil_iff.mpr fun _ _ => rfl
  refine h.same ?_ rfl rfl rfl nofun
  rw [← List.append_nil (ended (ledger pre)), ← hcleared]
  exact ended_append _ _

/-- A request is sent: nothing was pending. -/
theorem InStep.write (h : InStep pre) {t : Ticket} {l' : Ledger} {bytes : List UInt8} {now : Nat}
    (hpending : (ledger pre).pending = none) (hpop : (ledger pre).pop = some (t, l')) :
    InStep (pre ++ [.write bytes now none]) := by
  obtain ⟨hl', _⟩ := Ledger.pop_spec hpop
  have hstep : (ledger pre).step (.write bytes now none)
      = { l' with pending := some (t, now), sent := l'.sent ++ [t]
                  seen := (ledger pre).seen + 1 } := by
    unfold Ledger.step Ledger.enact
    simp only [hpop]
  have hended : ended ((ledger pre).step (.write bytes now none)) = ended (ledger pre) := by
    rw [hstep, hl']
    rfl
  refine ⟨?_, ?_, fun f event hmem => ?_⟩
  · rw [ledger_concat, hended, hstep]
    have hsent := h.sent_eq
    rw [hpending, Option.map_none, Option.toList_none, List.append_nil] at hsent
    show l'.sent ++ [t] = _ ++ [t]
    rw [← hsent, hl']
  · rw [ledger_concat, hended, handled_append, List.filter_append]
    show _ ++ [] = _
    rw [List.append_nil]
    exact h.handled_eq
  · rcases List.mem_append.mp hmem with hmem | hmem
    · exact h.events f event hmem
    · cases List.mem_singleton.mp hmem

/-- A reply ends the pending request. -/
theorem InStep.reply (h : InStep pre) {t : Ticket} {sentAt : Nat} {f : ParsedFrame}
    (hpending : (ledger pre).pending = some (t, sentAt)) (hreply : isReply f = true)
    (hends : ends (commandOf t.1.frame) t.1.expect f = true) :
    InStep (pre ++ [.frame f (eventOf f)]) := by
  have hstep : (ledger pre).step (.frame f (eventOf f))
      = { Ledger.settle { ledger pre with pending := none } t (.ended f) with
            seen := (ledger pre).seen + 1 } := by
    have hends' : ends (t.1.frame.getD 2 0) t.1.expect f = true := hends
    unfold Ledger.step Ledger.enact
    simp only [hpending, hends', if_true]
  have hended : ended ((ledger pre).step (.frame f (eventOf f)))
      = ended (ledger pre) ++ [(t, f)] := by
    rw [hstep]
    exact ended_append _ _
  refine ⟨?_, ?_, fun g event hmem => ?_⟩
  · have hsent := h.sent_eq
    rw [hpending] at hsent
    rw [ledger_concat, hended, hstep]
    show (ledger pre).sent = _ ++ []
    rw [hsent, List.map_append, List.append_nil]
    rfl
  · rw [ledger_concat, hended, handled_append, List.filter_append, h.handled_eq, List.map_append]
    congr 1
    show List.filter isReply [f] = [f]
    rw [List.filter_singleton, hreply]
    rfl
  · rcases List.mem_append.mp hmem with hmem | hmem
    · exact h.events g event hmem
    · cases List.mem_singleton.mp hmem
      rfl

theorem InStep.notification (h : InStep pre) (payload : Payload) :
    InStep (pre ++ [.frame (.notification payload) (.notification payload)]) := by
  have hsame : (ledger pre).enact (.frame (.notification payload) (.notification payload))
      = ledger pre := by
    cases hp : (ledger pre).pending with
    | none => simp only [Ledger.enact, hp]
    | some p => simp [Ledger.enact, hp, ends]
  refine h.same ?_ ?_ ?_ rfl ?_
  · rw [Ledger.step, hsame]
    rfl
  · rw [Ledger.step, hsame]
  · rw [Ledger.step, hsame]
  · intro f event heq
    cases heq
    rfl

/-! ## One step of the client, with the replies that are there -/

/-- What is known while the client is in a call: the answers the device has made are those to
the first requests, in order. -/
structure Aligned (env : Setup) (replies : List Reply) (reqs : List (List UInt8)) : Prop where
  order : (answers replies).map Prod.snd = List.range (answers replies).length
  made : ∀ (i : Nat) (f : ParsedFrame), (answers replies)[i]? = some (f, i) →
    ∃ req, reqs[i]? = some req ∧ env.answers req f = true
  frames : (replies.map Reply.frame).filter isReply = (answers replies).map Prod.fst

/-- The answer with number `i` is to request `i`. -/
theorem Aligned.get {replies : List Reply} {reqs : List (List UInt8)} (h : Aligned env replies reqs)
    {i : Nat} {f : ParsedFrame} (hf : ((answers replies).map Prod.fst)[i]? = some f) :
    (answers replies)[i]? = some (f, i) := by
  rw [List.getElem?_map, Option.map_eq_some_iff] at hf
  rcases hf with ⟨⟨g, j⟩, hget, rfl⟩
  have hj : ((answers replies).map Prod.snd)[i]? = some j := by rw [List.getElem?_map, hget]; rfl
  have hlt := (List.getElem?_eq_some_iff.mp hget).1
  rw [h.order, List.getElem?_range hlt] at hj
  rw [hget, Option.some.inj hj]

/-- The state of a step and what has been done before it. -/
structure During (env : Setup) (replies : List Reply) (start final pre : List Client.Action)
    (c : ProtoEmb.Client) : Prop where
  steps : Steps (withConfig env.config) pre c
  extends_start : start <+: pre
  inStep : pre <+: final → InStep pre

theorem prefix_handled {pre final : List Client.Action} (h : pre <+: final) :
    handled pre <+: handled final := by
  obtain ⟨post, rfl⟩ := h
  rw [handled_append]
  exact List.prefix_append _ _

/-- The answer that is handled next is to the pending request. -/
theorem During.pending {replies : List Reply} {start final : List Client.Action}
    {c : ProtoEmb.Client} (halign : Aligned env replies (requests start))
    (hdeliver : handled final <+: replies.map Reply.frame)
    (h : During env replies start final pre c) (hin : InStep pre) {f : ParsedFrame} {event : Event}
    (hfinal : pre ++ [.frame f event] <+: final) (hreply : isReply f = true) :
    ∃ t sentAt, (ledger pre).pending = some (t, sentAt) ∧ env.answers t.1.frame f = true := by
  have hbooked := steps_booked h.steps
  have hnext : ((answers replies).map Prod.fst)[(ended (ledger pre)).length]? = some f := by
    obtain ⟨rest, hrest⟩ := ((prefix_handled hfinal).trans hdeliver).filter isReply
    rw [handled_append, List.filter_append, hin.handled_eq] at hrest
    have hone : (handled [Client.Action.frame f event]).filter isReply = [f] := by
      show List.filter isReply [f] = [f]
      rw [List.filter_singleton, hreply]
      rfl
    rw [← halign.frames, ← hrest, hone]
    simp
  obtain ⟨req, hreq, hans⟩ := halign.made _ f (halign.get hnext)
  -- the request is the last one that was sent
  have hsent : (requests pre)[(ended (ledger pre)).length]? = some req := by
    obtain ⟨more, rfl⟩ := h.extends_start
    rw [Ledger.requests_append, List.getElem?_append_left (List.getElem?_eq_some_iff.mp hreq).1,
      hreq]
  rw [hbooked.accounted.requests_eq, hin.sent_eq, List.map_append, List.map_map,
    List.getElem?_append_right (by simp), List.length_map, Nat.sub_self] at hsent
  cases hp : (ledger pre).pending with
  | none =>
    rw [hp] at hsent
    cases hsent
  | some p =>
    rw [hp] at hsent
    obtain ⟨t, sentAt⟩ := p
    refine ⟨t, sentAt, rfl, ?_⟩
    rw [show t.1.frame = req from Option.some.inj hsent]
    exact hans

/-- **One step of the client** keeps the link in step. -/
theorem During.step {replies : List Reply} {start final actions : List Client.Action}
    {c c' : ProtoEmb.Client} (halign : Aligned env replies (requests start))
    (hdeliver : handled final <+: replies.map Reply.frame)
    (hsmooth : ∀ a ∈ final, smooth a = true)
    (hproper : ∀ msg ∈ pushes final, env.Proper msg.frame msg.expect)
    (h : During env replies start final pre c) (hstep : Step c actions c') :
    During env replies start final (pre ++ actions) c' := by
  refine ⟨h.steps.trans hstep.steps, h.extends_start.trans (List.prefix_append _ _),
    fun hfinal => ?_⟩
  have hin := h.inStep ((List.prefix_append _ _).trans hfinal)
  have hbooked := steps_booked h.steps
  have hall : ∀ a ∈ actions, smooth a = true := fun a ha =>
    hsmooth a (hfinal.subset (List.mem_append_right _ ha))
  cases hstep with
  -- what touches neither the request on its way nor the queue
  | parse | schedule => rwa [List.append_nil]
  | push msg => exact hin.push msg
  | clear => exact hin.clear
  | register | clearAll => exact hin.same rfl rfl rfl rfl nofun
  | readError error => cases hall _ (List.mem_singleton.mpr rfl)
  | expire => cases hall _ (List.mem_singleton.mpr rfl)
  | write now error hp hpop =>
    cases error with
    | some e => cases hall _ (List.mem_singleton.mpr rfl)
    | none =>
      obtain ⟨t, l', hl, _⟩ := hbooked.matched.pop hpop
      have hpend := hbooked.matched.pending
      rw [hp] at hpend
      exact hin.write (Option.map_eq_none_iff.mp hpend.symm) hl
  | frame hf =>
    rename_i f event
    -- a notification answers nothing; any other frame answers the request on its way
    cases hreply : isReply f with
    | false =>
      cases f with
      | notification payload =>
        cases hf
        exact hin.notification payload
      | nack | ack | data => cases hreply
    | true =>
      obtain ⟨t, sentAt, hpend, hans⟩ := h.pending halign hdeliver hin hfinal hreply
      have hpushed : t ∈ (pushes pre).zipIdx :=
        hbooked.accounted.perm.mem_iff.mp (by simp [Ledger.tickets, hpend])
      have hends := ends_of_answers (hproper t.1 ?_) hans
      · -- so the frame is reported as what it is
        rcases (handleFrame_spec hf).2 with rfl | ⟨p, m, hp, hkeeps, _⟩
        · exact hin.reply hpend hreply hends
        · rw [hbooked.matched.pending, hpend] at hp
          cases hp
          exact absurd hends (Bool.eq_false_iff.mp hkeeps)
      · obtain ⟨post, rfl⟩ := (List.prefix_append _ _).trans hfinal
        rw [Ledger.pushes_append]
        exact List.mem_append_left _
          (List.mem_of_getElem? (List.mem_zipIdx_iff_getElem?.mp hpushed))

/-! ## Runs -/

/-- What holds along a run: as long as it is smooth, the client is in step and the answers of
the device are in the order of the requests. -/
structure Together (env : Setup) (s : Link) : Prop where
  linked : Linked env s
  inStep : (∀ a ∈ s.actions, smooth a = true) →
    InStep s.actions ∧ (answers s.replies).map Prod.snd = List.range (answers s.replies).length

variable {s s' : Link}

theorem answers_append (replies more : List Reply) :
    answers (replies ++ more) = answers replies ++ answers more :=
  List.filterMap_append

theorem mem_answers {replies : List Reply} {f : ParsedFrame} {i : Nat} :
    (f, i) ∈ answers replies ↔ ⟨f, some i⟩ ∈ replies := by
  constructor
  · intro h
    rcases List.mem_filterMap.mp h with ⟨⟨g, origin⟩, hr, heq⟩
    rcases Option.map_eq_some_iff.mp heq with ⟨j, rfl, hpair⟩
    cases hpair
    exact hr
  · exact fun h => List.mem_filterMap.mpr ⟨_, h, rfl⟩

/-- A reply has a request, a notification has none. -/
theorem Linked.isReply_iff (h : Linked env s) {r : Reply} (hr : r ∈ s.replies) :
    isReply r.frame = r.origin.isSome := by
  rcases h.answered r hr with ⟨payload, rfl⟩ | ⟨i, _, ho, req, _, hans⟩
  · rfl
  · rw [ho]
    cases hf : r.frame with
    | notification payload =>
      rw [hf] at hans
      cases hans
    | nack | ack | data => rfl

theorem Linked.frames (h : Linked env s) :
    (s.replies.map Reply.frame).filter isReply = (answers s.replies).map Prod.fst := by
  have hall : ∀ replies : List Reply, (∀ r ∈ replies, isReply r.frame = r.origin.isSome) →
      (replies.map Reply.frame).filter isReply = (answers replies).map Prod.fst := by
    intro replies
    induction replies with
    | nil => exact fun _ => rfl
    | cons r replies ih =>
      intro hr
      obtain ⟨hhead, hrest⟩ := List.forall_mem_cons.mp hr
      rw [List.map_cons, List.filter_cons, ih hrest, hhead]
      cases ho : r.origin with
      | none => simp [answers, ho]
      | some i => simp [answers, ho]
  exact hall s.replies fun r hr => h.isReply_iff hr

theorem Linked.aligned (h : Linked env s)
    (horder : (answers s.replies).map Prod.snd = List.range (answers s.replies).length) :
    Aligned env s.replies (requests s.actions) where
  order := horder
  made i f hf := by
    have hr := mem_answers.mp (List.mem_of_getElem? hf)
    rcases h.answered _ hr with ⟨payload, hn⟩ | ⟨j, _, ho, req, hreq, hans⟩
    · cases hn
    · cases ho
      exact ⟨req, hreq, hans⟩
  frames := h.frames

/-- A request that the device may still answer is the one after those it has answered. -/
theorem Together.next (h : Together env s) (hin : InStep s.actions)
    (horder : (answers s.replies).map Prod.snd = List.range (answers s.replies).length) {i : Nat}
    (hi : i < s.received) (hfree : ∀ r ∈ s.replies, r.origin ≠ some i) :
    i = (answers s.replies).length := by
  have hle : (ended (ledger s.actions)).length ≤ (answers s.replies).length := by
    have hdel := (h.linked.delivered.filter isReply).length_le
    rw [hin.handled_eq, h.linked.frames, List.length_map, List.length_map] at hdel
    exact hdel
  have hsent : (requests s.actions).length ≤ (ended (ledger s.actions)).length + 1 := by
    rw [(steps_booked h.linked.steps).accounted.requests_eq, List.length_map, hin.sent_eq,
      List.length_append, List.length_map]
    cases (ledger s.actions).pending <;> simp
  have hrecv := h.linked.received_le
  have hge : (answers s.replies).length ≤ i := by
    by_contra hlt
    have hmem : i ∈ (answers s.replies).map Prod.snd := by
      rw [horder, List.mem_range]
      omega
    rcases List.mem_map.mp hmem with ⟨⟨f, j⟩, hj, rfl⟩
    exact hfree _ (mem_answers.mp hj) rfl
  omega

/-- **One move.** -/
theorem Together.step (h : Together env s) {m : Move} (hm : s.step env m = some s') :
    Together env s' := by
  refine ⟨h.linked.step hm, fun hsmooth => ?_⟩
  have hlinked := h.linked.step hm
  cases m with
  | call op =>
    simp only [Link.step] at hm
    split at hm
    next =>
      simp only [Option.bind_eq_bind, Option.bind_eq_some_iff, Option.pure_def,
        Option.some.injEq] at hm
      obtain ⟨⟨client, actions⟩, hcall, rfl⟩ := hm
      obtain ⟨hin, horder⟩ := h.inStep fun a ha => hsmooth a (List.mem_append_left _ ha)
      -- the steps of the call, one after the other
      have hduring := Steps.invariant
        (During env s.replies s.actions (s.actions ++ actions))
        (During.step (h.linked.aligned horder) hlinked.delivered hsmooth hlinked.proper)
        (call_steps hcall) ⟨h.linked.steps, List.prefix_refl _, fun _ => hin⟩
      exact ⟨hduring.inStep (List.prefix_refl _), horder⟩
    next => cases hm
  | receive =>
    simp only [Link.step] at hm
    split at hm
    · cases hm
      exact h.inStep hsmooth
    · cases hm
  | reply request frame =>
    simp only [Link.step] at hm
    split at hm
    next hok =>
      obtain ⟨hi, hfree, _⟩ := hok
      cases hm
      obtain ⟨hin, horder⟩ := h.inStep hsmooth
      -- the device answers the next request in line
      refine ⟨hin, ?_⟩
      rw [answers_append, List.map_append, horder, List.length_append]
      show _ ++ [request] = List.range (_ + 1)
      rw [List.range_succ, h.next hin horder hi hfree]
    next => cases hm
  | notify payload =>
    simp only [Link.step] at hm
    split at hm
    · cases hm
      obtain ⟨hin, horder⟩ := h.inStep hsmooth
      have hsame : answers (s.replies ++ [⟨.notification payload, none⟩]) = answers s.replies := by
        rw [answers_append]
        exact List.append_nil _
      rw [hsame]
      exact ⟨hin, horder⟩
    · cases hm

theorem run_together :
    ∀ {moves : List Move} {s s' : Link}, Together env s → s.run env moves = some s' →
      Together env s' := by
  intro moves
  induction moves with
  | nil =>
    intro s s' h hrun
    cases hrun
    exact h
  | cons m moves ih =>
    intro s s' h hrun
    simp only [Link.run, Option.bind_eq_bind, Option.bind_eq_some_iff] at hrun
    obtain ⟨s₁, hm, hrest⟩ := hrun
    exact ih (h.step hm) hrest

theorem together_start (env : Setup) : Together env (Link.start env) :=
  ⟨linked_start env, fun _ => ⟨inStep_nil, rfl⟩⟩

/-- **Request and reply in step.** In every run without timeouts and transport errors: all
requests written but the pending one have been ended, in order, and the `i`-th of them by the
answer that the device made to it; no error is reported; every reply that arrives is handled
once, in order, and reported as what it is, and when nothing is under way all have arrived;
and whatever the state of the client, a notification leaves it as it is. -/
theorem replies_in_step {moves : List Move} (hrun : (Link.start env).run env moves = some s)
    (hsmooth : ∀ a ∈ s.actions, smooth a = true) :
    (requests s.actions = ((ended (ledger s.actions)).map fun e => e.1.1.frame)
      ++ (s.client.pending.map PendingRequest.frame).toList) ∧
    (∀ (i : Nat) (t : Ticket) (f : ParsedFrame), (ended (ledger s.actions))[i]? = some (t, f) →
      (requests s.actions)[i]? = some t.1.frame ∧ (answers s.replies)[i]? = some (f, i)) ∧
    (∀ a ∈ s.actions, ∀ m, a.event? ≠ some (.error m)) ∧
    (∀ f event, .frame f event ∈ s.actions → event = eventOf f) ∧
    (handled s.actions <+: s.replies.map Reply.frame ∧
      (s.wire = [] → handled s.actions = s.replies.map Reply.frame)) ∧
    (∀ (c : ProtoEmb.Client) payload,
      c.handleFrame (.notification payload) = some (c, .notification payload)) := by
  have h := run_together (together_start env) hrun
  obtain ⟨hin, horder⟩ := h.inStep hsmooth
  have hbooked := steps_booked h.linked.steps
  have hsent : requests s.actions = ((ended (ledger s.actions)).map fun e => e.1.1.frame)
      ++ (s.client.pending.map PendingRequest.frame).toList := by
    -- every request was sent, and is pending or ended
    rw [hbooked.accounted.requests_eq, hin.sent_eq, List.map_append, List.map_map,
      hbooked.matched.pending]
    congr 1
    cases (ledger s.actions).pending <;> rfl
  refine ⟨hsent, fun i t f hi => ⟨?_, ?_⟩, fun a ha m hm => ?_, hin.events,
    ⟨h.linked.delivered, h.linked.delivered_all⟩, fun _ _ => rfl⟩
  · rw [hsent, List.getElem?_append_left, List.getElem?_map, hi]
    · rfl
    · rw [List.length_map]
      exact (List.getElem?_eq_some_iff.mp hi).1
  · apply (h.linked.aligned horder).get
    obtain ⟨rest, hrest⟩ := h.linked.delivered.filter isReply
    rw [hin.handled_eq, h.linked.frames] at hrest
    rw [← hrest, List.getElem?_append_left, List.getElem?_map, hi]
    · rfl
    · rw [List.length_map]
      exact (List.getElem?_eq_some_iff.mp hi).1
  · -- the only other actions with an error are the ones a smooth run does not have
    cases a with
    | frame f event =>
      rw [hin.events f event ha] at hm
      cases f <;> cases hm
    | write bytes now error =>
      cases error with
      | none => cases hm
      | some e => cases hsmooth _ ha
    | readError error => cases hsmooth _ ha
    | expire now bytes => cases hm
    | push | clear | register | clearAll => cases hm

/-- A read and a write with a notification between the request and the reply, the bytes cut
inside the frames. -/
def exchange : List Move :=
  [.call (.read 5 .high none), .call (.write 6 [1]), .call (.poll ⟨[], 0, 0, 0, none⟩), .receive,
    .notify [9], .reply 0 (.data 5 [7]),
    .call (.poll ⟨[.ok [0x55, 0x03, 0x00, 0x01, 0x00, 0x09, 0x9C, 0x55, 0x02]], 1, 1, 1, none⟩),
    .call (.poll ⟨[.ok [0x05, 0x01, 0x00, 0x07, 0x83]], 2, 2, 2, none⟩), .receive,
    .reply 1 (.ack 6), .call (.poll ⟨[.ok [0x55, 0x01, 0x06]], 3, 3, 3, none⟩)]

theorem replies_in_step_exchange :
    ∃ s, (Link.start plain).run plain exchange = some s ∧
      (ended (ledger s.actions)).map Prod.snd = [.data 5 [7], .ack 6] ∧
      (answers s.replies)[0]? = some (.data 5 [7], 0) ∧
      (answers s.replies)[1]? = some (.ack 6, 1) := by
  have hrun : ((Link.start plain).run plain exchange).map
      (fun s => (s.actions.all smooth, (ended (ledger s.actions)).map Prod.snd))
      = some (true, [.data 5 [7], .ack 6]) := by
    decide +kernel
  obtain ⟨s, hs, heq⟩ := Option.map_eq_some_iff.mp hrun
  obtain ⟨hsmooth, hended⟩ := Prod.mk.inj heq
  have hget := (replies_in_step hs (List.all_eq_true.mp hsmooth)).2.1
  have hat : ∀ (i : Nat) (f : ParsedFrame), ((ended (ledger s.actions)).map Prod.snd)[i]? = some f →
      (answers s.replies)[i]? = some (f, i) := by
    intro i f hi
    rw [List.getElem?_map, Option.map_eq_some_iff] at hi
    rcases hi with ⟨⟨t, g⟩, hi, rfl⟩
    exact (hget i t g hi).2
  rw [hended] at hat
  exact ⟨s, hs, hended, hat 0 _ rfl, hat 1 _ rfl⟩

end ProtoEmb.System
