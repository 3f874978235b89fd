import Mathlib.Data.List.Nodup
import ProtoEmb.Client.Client
import ProtoEmb.Lib.Grid

/-!
# The schedule of the periodic reads

`enqueue_periodic_at` of `client.rs` moves each registration on by itself (`PeriodicEntry.tick`),
and what it does to one is what a poll does to a grid of due points. `call_periodic` says what
every call of the client does to the registrations, so in any run the reads of a registration are
those of its grid, whatever else is registered and called meanwhile.
-/

namespace ProtoEmb.Client

open ProtoEmb.Framing ProtoEmb.Lib

variable {lastInstant : Nat}

/-! ## One registration -/

/-- The poll of the grid of a registration. -/
def PeriodicEntry.poll (entry : PeriodicEntry) (now : Nat) : Grid.Poll :=
  Grid.poll entry.interval entry.nextDue now

/-- The registration after `enqueue_periodic_at(now)`. -/
def PeriodicEntry.tick (now : Nat) (entry : PeriodicEntry) : PeriodicEntry :=
  { entry with nextDue := some (entry.poll now).due }

/-- The registration after all polls at these times. -/
def PeriodicEntry.after (times : List Nat) (entry : PeriodicEntry) : PeriodicEntry :=
  { entry with nextDue := Grid.last entry.interval entry.nextDue times }

theorem PeriodicEntry.after_cons (entry : PeriodicEntry) (now : Nat) (times : List Nat) :
    entry.after (now :: times) = (entry.tick now).after times := by
  unfold PeriodicEntry.after
  rw [Grid.last_cons]
  rfl

theorem PeriodicEntry.due_eq (entry : PeriodicEntry) (now : Nat) :
    entry.due now = (entry.poll now).read := by
  unfold PeriodicEntry.due PeriodicEntry.poll Grid.poll
  cases entry.nextDue with
  | none => rfl
  | some n =>
    by_cases hearly : now < n
    · simp [hearly]
    · simp [hearly, Nat.le_of_not_lt hearly]

/-- Before its due point a registration stays as it is. -/
theorem PeriodicEntry.tick_early {entry : PeriodicEntry} {now : Nat}
    (h : ¬ entry.due now = true) : entry.tick now = entry := by
  obtain ⟨command, interval, key, nextDue, timeout⟩ := entry
  cases nextDue with
  | none => exact absurd rfl h
  | some n =>
    have hearly : now < n := by simpa [PeriodicEntry.due] using h
    simp [PeriodicEntry.tick, PeriodicEntry.poll, Grid.poll, hearly]

theorem instantAdd_eq_some {t d r : Nat} (h : instantAdd lastInstant t d = some r) : r = t + d := by
  unfold instantAdd at h
  split at h
  next => exact (Option.some.inj h).symm
  next => cases h

/-- **The schedule moves on as a grid does.** -/
theorem PeriodicEntry.advance_eq {entry entry' : PeriodicEntry} {now : Nat}
    (hdue : entry.due now = true) (h : entry.advance lastInstant now = some entry') :
    entry' = entry.tick now := by
  simp only [PeriodicEntry.advance, Option.bind_eq_some_iff, Option.map_eq_some_iff] at h
  obtain ⟨next, hnext, due, hlate, rfl⟩ := h
  have htick : due = (entry.poll now).due := by
    unfold PeriodicEntry.next at hnext
    unfold PeriodicEntry.due at hdue
    unfold PeriodicEntry.poll
    cases hn : entry.nextDue with
    | none =>
      simp only [hn, Option.some.injEq] at hnext
      subst hnext
      rw [if_pos (Nat.le_refl _)] at hlate
      rw [instantAdd_eq_some hlate]
      rfl
    | some n =>
      simp only [hn] at hnext hdue
      have hge : ¬ now < n := Nat.not_lt.mpr (of_decide_eq_true hdue)
      obtain rfl := instantAdd_eq_some hnext
      simp only [Grid.poll, if_neg hge]
      split at hlate
      next hpast =>
        rw [instantAdd_eq_some hlate, if_pos hpast]
      next hahead =>
        rw [if_neg hahead]
        exact (Option.some.inj hlate).symm
  rw [htick]
  rfl

/-- **Registrations do not influence each other.** -/
theorem enqueueEntries_tick {now : Nat} :
    ∀ {entries entries' : List PeriodicEntry} {queue queue' : PriorityQueue}
      {actions : List Action},
      enqueueEntries lastInstant now entries queue = some (entries', queue', actions) →
      entries' = entries.map (·.tick now) := by
  intro entries
  induction entries with
  | nil =>
    intro entries' queue queue' actions h
    cases h
    rfl
  | cons entry entries ih =>
    intro entries' queue queue' actions h
    unfold enqueueEntries at h
    split at h
    next hdue =>
      simp only [Option.bind_eq_bind, Option.bind_eq_some_iff, Option.pure_def,
        Option.some.injEq, Prod.mk.injEq] at h
      obtain ⟨entry', hadvance, ⟨_, _, more⟩, hrest, rfl, rfl, rfl⟩ := h
      rw [List.map_cons, PeriodicEntry.advance_eq hdue hadvance, ih hrest]
    next hearly =>
      simp only [Option.bind_eq_bind, Option.bind_eq_some_iff, Option.pure_def,
        Option.some.injEq, Prod.mk.injEq] at h
      obtain ⟨⟨_, _, more⟩, hrest, rfl, rfl, rfl⟩ := h
      rw [List.map_cons, PeriodicEntry.tick_early hearly, ih hrest]

/-- As long as one interval past the poll is an `Instant`, nothing overflows. -/
theorem enqueueEntries_isSome {now : Nat} :
    ∀ {entries : List PeriodicEntry} {queue : PriorityQueue},
      (∀ entry ∈ entries, now + entry.interval ≤ lastInstant) →
      ∃ r, enqueueEntries lastInstant now entries queue = some r := by
  intro entries
  induction entries with
  | nil => exact fun _ => ⟨_, rfl⟩
  | cons entry entries ih =>
    intro queue hroom
    obtain ⟨hentry, hroom⟩ := List.forall_mem_cons.mp hroom
    have hnow : instantAdd lastInstant now entry.interval = some (now + entry.interval) :=
      if_pos hentry
    unfold enqueueEntries
    by_cases hdue : entry.due now = true
    · obtain ⟨entry', hadvance⟩ : ∃ entry', entry.advance lastInstant now = some entry' := by
        unfold PeriodicEntry.due at hdue
        unfold PeriodicEntry.advance PeriodicEntry.next
        cases hn : entry.nextDue with
        | none =>
          simp only [Option.bind_some, Nat.le_refl, ge_iff_le, if_true, hnow]
          exact ⟨_, rfl⟩
        | some n =>
          simp only [hn, decide_eq_true_eq] at hdue
          have hnext : instantAdd lastInstant n entry.interval = some (n + entry.interval) :=
            if_pos (by omega)
          simp only [hnext, Option.bind_some]
          split
          next => rw [hnow]; exact ⟨_, rfl⟩
          next => exact ⟨_, rfl⟩
      obtain ⟨r, hrest⟩ := @ih (queue.push entry.message) hroom
      rw [if_pos hdue, hadvance, Option.bind_eq_bind, Option.bind_some, hrest]
      exact ⟨_, rfl⟩
    · obtain ⟨r, hrest⟩ := @ih queue hroom
      rw [if_neg hdue, hrest]
      exact ⟨_, rfl⟩

/-! ## What a call does to the registrations -/

def Call.schedule : Call → List PeriodicEntry → List PeriodicEntry
  | .registerPeriodic command interval _ responseTimeout, entries =>
    entries.filter (·.command ≠ command) ++ [
      { command, interval, coalesceKey := "periodic_" ++ toString command, nextDue := none,
        responseTimeout }]
  | .unregisterPeriodic command, entries => entries.filter (·.command ≠ command)
  | .poll io, entries => entries.map (·.tick io.enqueueAt)
  | _, entries => entries

theorem tryFlush_periodic (c : Client) (now : Nat) (error : Option String) :
    (c.tryFlush now error).1.periodic = c.periodic := by
  unfold tryFlush
  split
  next => rfl
  next =>
    split
    next => split <;> rfl
    next => rfl

theorem checkTimeout_periodic (c : Client) (now : Nat) :
    (c.checkTimeout now).1.periodic = c.periodic := by
  unfold checkTimeout
  split
  next => split <;> rfl
  next => rfl

theorem tryFlush_writes (c : Client) (now : Nat) (error : Option String) :
    ∀ a ∈ (c.tryFlush now error).2, a.isWrite = true := by
  unfold tryFlush
  split
  next => exact nofun
  next =>
    split
    next => split <;> exact List.forall_mem_singleton.mpr rfl
    next => exact nofun

theorem checkTimeout_expires (c : Client) (now : Nat) :
    ∀ a ∈ (c.checkTimeout now).2, ∃ frame, a = .expire now frame := by
  unfold checkTimeout
  split
  next p _ =>
    split
    next => exact List.forall_mem_singleton.mpr ⟨p.frame, rfl⟩
    next => exact nofun
  next => exact nofun

/-- **What a poll does with the registrations**: the reads that are due are pushed, in the
order of the registrations, and nothing else is. -/
theorem poll_schedule {c c' : Client} {io : PollInput} {actions : List Action}
    (h : c.poll lastInstant io = some (c', actions)) :
    c'.periodic = c.periodic.map (·.tick io.enqueueAt) ∧
      ∃ before after, actions = before ++ (c.periodic.filter (·.due io.enqueueAt)).map
        (fun entry => Action.push entry.message) ++ after ∧
        ∀ msg, .push msg ∉ before ∧ .push msg ∉ after := by
  simp only [poll, Option.bind_eq_bind, Option.bind_eq_some_iff, Option.pure_def,
    Option.some.injEq, Prod.mk.injEq] at h
  obtain ⟨⟨c₁, received⟩, hread, ⟨c₂, pushed⟩, henq, rfl, rfl⟩ := h
  simp only [enqueuePeriodicAt, Option.bind_eq_bind, Option.bind_eq_some_iff, Option.pure_def,
    Option.some.injEq, Prod.mk.injEq] at henq
  obtain ⟨⟨periodic, queue, _⟩, hentries, rfl, rfl⟩ := henq
  obtain ⟨hsame, hreceived⟩ := readLoop_spec hread
  have hperiodic : (c₁.checkTimeout io.checkAt).1.periodic = c.periodic := by
    rw [checkTimeout_periodic, hsame]
  rw [hperiodic] at hentries
  refine ⟨?_, received ++ (c₁.checkTimeout io.checkAt).2,
    (tryFlush { (c₁.checkTimeout io.checkAt).1 with periodic, queue } io.sentAt io.writeError).2,
    ?_, fun msg => ⟨fun hmem => ?_, fun hmem => ?_⟩⟩
  · rw [tryFlush_periodic]
    exact enqueueEntries_tick hentries
  · rw [enqueueEntries_actions hentries]
  · rcases List.mem_append.mp hmem with hmem | hmem
    · rcases hreceived _ hmem with ⟨_, _, heq⟩ | ⟨_, heq⟩ <;> cases heq
    · obtain ⟨_, heq⟩ := checkTimeout_expires _ _ _ hmem
      cases heq
  · cases tryFlush_writes _ _ _ _ hmem

theorem call_periodic {c c' : Client} {op : Call} {actions : List Action}
    (h : c.call lastInstant op = some (c', actions)) : c'.periodic = op.schedule c.periodic := by
  cases op with
  | registerPeriodic command interval storageCount responseTimeout =>
    simp only [call, addPeriodic, Option.bind_eq_bind, Option.bind_eq_some_iff, Option.pure_def,
      Option.some.injEq, Prod.mk.injEq] at h
    obtain ⟨_, ⟨store, _, rfl⟩, rfl, rfl⟩ := h
    rfl
  | registerStore command capacity =>
    simp only [call, Option.bind_eq_bind, Option.bind_eq_some_iff, Option.pure_def,
      Option.some.injEq, Prod.mk.injEq] at h
    obtain ⟨store, _, rfl, rfl⟩ := h
    rfl
  | poll io => exact (poll_schedule h).1
  | _ =>
    cases h
    rfl

/-- What every call does to the registrations, every run keeps. -/
theorem run_periodic {P : List PeriodicEntry → Prop}
    (hstep : ∀ op entries, P entries → P (Call.schedule op entries)) :
    ∀ {ops : List Call} {c c' : Client} {actions : List Action},
      c.run lastInstant ops = some (c', actions) → P c.periodic → P c'.periodic := by
  intro ops
  induction ops with
  | nil =>
    intro c c' actions h hc
    cases h
    exact hc
  | cons op ops ih =>
    intro c c' actions h hc
    simp only [run, Option.bind_eq_bind, Option.bind_eq_some_iff, Option.pure_def,
      Option.some.injEq, Prod.mk.injEq] at h
    obtain ⟨⟨c₁, done⟩, hcall, ⟨c₂, more⟩, hrest, rfl, rfl⟩ := h
    refine ih hrest ?_
    rw [call_periodic hcall]
    exact hstep op _ hc

/-- No command is registered twice. -/
def Distinct (entries : List PeriodicEntry) : Prop := (entries.map PeriodicEntry.command).Nodup

theorem Distinct.filter {entries : List PeriodicEntry} (h : Distinct entries)
    (p : PeriodicEntry → Bool) : Distinct (entries.filter p) :=
  h.sublist (List.filter_sublist.map _)

theorem Distinct.schedule (op : Call) (entries : List PeriodicEntry) (h : Distinct entries) :
    Distinct (op.schedule entries) := by
  cases op with
  | registerPeriodic command interval storageCount responseTimeout =>
    unfold Call.schedule Distinct
    rw [List.map_append]
    refine List.Nodup.append (h.filter _) (List.nodup_singleton command)
      (List.disjoint_singleton.mpr fun hmem => ?_)
    obtain ⟨entry, hentry, heq⟩ := List.mem_map.mp hmem
    exact of_decide_eq_true (List.mem_filter.mp hentry).2 heq
  | unregisterPeriodic command => exact h.filter _
  | poll io =>
    unfold Call.schedule Distinct
    rw [List.map_map]
    exact h
  | _ => exact h

/-! ## The reads of a registration in a run -/

/-- A sequence of calls, and the actions of each. -/
def trace (lastInstant : Nat) (c : Client) :
    List Call → Option (Client × List (Call × List Action))
  | [] => some (c, [])
  | op :: ops => do
    let (c, actions) ← c.call lastInstant op
    let (c, more) ← c.trace lastInstant ops
    return (c, (op, actions) :: more)

/-- When `enqueue_periodic_at` was called. -/
def Call.pollTime? : Call → Option Nat
  | .poll io => some io.enqueueAt
  | _ => none

/-- The polls of a trace, and how often each of them pushed the read of the registration. -/
def pollsOf (entry : PeriodicEntry) (tr : List (Call × List Action)) : List (Nat × Nat) :=
  tr.filterMap fun r => r.1.pollTime?.map fun now => (now, r.2.count (.push entry.message))

/-- The call is about the registration of a command. -/
def Call.registers (command : UInt8) : Call → Bool
  | .registerPeriodic c _ _ _ => c = command
  | .unregisterPeriodic c => c = command
  | _ => false

theorem message_inj {entry entry' : PeriodicEntry} (h : entry.message = entry'.message) :
    entry.command = entry'.command := by
  have hframe := congrArg QueuedMessage.frame h
  simpa [PeriodicEntry.message, buildReadFrame] using hframe

/-- Of all the reads that are due at most one is that of the registration. -/
theorem count_due {entries : List PeriodicEntry} (h : Distinct entries) {entry : PeriodicEntry}
    (hentry : entry ∈ entries) (now : Nat) :
    ((entries.filter (·.due now)).map fun e => Action.push e.message).count (.push entry.message)
      = if (entry.poll now).read then 1 else 0 := by
  have hsame : ∀ e ∈ entries.filter (·.due now),
      (Action.push e.message == .push entry.message) = true ↔ (e == entry) = true := by
    intro e he
    rw [beq_iff_eq, beq_iff_eq]
    refine ⟨fun heq => ?_, fun heq => by rw [heq]⟩
    exact List.inj_on_of_nodup_map h (List.mem_filter.mp he).1 hentry
      (message_inj (Action.push.inj heq))
  rw [List.count, List.countP_map]
  rw [show ((entries.filter (·.due now)).countP
    ((fun a => a == Action.push entry.message) ∘ fun e => Action.push e.message))
      = (entries.filter (·.due now)).count entry from List.countP_congr hsame]
  rw [← PeriodicEntry.due_eq]
  have hnodup : (entries.filter (·.due now)).Nodup := (List.Nodup.of_map _ h).filter _
  split
  next hdue => exact List.count_eq_one_of_mem hnodup (List.mem_filter.mpr ⟨hentry, hdue⟩)
  next hearly => exact List.count_eq_zero.mpr fun hmem => hearly (List.mem_filter.mp hmem).2

/-- A poll moves the registration on, and reads if it is due. -/
theorem poll_entry {c c' : Client} {io : PollInput} {actions : List Action}
    {entry : PeriodicEntry} (h : c.poll lastInstant io = some (c', actions))
    (hdistinct : Distinct c.periodic) (hentry : entry ∈ c.periodic) :
    entry.tick io.enqueueAt ∈ c'.periodic ∧
      actions.count (.push entry.message) = if (entry.poll io.enqueueAt).read then 1 else 0 := by
  obtain ⟨hperiodic, before, after, rfl, hnone⟩ := poll_schedule h
  refine ⟨?_, ?_⟩
  · rw [hperiodic]
    exact List.mem_map_of_mem hentry
  · obtain ⟨hbefore, hafter⟩ := hnone entry.message
    rw [List.count_append, List.count_append, List.count_eq_zero.mpr hbefore,
      List.count_eq_zero.mpr hafter, count_due hdistinct hentry, Nat.zero_add, Nat.add_zero]

/-- Any other call leaves it as it is. -/
theorem call_entry {c c' : Client} {op : Call} {actions : List Action} {entry : PeriodicEntry}
    (h : c.call lastInstant op = some (c', actions)) (hentry : entry ∈ c.periodic)
    (hpoll : op.pollTime? = none) (hop : op.registers entry.command = false) :
    entry ∈ c'.periodic := by
  rw [call_periodic h]
  cases op with
  | registerPeriodic command interval storageCount responseTimeout =>
    have hother : entry.command ≠ command := fun heq => of_decide_eq_false hop heq.symm
    exact List.mem_append_left _ (List.mem_filter.mpr ⟨hentry, decide_eq_true hother⟩)
  | unregisterPeriodic command =>
    have hother : entry.command ≠ command := fun heq => of_decide_eq_false hop heq.symm
    exact List.mem_filter.mpr ⟨hentry, decide_eq_true hother⟩
  | poll io => cases hpoll
  | _ => exact hentry

/-- **In any run a registration is read on its own grid**, whatever else is registered. -/
theorem trace_polls :
    ∀ {ops : List Call} {c c' : Client} {tr : List (Call × List Action)} {entry : PeriodicEntry},
      c.trace lastInstant ops = some (c', tr) → Distinct c.periodic → entry ∈ c.periodic →
      (∀ op ∈ ops, op.registers entry.command = false) →
      pollsOf entry tr
        = (Grid.polls entry.interval entry.nextDue (ops.filterMap Call.pollTime?)).map
          (fun p => (p.now, if p.read then 1 else 0)) ∧
      entry.after (ops.filterMap Call.pollTime?) ∈ c'.periodic := by
  intro ops
  induction ops with
  | nil =>
    intro c c' tr entry h _ hentry _
    cases h
    exact ⟨rfl, hentry⟩
  | cons op ops ih =>
    intro c c' tr entry h hdistinct hentry hops
    obtain ⟨hop, hlater⟩ := List.forall_mem_cons.mp hops
    simp only [trace, Option.bind_eq_bind, Option.bind_eq_some_iff, Option.pure_def,
      Option.some.injEq, Prod.mk.injEq] at h
    obtain ⟨⟨c₁, actions⟩, hcall, ⟨c₂, more⟩, hrest, rfl, rfl⟩ := h
    have hdistinct₁ : Distinct c₁.periodic := by
      rw [call_periodic hcall]
      exact hdistinct.schedule op _
    -- only a poll moves the due point
    cases hpoll : op.pollTime? with
    | none =>
      have hentry₁ := call_entry hcall hentry hpoll hop
      obtain ⟨hpolls, hlast⟩ := ih hrest hdistinct₁ hentry₁ hlater
      rw [List.filterMap_cons_none hpoll]
      refine ⟨?_, hlast⟩
      rw [← hpolls, pollsOf, List.filterMap_cons_none (by simp [hpoll]), pollsOf]
    | some now =>
      obtain ⟨io, rfl, rfl⟩ : ∃ io, op = .poll io ∧ io.enqueueAt = now := by
        cases op with
        | poll io => exact ⟨io, rfl, Option.some.inj hpoll⟩
        | _ => cases hpoll
      obtain ⟨hentry₁, hcount⟩ := poll_entry hcall hdistinct hentry
      obtain ⟨hpolls, hlast⟩ := ih hrest hdistinct₁ hentry₁ hlater
      rw [List.filterMap_cons_some hpoll, PeriodicEntry.after_cons]
      refine ⟨?_, hlast⟩
      rw [Grid.polls, List.map_cons, Grid.poll_now]
      show (io.enqueueAt, actions.count (.push entry.message)) :: pollsOf entry more = _
      rw [hcount]
      exact congrArg _ hpolls

/-- **A periodic read keeps its grid without bursts.** -/
theorem periodic_schedule {config : ClientConfig} {calls : List Call} {c c' : Client}
    {done : List Action} (hreached : (withConfig config).run lastInstant calls = some (c, done))
    {entry : PeriodicEntry} (hentry : entry ∈ c.periodic) (hpos : 0 < entry.interval)
    {ops : List Call} (hops : ∀ op ∈ ops, op.registers entry.command = false)
    {tr : List (Call × List Action)} (htrace : c.trace lastInstant ops = some (c', tr)) :
    let times := ops.filterMap Call.pollTime?
    let polls := Grid.polls entry.interval entry.nextDue times
    -- the schedule is that of the registration alone
    pollsOf entry tr = polls.map (fun p => (p.now, if p.read then 1 else 0)) ∧
    entry.after times ∈ c'.periodic ∧
    (∀ p ∈ polls, p.now < p.due) ∧
    (∀ p ∈ polls, ∀ n, p.before = some n →
      (p.read = false ∧ p.due = n ∨ n ≤ p.now ∧ n + entry.interval ≤ p.due) ∧
      (n + entry.interval ≤ p.now → p.read = true ∧ p.due = p.now + entry.interval)) ∧
    (Grid.reads polls).Pairwise (fun p q => p.due + entry.interval ≤ q.due) ∧
    (∀ start l, ((Grid.reads polls).filter fun p => start ≤ p.now ∧ p.now ≤ start + l).length
      ≤ Grid.ceilDiv l entry.interval + 1) ∧
    ∀ t₀ later, entry.nextDue = none → times = t₀ :: later →
      Grid.Frequent entry.interval t₀ later →
      ∀ k, (Grid.reads polls)[k]? = polls.find? fun p => t₀ + k * entry.interval ≤ p.now := by
  have hdistinct : Distinct c.periodic :=
    run_periodic Distinct.schedule hreached List.nodup_nil
  obtain ⟨hpolls, hlast⟩ := trace_polls htrace hdistinct hentry hops
  refine ⟨hpolls, hlast, ?_, ?_, ?_, ?_, ?_⟩
  · exact Grid.forall_polls (Grid.now_lt_due hpos) _ _
  · refine Grid.forall_polls (fun due now n hbefore => ?_) _ _
    rw [Grid.poll_before] at hbefore
    rw [hbefore, Grid.poll_now]
    exact ⟨Grid.due_moves now, fun hlate => Grid.late hlate⟩
  · exact Grid.reads_apart.imp fun h => h.2
  · exact Grid.window_le hpos
  · intro t₀ later hfirst htimes hfreq k
    rw [hfirst, htimes]
    exact Grid.polled_at_grid hpos hfreq k

/-- Polled at 5, 12, 16 and 40, a read every 10 is made at 5, 16 and 40, and then due at 50. -/
theorem periodic_schedule_stall :
    ∃ c' tr, (withConfig ⟨2000⟩).addPeriodic 7 10 3 none = some c' ∧
      ∃ c'', c'.trace 1000 [.poll ⟨[], 5, 5, 5, none⟩, .poll ⟨[], 12, 12, 12, none⟩,
        .poll ⟨[], 16, 16, 16, none⟩, .poll ⟨[], 40, 40, 40, none⟩] = some (c'', tr) ∧
      pollsOf ⟨7, 10, "periodic_7", none, none⟩ tr = [(5, 1), (12, 0), (16, 1), (40, 1)] ∧
      ⟨7, 10, "periodic_7", some 50, none⟩ ∈ c''.periodic := by
  obtain ⟨c', hc'⟩ : ∃ c', (withConfig ⟨2000⟩).addPeriodic 7 10 3 none = some c' := ⟨_, rfl⟩
  have hreached : (withConfig ⟨2000⟩).run 1000 [.registerPeriodic 7 10 3 none]
      = some (c', [.register 7 3]) := by
    cases hc'
    rfl
  have hentry : ⟨7, 10, "periodic_7", none, none⟩ ∈ c'.periodic := by
    cases hc'
    exact List.mem_singleton_self _
  cases hc'
  obtain ⟨hpolls, hlast, _⟩ := @periodic_schedule 1000 ⟨2000⟩ _ _ _ _ hreached _ hentry
    (Nat.succ_pos 9) [.poll ⟨[], 5, 5, 5, none⟩, .poll ⟨[], 12, 12, 12, none⟩,
      .poll ⟨[], 16, 16, 16, none⟩, .poll ⟨[], 40, 40, 40, none⟩] (by decide) _ rfl
  exact ⟨_, _, rfl, _, rfl, hpolls, hlast⟩

end ProtoEmb.Client
