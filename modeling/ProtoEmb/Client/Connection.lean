import Mathlib.Data.List.Induction
import ProtoEmb.Client.Bridge

/-!
# What a connection of the bridge is

In `bridge.rs` `connect` drops the client and makes a new one, so what was queued, pending or
stored before is gone. From then on the bridge is that client: requests and polls are its calls,
in order, and what the bridge prints are its events (`connection_isolated`). Whenever there is a
client, it came from the last `connect`, and that opened its port.
-/

namespace ProtoEmb.Client

/-- The client is another one afterwards, or there is none. -/
def Input.resets : Input → Bool
  | .request _ (.connect _ _) | .request _ .disconnect | .request _ .quit => true
  | _ => false

/-- The call that is made of the client. -/
def Input.call? : Input → Option Call
  | .request _ (.read command priority coalesceKey) =>
    some (.read command priority.into coalesceKey)
  | .request _ (.write command data) => some (.write command data)
  | .request _ (.query command data) => some (.query command data)
  | .request _ (.registerPeriodic command intervalMs storageCount) =>
    some (.registerPeriodic command (fromMillis intervalMs) storageCount.toNat none)
  | .request _ (.unregisterPeriodic command) => some (.unregisterPeriodic command)
  | .request _ _ => none
  | .poll io => some (.poll io)

/-- The events that only a client can cause. -/
def EventJson.fromClient : EventJson → Bool
  | .ack _ | .nack _ | .data _ _ | .notification _ | .timeout => true
  | _ => false

/-- The events of some actions, as they are printed. -/
def printed (actions : List Action) : List EventJson :=
  (((actions.filterMap Action.event?).map Event.toJson)).filter EventJson.fromClient

theorem printed_append (pre more : List Action) :
    printed (pre ++ more) = printed pre ++ printed more := by
  simp only [printed, List.filterMap_append, List.map_append, List.filter_append]

theorem run_append {lastInstant : Nat} {c : Client} (xs ys : List Call) :
    c.run lastInstant (xs ++ ys) = do
      let (c, actions) ← c.run lastInstant xs
      let (c, more) ← c.run lastInstant ys
      return (c, actions ++ more) := by
  induction xs generalizing c with
  | nil =>
    simp only [List.nil_append, run, Option.bind_eq_bind, Option.bind_some]
    cases c.run lastInstant ys <;> rfl
  | cons op xs ih =>
    simp only [List.cons_append, run, ih, Option.bind_eq_bind, Option.bind_assoc,
      Option.pure_def, Option.bind_some, List.append_assoc]

namespace StdioBridge

variable {b b' : StdioBridge} {lastInstant : Nat} {c : Client} {events : List EventJson}

/-- The input is a call of the client, or none. -/
structure Passes (lastInstant : Nat) (b : StdioBridge) (c : Client) (i : Input)
    (b' : StdioBridge) (events : List EventJson) (c' : Client) (actions : List Action) : Prop where
  client : b' = { b with client := some c' }
  sound : Sound c'
  run : c.run lastInstant i.call?.toList = some (c', actions)
  events : events.filter EventJson.fromClient = printed actions

/-- A call that is not answered. -/
theorem silent_passes {i : Input} {op : Call} (hc : b.client = some c) (h : Sound c)
    (hi : i.call? = some op) (hop : op.Real lastInstant)
    (hquiet : ∀ c' actions, c.call lastInstant op = some (c', actions) → printed actions = [])
    (hs : b.onClient (silent lastInstant op) = some (b', events)) :
    ∃ c' actions, Passes lastInstant b c i b' events c' actions := by
  simp only [onClient, hc, silent, Option.bind_eq_bind, Option.bind_eq_some_iff, Option.pure_def,
    Option.some.injEq, Prod.mk.injEq] at hs
  obtain ⟨⟨c₁, none⟩, ⟨⟨c', actions⟩, hcall, heq⟩, rfl, rfl⟩ := hs
  obtain ⟨rfl, rfl⟩ := Prod.mk.inj heq
  by_cases hadmits : Client.Admits c op
  · obtain ⟨c₂, acts, hsame, hplain, h'⟩ := (Checked.call_eq h hop).1 hadmits
    cases hcall.symm.trans hsame
    refine ⟨c', actions, rfl, h', ?_, (hquiet c' actions hplain).symm⟩
    rw [hi]
    simp [Client.run, hplain]
  · rw [(Checked.call_eq h hop).2 hadmits] at hcall
    cases hcall

/-- **One input.** -/
theorem step_passes {i : Input} (hc : b.client = some c) (h : Sound c)
    (hreal : ∀ io, i = .poll io → io.Real lastInstant) (hi : i.resets = false)
    (hs : b.step lastInstant i = some (b', events)) :
    ∃ c' actions, Passes lastInstant b c i b' events c' actions := by
  have hsame : ({ b with client := some c } : StdioBridge) = b := by rw [← hc]
  cases i with
  | request host req =>
    cases req with
    | connect | disconnect | quit => cases hi
    | read | write | query | unregisterPeriodic =>
      exact silent_passes hc h rfl trivial (fun c' actions hcall => by cases hcall; rfl) hs
    | registerPeriodic command intervalMs storageCount =>
      refine silent_passes hc h rfl (fromMillis_le intervalMs) (fun c' actions hcall => ?_) hs
      simp only [call, Option.bind_eq_bind, Option.bind_eq_some_iff, Option.pure_def,
        Option.some.injEq, Prod.mk.injEq] at hcall
      obtain ⟨_, _, rfl, rfl⟩ := hcall
      rfl
    | listPorts =>
      simp only [step, handleRequest] at hs
      split at hs <;> cases hs <;> exact ⟨c, [], hsame.symm, h, rfl, rfl⟩
    | getStored command =>
      simp only [step, handleRequest, onClient, hc, Option.bind_eq_bind, Option.bind_eq_some_iff,
        Option.pure_def, Option.some.injEq, Prod.mk.injEq] at hs
      obtain ⟨_, ⟨_, _, rfl⟩, rfl, rfl⟩ := hs
      exact ⟨c, [], rfl, h, rfl, rfl⟩
    | getStoredSince command sinceSeq =>
      simp only [step, handleRequest, onClient, hc, Option.bind_eq_bind, Option.bind_eq_some_iff,
        Option.pure_def, Option.some.injEq, Prod.mk.injEq] at hs
      obtain ⟨_, ⟨_, _, rfl⟩, rfl, rfl⟩ := hs
      exact ⟨c, [], rfl, h, rfl, rfl⟩
  | poll io =>
    simp only [step, poll, hc, Option.bind_eq_bind, Option.bind_eq_some_iff, Option.pure_def,
      Option.some.injEq, Prod.mk.injEq] at hs
    obtain ⟨⟨c', actions⟩, hcall, rfl, rfl⟩ := hs
    have hop : (Call.poll io).Real lastInstant := hreal io rfl
    by_cases hadmits : Client.Admits c (.poll io)
    · obtain ⟨c₂, acts, hagain, hplain, h'⟩ := (Checked.call_eq h hop).1 hadmits
      cases hcall.symm.trans hagain
      refine ⟨c', actions, rfl, h', ?_, rfl⟩
      simp [Input.call?, Client.run, hplain]
    · rw [(Checked.call_eq h hop).2 hadmits] at hcall
      cases hcall

/-- Without a client there is none after an input that does not reset. -/
theorem step_none_client {i : Input} (hc : b.client = none) (hi : i.resets = false)
    (hs : b.step lastInstant i = some (b', events)) : b'.client = none := by
  cases i with
  | poll io =>
    simp only [step, poll, hc] at hs
    cases hs
    exact hc
  | request host req =>
    cases req with
    | connect | disconnect | quit => cases hi
    | listPorts =>
      simp only [step, handleRequest] at hs
      split at hs <;> cases hs <;> exact hc
    | _ =>
      simp only [step, handleRequest, onClient, hc] at hs
      cases hs
      exact hc

theorem onClient_config {f : Client → Option (Client × List EventJson)}
    (h : b.onClient f = some (b', events)) : b'.config = b.config := by
  unfold onClient at h
  split at h
  · simp only [Option.bind_eq_bind, Option.bind_eq_some_iff, Option.pure_def, Option.some.injEq,
      Prod.mk.injEq] at h
    obtain ⟨_, _, rfl, _⟩ := h
    rfl
  · cases h
    rfl

theorem step_config {i : Input} (hs : b.step lastInstant i = some (b', events)) :
    b'.config = b.config := by
  cases i with
  | poll io =>
    simp only [step, poll] at hs
    split at hs
    · simp only [Option.bind_eq_bind, Option.bind_eq_some_iff, Option.pure_def, Option.some.injEq,
        Prod.mk.injEq] at hs
      obtain ⟨_, _, rfl, _⟩ := hs
      rfl
    · cases hs
      rfl
  | request host req =>
    cases req with
    | connect | listPorts =>
      simp only [step, handleRequest] at hs
      split at hs <;> cases hs <;> rfl
    | disconnect | quit =>
      cases hs
      rfl
    | _ => exact onClient_config hs

/-! ## Runs -/

theorem run_append (xs ys : List Input) :
    b.run lastInstant (xs ++ ys) = do
      let (b, events) ← b.run lastInstant xs
      let (b, more) ← b.run lastInstant ys
      return (b, events ++ more) := by
  induction xs generalizing b with
  | nil =>
    simp only [List.nil_append, run, Option.bind_eq_bind, Option.bind_some]
    cases b.run lastInstant ys <;> rfl
  | cons i xs ih =>
    simp only [List.cons_append, run, ih, Option.bind_eq_bind, Option.bind_assoc, Option.pure_def,
      Option.bind_some, List.append_assoc]

/-- Without a reset the bridge is the client that it has. -/
theorem run_passes :
    ∀ {inputs : List Input} {b b' : StdioBridge} {c : Client} {events : List EventJson},
      b.client = some c → Sound c → (∀ io, .poll io ∈ inputs → io.Real lastInstant) →
      (∀ i ∈ inputs, i.resets = false) → b.run lastInstant inputs = some (b', events) →
      ∃ c' actions, b'.client = some c' ∧
        c.run lastInstant (inputs.filterMap Input.call?) = some (c', actions) ∧
        events.filter EventJson.fromClient = printed actions := by
  intro inputs
  induction inputs with
  | nil =>
    intro b b' c events hc _ _ _ hrun
    cases hrun
    exact ⟨c, [], hc, rfl, rfl⟩
  | cons i inputs ih =>
    intro b b' c events hc h hreal hno hrun
    simp only [run, Option.bind_eq_bind, Option.bind_eq_some_iff, Option.pure_def,
      Option.some.injEq, Prod.mk.injEq] at hrun
    obtain ⟨⟨b₁, first⟩, hs, ⟨b₂, rest⟩, hrest, rfl, rfl⟩ := hrun
    obtain ⟨hi, hlater⟩ := List.forall_mem_cons.mp hno
    obtain ⟨c₁, acts, hclient, h₁, hcall, hfirst⟩ := step_passes hc h
      (fun io heq => hreal io (heq ▸ List.mem_cons_self)) hi hs
    obtain ⟨c', more, hc', hmore, hevents⟩ := ih (by rw [hclient]) h₁
      (fun io hmem => hreal io (List.mem_cons_of_mem i hmem)) hlater hrest
    refine ⟨c', acts ++ more, hc', ?_, ?_⟩
    · have hcalls : (i :: inputs).filterMap Input.call?
          = i.call?.toList ++ inputs.filterMap Input.call? := by
        rw [List.filterMap_cons]
        cases i.call? <;> rfl
      rw [hcalls, Client.run_append, hcall]
      simp [hmore]
    · rw [List.filter_append, printed_append, hfirst, hevents]

/-- A client comes from the last reset, which was a `connect` that opened its port. -/
theorem run_connected (config : ClientConfig) :
    ∀ {inputs : List Input} {b : StdioBridge} {events : List EventJson},
      (withConfig config).run lastInstant inputs = some (b, events) → b.client.isSome = true →
      ∃ before host port baud since,
        inputs = before ++ .request host (.connect port baud) :: since ∧
        host.opened = .ok () ∧ ∀ i ∈ since, i.resets = false := by
  intro inputs
  induction inputs using List.reverseRecOn with
  | nil =>
    intro b events hrun hsome
    cases hrun
    cases hsome
  | append_singleton inputs i ih =>
    intro b events hrun hsome
    simp only [run_append, run, Option.bind_eq_bind, Option.bind_eq_some_iff, Option.pure_def,
      Option.some.injEq, Prod.mk.injEq] at hrun
    obtain ⟨⟨b₁, first⟩, hfirst, _, ⟨⟨b₂, last⟩, hs, _, rfl, rfl⟩, rfl, rfl⟩ := hrun
    by_cases hi : i.resets = true
    · -- only a `connect` that opens its port leaves a client
      cases i with
      | poll io => cases hi
      | request host req =>
        cases req with
        | connect port baud =>
          cases hopened : host.opened with
          | ok => exact ⟨inputs, host, port, baud, [], rfl, hopened, List.forall_mem_nil _⟩
          | error e =>
            simp only [step, handleRequest, hopened, Option.some.injEq, Prod.mk.injEq] at hs
            obtain ⟨rfl, rfl⟩ := hs
            cases hsome
        | disconnect | quit =>
          cases hs
          cases hsome
        | _ => cases hi
    · have hi' : i.resets = false := by simpa using hi
      have hbefore : b₁.client.isSome = true := by
        cases hc : b₁.client with
        | some c => rfl
        | none => rw [step_none_client hc hi' hs] at hsome; cases hsome
      obtain ⟨before, host, port, baud, since, rfl, hopened, hsince⟩ := ih hfirst hbefore
      refine ⟨before, host, port, baud, since ++ [i], by simp, hopened, ?_⟩
      exact List.forall_mem_append.mpr ⟨hsince, List.forall_mem_singleton.mpr hi'⟩

theorem run_config :
    ∀ {inputs : List Input} {b b' : StdioBridge} {events : List EventJson},
      b.run lastInstant inputs = some (b', events) → b'.config = b.config := by
  intro inputs
  induction inputs with
  | nil =>
    intro b b' events hrun
    cases hrun
    rfl
  | cons i inputs ih =>
    intro b b' events hrun
    simp only [run, Option.bind_eq_bind, Option.bind_eq_some_iff, Option.pure_def,
      Option.some.injEq, Prod.mk.injEq] at hrun
    obtain ⟨⟨b₁, first⟩, hs, ⟨b₂, rest⟩, hrest, rfl, _⟩ := hrun
    rw [ih hrest, step_config hs]

/-- **A connection is a client of its own.** After any run the bridge has a client exactly if its
last reset was a `connect` that opened the port. Then this client is what a new one becomes by
the calls since that `connect`, whatever came before; and the replies, notifications and
timeouts printed after it are the events of this client, in order. -/
theorem connection_isolated {config : ClientConfig} {inputs : List Input} {events : List EventJson}
    (hreal : ∀ io, .poll io ∈ inputs → io.Real lastInstant)
    (hrun : (withConfig config).run lastInstant inputs = some (b, events)) :
    (b.client.isSome = true ↔ ∃ before host port baud since,
      inputs = before ++ .request host (.connect port baud) :: since ∧ host.opened = .ok () ∧
        ∀ i ∈ since, i.resets = false) ∧
    ∀ before host port baud since,
      inputs = before ++ .request host (.connect port baud) :: since → host.opened = .ok () →
      (∀ i ∈ since, i.resets = false) →
      ∃ earlier later c actions, events = earlier ++ .connected port :: later ∧
        b.client = some c ∧
        (Client.withConfig config).run lastInstant (since.filterMap Input.call?)
          = some (c, actions) ∧
        later.filter EventJson.fromClient = printed actions := by
  have hconnected : ∀ before host port baud since,
      inputs = before ++ .request host (.connect port baud) :: since → host.opened = .ok () →
      (∀ i ∈ since, i.resets = false) →
      ∃ earlier later c actions, events = earlier ++ .connected port :: later ∧
        b.client = some c ∧
        (Client.withConfig config).run lastInstant (since.filterMap Input.call?)
          = some (c, actions) ∧
        later.filter EventJson.fromClient = printed actions := by
    intro before host port baud since hinputs hopened hsince
    subst hinputs
    simp only [run_append, run, Option.bind_eq_bind, Option.bind_eq_some_iff, Option.pure_def,
      Option.some.injEq, Prod.mk.injEq] at hrun
    obtain ⟨⟨b₁, earlier⟩, hbefore, _, ⟨⟨b₂, opening⟩, hs, ⟨b₃, later⟩, hlater, rfl⟩, rfl, rfl⟩ :=
      hrun
    -- the client is new
    simp only [step, handleRequest, hopened, Option.some.injEq, Prod.mk.injEq] at hs
    obtain ⟨rfl, rfl⟩ := hs
    obtain ⟨c, actions, hc, hcalls, hevents⟩ := run_passes rfl
      (Checked.sound_withConfig b₁.config)
      (fun io hmem => hreal io (List.mem_append_right _ (List.mem_cons_of_mem _ hmem)))
      hsince hlater
    rw [run_config hbefore] at hcalls
    exact ⟨earlier, later, c, actions, rfl, hc, hcalls, hevents⟩
  refine ⟨⟨run_connected config hrun, ?_⟩, hconnected⟩
  rintro ⟨before, host, port, baud, since, hinputs, hopened, hsince⟩
  obtain ⟨_, _, c, _, _, hc, _⟩ := hconnected before host port baud since hinputs hopened hsince
  rw [hc]
  rfl

/-- A write is queued, and the port is opened again before it is sent. -/
def reopened : List Input :=
  [.request ⟨.ok (), .ok []⟩ (.connect "/dev/ttyUSB0" 115200),
    .request ⟨.ok (), .ok []⟩ (.write 6 [1]),
    .request ⟨.ok (), .ok []⟩ (.connect "/dev/ttyUSB1" 115200), .poll ⟨[], 5, 5, 5, none⟩]

/-- The write is gone. -/
theorem connection_isolated_reopened :
    ∃ b events c actions, new.run lastUnixInstant reopened = some (b, events) ∧
      b.client = some c ∧
      (Client.withConfig ⟨fromMillis 2000⟩).run lastUnixInstant [.poll ⟨[], 5, 5, 5, none⟩]
        = some (c, actions) := by
  obtain ⟨b, events, hrun⟩ : ∃ b events, new.run lastUnixInstant reopened = some (b, events) :=
    ⟨_, _, rfl⟩
  have hreal : ∀ io, .poll io ∈ reopened → io.Real lastUnixInstant := by
    intro io hmem
    simp only [reopened, List.mem_cons, reduceCtorEq, List.not_mem_nil, or_false, false_or,
      Input.poll.injEq] at hmem
    subst hmem
    refine ⟨nofun, ?_⟩
    show 5 + longest ≤ lastUnixInstant
    unfold longest lastUnixInstant
    omega
  obtain ⟨_, _, c, actions, _, hc, hcalls, _⟩ := (connection_isolated hreal hrun).2
    (reopened.take 2) _ _ _ [.poll ⟨[], 5, 5, 5, none⟩] rfl rfl (List.forall_mem_singleton.mpr rfl)
  exact ⟨b, events, c, actions, hrun, hc, hcalls⟩

end StdioBridge

end ProtoEmb.Client
