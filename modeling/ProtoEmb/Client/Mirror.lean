import ProtoEmb.Client.Client

/-!
# The storage mirrors the events

`client.rs` puts the DATA of a registered command into `storage.rs` before it reports it. So
what the storage of a client holds can be told from its actions: the storage of a command
is as large as its last registration says, and holds the end of what was reported for it as
DATA since then, or since the storage was cleared.
-/

namespace ProtoEmb.Client

open ProtoEmb.Framing

/-- The size of a command's storage: its last registration. -/
def registered (cmd : UInt8) (actions : List Action) : Option Nat :=
  actions.foldl (fun size action =>
    match action with
    | .register d capacity => if d = cmd then some capacity else size
    | _ => size) none

/-- The payloads reported as DATA for a command since it was registered or cleared. -/
def reported (cmd : UInt8) (actions : List Action) : List Payload :=
  actions.foldl (fun payloads action =>
    match action with
    | .register d _ => if d = cmd then [] else payloads
    | .clearAll => []
    | .frame _ (.data d payload) => if d = cmd then payloads ++ [payload] else payloads
    | _ => payloads) []

/-- The logs the actions tell of. -/
def logs (actions : List Action) : Logs Payload := fun cmd =>
  (registered cmd actions).map fun capacity => ⟨capacity, reported cmd actions⟩

theorem logs_register (pre : List Action) (d : UInt8) (capacity : Nat) :
    logs (pre ++ [.register d capacity]) = (logs pre).register d capacity := by
  funext cmd
  unfold logs registered reported Logs.register
  by_cases h : d = cmd
  · subst h
    simp [List.foldl_append]
  · simp [List.foldl_append, h, Function.update_of_ne (Ne.symm h)]

theorem logs_clearAll (pre : List Action) : logs (pre ++ [.clearAll]) = (logs pre).clearAll := by
  funext cmd
  simp [logs, registered, reported, Logs.clearAll, List.foldl_append, Function.comp_def]

theorem logs_data (pre : List Action) (f : ParsedFrame) (d : UInt8) (payload : Payload) :
    logs (pre ++ [.frame f (.data d payload)]) = (logs pre).store d payload := by
  funext cmd
  unfold logs registered reported Logs.store
  by_cases h : d = cmd
  · subst h
    simp [List.foldl_append, Function.comp_def]
  · simp [List.foldl_append, h, Function.update_of_ne (Ne.symm h)]

/-- What the logs do not look at. -/
theorem logs_other (pre : List Action) {action : Action}
    (hreg : ∀ d capacity, action ≠ .register d capacity) (hclear : action ≠ .clearAll)
    (hdata : ∀ f d payload, action ≠ .frame f (.data d payload)) :
    logs (pre ++ [action]) = logs pre := by
  funext cmd
  unfold logs registered reported
  rw [List.foldl_append, List.foldl_append]
  cases action with
  | register d capacity => exact absurd rfl (hreg d capacity)
  | clearAll => exact absurd rfl hclear
  | frame f event =>
    cases event with
    | data d payload => exact absurd rfl (hdata f d payload)
    | _ => rfl
  | _ => rfl

variable {c c' : Client} {f : ParsedFrame} {event : Event}

/-- A DATA event stores its payload, and nothing else changes the storage. -/
theorem handleFrame_store (h : c.handleFrame f = some (c', event)) :
    (∃ cmd payload, event = .data cmd payload ∧ c.store.store cmd payload = some c'.store) ∨
      ((∀ cmd payload, event ≠ .data cmd payload) ∧ c'.store = c.store) := by
  cases f with
  | ack cmd =>
    obtain ⟨hc, he⟩ := handleAck_spec c cmd
    rw [show c.handleAck cmd = (c', event) from Option.some.inj h] at hc he
    change c' = _ at hc
    subst hc
    obtain rfl | ⟨p, m, _, _, rfl⟩ := he <;> exact .inr ⟨nofun, rfl⟩
  | nack cmd =>
    obtain ⟨hc, he⟩ := handleNack_spec c cmd
    rw [show c.handleNack cmd = (c', event) from Option.some.inj h] at hc he
    change c' = _ at hc
    subst hc
    obtain rfl | ⟨p, m, _, _, rfl⟩ := he <;> exact .inr ⟨nofun, rfl⟩
  | data cmd payload =>
    obtain ⟨store, hstore, rfl, rfl⟩ | ⟨p, m, _, _, _, rfl, rfl⟩ := handleData_spec h
    · exact .inl ⟨cmd, payload, rfl, hstore⟩
    · exact .inr ⟨nofun, rfl⟩
  | notification payload =>
    cases h
    exact .inr ⟨nofun, rfl⟩

/-- **One step** keeps the storage and the logs together. -/
theorem Step.mirrors {pre actions : List Action} (h : c.store.Mirrors (logs pre))
    (hstep : Step c actions c') : c'.store.Mirrors (logs (pre ++ actions)) := by
  cases hstep with
  | parse | schedule => rwa [List.append_nil]
  | push | clear | readError | expire | write =>
    rw [logs_other pre (by nofun) (by nofun) (by nofun)]
    exact h
  | register hreg =>
    rw [logs_register]
    exact h.register hreg
  | clearAll =>
    rw [logs_clearAll]
    exact h.clearAll
  | frame hf =>
    obtain ⟨cmd, payload, rfl, hstore⟩ | ⟨hno, hsame⟩ := handleFrame_store hf
    · rw [logs_data]
      obtain ⟨store', hstore', hm⟩ := h.store cmd payload
      rw [hstore] at hstore'
      cases hstore'
      exact hm
    · rw [logs_other pre (by nofun) (by nofun)
        (fun g d payload heq => hno d payload (Action.frame.inj heq).2), hsame]
      exact h

/-! ## Runs -/

/-- In any state, DATA for a command with storage is reported as DATA, and DATA for a command
without leaves the storage as it is. -/
theorem handleData_registered {cmd : UInt8} {payload : Payload}
    (h : c.handleFrame (.data cmd payload) = some (c', event)) :
    (c.store.isRegistered cmd = true → event = .data cmd payload) ∧
      (c.store.isRegistered cmd = false → c'.store = c.store) := by
  obtain ⟨store, hstore, rfl, rfl⟩ | ⟨p, m, _, _, hunreg, rfl, rfl⟩ := handleData_spec h
  · refine ⟨fun _ => rfl, fun hunreg => ?_⟩
    rw [DataStore.store_unregistered hunreg] at hstore
    exact (Option.some.inj hstore).symm
  · rw [hunreg]
    exact ⟨nofun, fun _ => rfl⟩

theorem mirrors_withConfig (config : ClientConfig) :
    (withConfig config).store.Mirrors (logs []) := DataStore.mirrors_new

theorem run_mirrors {config : ClientConfig} {lastInstant : Nat} {ops : List Call} {c : Client}
    {actions : List Action}
    (hrun : (withConfig config).run lastInstant ops = some (c, actions)) :
    c.store.Mirrors (logs actions) :=
  Steps.invariant (fun pre c => c.store.Mirrors (logs pre)) Step.mirrors (run_steps hrun)
    (mirrors_withConfig config)

/-- **The storage mirrors the events.** After any run, a command has storage if it was
registered; its sequence number counts the DATA events since it was last registered or
cleared, and what is read is the last of their payloads, as many as there is room for. In
whatever state a DATA frame finds the client, it is never an error for a command with
storage and changes no buffer for one without. -/
theorem store_mirrors_events {config : ClientConfig} {lastInstant : Nat} {ops : List Call}
    {c : Client} {actions : List Action}
    (hrun : (withConfig config).run lastInstant ops = some (c, actions)) (cmd : UInt8) :
    c.store.isRegistered cmd = (registered cmd actions).isSome ∧
    (∀ capacity, registered cmd actions = some capacity →
      c.store.seq cmd = (reported cmd actions).length ∧
      c.store.readAll cmd = some ((reported cmd actions).drop
        ((reported cmd actions).length - min capacity (c.store.seq cmd)))) ∧
    (∀ (c₁ c₂ : Client) (payload : Payload) (event : Event),
      c₁.handleFrame (.data cmd payload) = some (c₂, event) →
      (c₁.store.isRegistered cmd = true → event = .data cmd payload) ∧
        (c₁.store.isRegistered cmd = false → c₂.store = c₁.store)) := by
  have hm := run_mirrors hrun
  refine ⟨?_, fun capacity hreg => ?_, fun c₁ c₂ payload event h => handleData_registered h⟩
  · rw [hm.isRegistered, logs, Option.isSome_map]
  · have hlog : logs actions cmd = some ⟨capacity, reported cmd actions⟩ := by
      rw [logs, hreg]
      rfl
    have hseq : c.store.seq cmd = (reported cmd actions).length := by rw [hm.seq, hlog]; rfl
    refine ⟨hseq, ?_⟩
    rw [hm.readAll, hlog, hseq]
    show some ((reported cmd actions).drop ((reported cmd actions).length - capacity)) = _
    congr 2
    omega

/-- Three DATA frames for a command with room for two, the first of them the answer to a
read. -/
def sampled : List Call :=
  [.registerPeriodic 1 50 2 none, .poll ⟨[], 1, 1, 1, none⟩,
    .poll ⟨[.ok [0x55, 0x02, 0x01, 0x01, 0x00, 0x07, 0x83,
        0x55, 0x02, 0x01, 0x01, 0x00, 0x08, 0xC2],
      .timedOut], 2, 2, 2, none⟩,
    .write 3 [], .poll ⟨[.ok [0x55, 0x02, 0x01, 0x01, 0x00, 0x09, 0x9C]], 3, 3, 3, none⟩]

theorem store_mirrors_events_sampled :
    ∃ c actions, (withConfig ⟨100⟩).run 1000 sampled = some (c, actions) ∧ c.store.seq 1 = 3 ∧
      c.store.readAll 1 = some [[8], [9]] := by
  have hrun : ((withConfig ⟨100⟩).run 1000 sampled).map
      (fun r => (registered 1 r.2, reported 1 r.2)) = some (some 2, [[7], [8], [9]]) := by
    decide +kernel
  obtain ⟨⟨c, actions⟩, hc, heq⟩ := Option.map_eq_some_iff.mp hrun
  obtain ⟨hreg, hrep⟩ := Prod.mk.inj heq
  obtain ⟨hseq, hall⟩ := (store_mirrors_events hc 1).2.1 2 hreg
  rw [hrep] at hseq hall
  rw [hseq] at hall
  exact ⟨c, actions, hc, hseq, hall⟩

end ProtoEmb.Client
