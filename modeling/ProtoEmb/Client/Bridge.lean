import ProtoEmb.Client.Checked

/-!
# The stdio bridge

`bridge.rs`: requests come in one by one, and between them the client is polled. What the
host answers (whether a port opens, which ports there are) is an input of the request, and
a panic is `none`.

A run does not panic as long as every step is one that the bridge `Admits`
(`run_isSome_iff`). Nothing looks at the `storage_count` of a `register_periodic` before the
assertion of `RingBuffer::new` does, so a request can make the bridge panic
(`register_zero_panics`).
-/

namespace ProtoEmb.Client

/-- `Duration::from_millis`. -/
def fromMillis (ms : UInt64) : Nat := ms.toNat * 1000000

inductive PriorityJson where
  | high
  | low
  deriving DecidableEq, Repr

def PriorityJson.into : PriorityJson → Priority
  | .high => .high
  | .low => .low

/-- Requests from stdin, on a host where `usize` is a `u64`. -/
inductive Request where
  | connect (port : String) (baud : UInt32)
  | disconnect
  | read (command : UInt8) (priority : PriorityJson) (coalesceKey : Option String)
  | write (command : UInt8) (data : List UInt8)
  | query (command : UInt8) (data : List UInt8)
  | registerPeriodic (command : UInt8) (intervalMs storageCount : UInt64)
  | unregisterPeriodic (command : UInt8)
  | getStored (command : UInt8)
  | getStoredSince (command : UInt8) (sinceSeq : UInt64)
  | listPorts
  | quit
  deriving DecidableEq, Repr

/-- Events to stdout. -/
inductive EventJson where
  | connected (port : String)
  | disconnected
  | ack (command : UInt8)
  | nack (command : UInt8)
  | data (command : UInt8) (payload : Payload)
  | notification (payload : Payload)
  | timeout
  | error (message : String)
  | ports (ports : List String)
  | stored (command : UInt8) (entries : List Payload) (seq : Nat)
  deriving DecidableEq, Repr

def Event.toJson : Event → EventJson
  | .ack command => .ack command
  | .nack command => .nack command
  | .data command payload => .data command payload
  | .notification payload => .notification payload
  | .timeout _ => .timeout
  | .error message => .error message

/-- What the host answers. -/
structure Host where
  opened : Except String Unit
  ports : Except String (List String)

structure StdioBridge where
  client : Option Client
  config : ClientConfig

/-- What the bridge is given: a request, or a turn of the loop that polls. -/
inductive Input where
  | request (host : Host) (req : Request)
  | poll (io : PollInput)

namespace StdioBridge

def withConfig (config : ClientConfig) : StdioBridge := { client := none, config }

def new : StdioBridge := withConfig { responseTimeout := fromMillis 2000 }

/-- A request for the client, if there is one. -/
def onClient (b : StdioBridge) (f : Client → Option (Client × List EventJson)) :
    Option (StdioBridge × List EventJson) :=
  match b.client with
  | some c => do
    let (c, events) ← f c
    return ({ b with client := some c }, events)
  | none => some (b, [.error "Not connected"])

/-- A call of the client that is not answered. -/
def silent (lastInstant : Nat) (op : Call) (c : Client) : Option (Client × List EventJson) := do
  let (c, _) ← Checked.call lastInstant c op
  return (c, [])

def handleRequest (lastInstant : Nat) (b : StdioBridge) (host : Host) :
    Request → Option (StdioBridge × List EventJson)
  | .connect port _ =>
    match host.opened with
    | .ok () => some ({ b with client := some (Client.withConfig b.config) }, [.connected port])
    | .error e =>
      some ({ b with client := none }, [.error ("Failed to open " ++ port ++ ": " ++ e)])
  | .disconnect => some ({ b with client := none }, [.disconnected])
  | .read command priority coalesceKey =>
    b.onClient (silent lastInstant (.read command priority.into coalesceKey))
  | .write command data => b.onClient (silent lastInstant (.write command data))
  | .query command data => b.onClient (silent lastInstant (.query command data))
  | .listPorts =>
    match host.ports with
    | .ok ports => some (b, [.ports ports])
    | .error e => some (b, [.error ("Failed to list ports: " ++ e)])
  | .registerPeriodic command intervalMs storageCount =>
    b.onClient (silent lastInstant
      (.registerPeriodic command (fromMillis intervalMs) storageCount.toNat none))
  | .unregisterPeriodic command => b.onClient (silent lastInstant (.unregisterPeriodic command))
  | .getStored command =>
    b.onClient fun c => do
      let entries ← Checked.readAll c.store command
      return (c, [.stored command entries (c.store.seq command)])
  | .getStoredSince command sinceSeq =>
    b.onClient fun c => do
      let (entries, seq) ← Checked.readSince c.store command sinceSeq.toNat
      return (c, [.stored command entries seq])
  | .quit => some ({ b with client := none }, [])

/-- The client is polled if there is one. -/
def poll (lastInstant : Nat) (b : StdioBridge) (io : PollInput) :
    Option (StdioBridge × List EventJson) :=
  match b.client with
  | some c => do
    let (c, actions) ← Checked.call lastInstant c (.poll io)
    return ({ b with client := some c }, (actions.filterMap Action.event?).map Event.toJson)
  | none => some (b, [])

def step (lastInstant : Nat) (b : StdioBridge) : Input → Option (StdioBridge × List EventJson)
  | .request host req => b.handleRequest lastInstant host req
  | .poll io => b.poll lastInstant io

def run (lastInstant : Nat) (b : StdioBridge) :
    List Input → Option (StdioBridge × List EventJson)
  | [] => some (b, [])
  | i :: inputs => do
    let (b, events) ← b.step lastInstant i
    let (b, more) ← b.run lastInstant inputs
    return (b, events ++ more)

/-- The requests and polls that do not make the bridge panic. -/
def Admits (b : StdioBridge) : Input → Prop
  | .request _ (.registerPeriodic _ _ storageCount) =>
    b.client.isSome → FitsVec storageCount.toNat
  | .poll io =>
    ∀ c, b.client = some c → Room c (c.parser.feedBytes (received io.reads)).2
  | _ => True

variable {b b' : StdioBridge} {lastInstant : Nat}

/-- The client of a bridge between two inputs. -/
def Holds (b : StdioBridge) : Prop := ∀ c, b.client = some c → Sound c

theorem holds_none (config : ClientConfig) : Holds ⟨none, config⟩ := fun _ => nofun

theorem holds_some {c : Client} (h : Sound c) (config : ClientConfig) : Holds ⟨some c, config⟩ :=
  fun _ hc => Option.some.inj hc ▸ h

/-- A client that is asked goes on, and without one nothing changes. -/
theorem onClient_isSome (h : b.Holds) {f : Client → Option (Client × List EventJson)}
    (hf : ∀ c, b.client = some c → ∃ c' events, f c = some (c', events) ∧ Sound c') :
    ∃ b' events, b.onClient f = some (b', events) ∧ b'.Holds := by
  unfold onClient
  cases hc : b.client with
  | none => exact ⟨b, _, rfl, h⟩
  | some c =>
    obtain ⟨c', events, hrun, h'⟩ := hf c hc
    simp only [hrun]
    exact ⟨_, _, rfl, holds_some h' b.config⟩

theorem silent_isSome {c : Client} (h : Sound c) {op : Call} (hop : op.Real lastInstant)
    (hadmits : Client.Admits c op) :
    ∃ c' events, silent lastInstant op c = some (c', events) ∧ Sound c' := by
  obtain ⟨c', actions, hcall, _, h'⟩ := (Checked.call_eq h hop).1 hadmits
  refine ⟨c', [], ?_, h'⟩
  rw [silent, hcall]
  rfl

theorem fromMillis_le (ms : UInt64) : fromMillis ms ≤ longest :=
  Nat.mul_le_mul_right _ (Nat.le_sub_one_of_lt ms.toNat_lt)

/-- A request of which the client makes a call. -/
theorem silent_step (h : b.Holds) {op : Call} (hop : op.Real lastInstant)
    (hadmits : ∀ c, b.client = some c → Client.Admits c op) :
    ∃ b' events, b.onClient (silent lastInstant op) = some (b', events) ∧ b'.Holds :=
  onClient_isSome h fun c hc => silent_isSome (h c hc) hop (hadmits c hc)

/-- **A request does not panic** unless it registers storage that cannot be made. -/
theorem handleRequest_isSome (h : b.Holds) (host : Host) (req : Request)
    (hadmits : b.Admits (.request host req)) :
    ∃ b' events, b.handleRequest lastInstant host req = some (b', events) ∧ b'.Holds := by
  cases req with
  | connect port baud =>
    unfold handleRequest
    cases host.opened with
    | ok => exact ⟨_, _, rfl, holds_some (Checked.sound_withConfig b.config) b.config⟩
    | error e => exact ⟨_, _, rfl, holds_none b.config⟩
  | disconnect => exact ⟨_, _, rfl, holds_none b.config⟩
  | quit => exact ⟨_, _, rfl, holds_none b.config⟩
  | listPorts =>
    unfold handleRequest
    cases host.ports with
    | ok ports => exact ⟨_, _, rfl, h⟩
    | error e => exact ⟨_, _, rfl, h⟩
  | read command priority coalesceKey => exact silent_step h trivial fun _ _ => trivial
  | write command data => exact silent_step h trivial fun _ _ => trivial
  | query command data => exact silent_step h trivial fun _ _ => trivial
  | unregisterPeriodic command => exact silent_step h trivial fun _ _ => trivial
  | registerPeriodic command intervalMs storageCount =>
    exact silent_step h (fromMillis_le intervalMs) fun c hc => hadmits (by rw [hc]; rfl)
  | getStored command =>
    refine onClient_isSome h fun c hc => ?_
    obtain ⟨entries, hread⟩ := Checked.readAll_isSome (h c hc) command
    exact ⟨c, _, by rw [hread]; rfl, h c hc⟩
  | getStoredSince command sinceSeq =>
    refine onClient_isSome h fun c hc => ?_
    obtain ⟨entries, hread⟩ := Checked.readSince_isSome (h c hc) command sinceSeq.toNat
    exact ⟨c, _, by rw [hread]; rfl, h c hc⟩

/-- **A step does not panic** if the bridge admits it. -/
theorem step_isSome (h : b.Holds) {i : Input}
    (hreal : ∀ io, i = .poll io → io.Real lastInstant) (hadmits : b.Admits i) :
    ∃ b' events, b.step lastInstant i = some (b', events) ∧ b'.Holds := by
  cases i with
  | request host req => exact handleRequest_isSome h host req hadmits
  | poll io =>
    show ∃ b' events, b.poll lastInstant io = some (b', events) ∧ b'.Holds
    unfold poll
    cases hc : b.client with
    | none => exact ⟨b, [], rfl, h⟩
    | some c =>
      obtain ⟨c', actions, hcall, _, h'⟩ :=
        (@Checked.call_eq c lastInstant (h c hc) (.poll io) (hreal io rfl)).1 (hadmits c hc)
      simp only [hcall]
      exact ⟨_, _, rfl, holds_some h' b.config⟩

/-- **A step panics** if the bridge does not admit it. -/
theorem step_none (h : b.Holds) {i : Input}
    (hreal : ∀ io, i = .poll io → io.Real lastInstant) (hadmits : ¬ b.Admits i) :
    b.step lastInstant i = none := by
  cases i with
  | request host req =>
    cases req with
    | registerPeriodic command intervalMs storageCount =>
      obtain ⟨hsome, hbig⟩ := Classical.not_imp.mp hadmits
      obtain ⟨c, hc⟩ := Option.isSome_iff_exists.mp hsome
      have hcall := (@Checked.call_eq c lastInstant (h c hc)
        (.registerPeriodic command (fromMillis intervalMs) storageCount.toNat none)
        (fromMillis_le intervalMs)).2 hbig
      simp only [step, handleRequest, onClient, hc, silent, hcall]
      rfl
    | _ => exact absurd trivial hadmits
  | poll io =>
    obtain ⟨c, hc⟩ := not_forall.mp hadmits
    obtain ⟨hc, hfull⟩ := Classical.not_imp.mp hc
    have hcall := (@Checked.call_eq c lastInstant (h c hc) (.poll io) (hreal io rfl)).2 hfull
    simp only [step, poll, hc, hcall]
    rfl

/-- A run from any state that a bridge can be in. -/
theorem run_isSome {inputs : List Input}
    (hreal : ∀ io, .poll io ∈ inputs → io.Real lastInstant) (h : b.Holds) :
    (b.run lastInstant inputs).isSome ↔
      ∀ done i rest b₁ events, inputs = done ++ i :: rest →
        b.run lastInstant done = some (b₁, events) → b₁.Admits i := by
  induction inputs generalizing b with
  | nil => exact ⟨fun _ done i rest _ _ hcut => absurd hcut.symm (by simp), fun _ => rfl⟩
  | cons i inputs ih =>
    have hstep : ∀ io, i = .poll io → io.Real lastInstant := fun io hi =>
      hreal io (hi ▸ List.mem_cons_self)
    have hlater : ∀ io, .poll io ∈ inputs → io.Real lastInstant := fun io hmem =>
      hreal io (List.mem_cons_of_mem i hmem)
    by_cases hadmits : b.Admits i
    · obtain ⟨b', events, hrun, h'⟩ := step_isSome h hstep hadmits
      have hsome :
          (b.run lastInstant (i :: inputs)).isSome = (b'.run lastInstant inputs).isSome := by
        rw [run, hrun]
        cases hrest : b'.run lastInstant inputs with
        | none => simp only [Option.bind_eq_bind, Option.bind_some, hrest, Option.bind_none]
        | some r => simp only [Option.bind_eq_bind, Option.bind_some, hrest]; rfl
      rw [hsome, ih hlater h']
      refine ⟨fun hall done j rest b₁ more hcut hdone => ?_,
        fun hall done j rest b₁ more hcut hdone => ?_⟩
      · cases done with
        | nil =>
          -- the first step
          obtain ⟨rfl, rfl⟩ := List.cons.inj hcut
          cases hdone
          exact hadmits
        | cons k done =>
          obtain ⟨rfl, htail⟩ := List.cons.inj hcut
          simp only [run, hrun, Option.bind_eq_bind, Option.bind_some, Option.bind_eq_some_iff,
            Option.pure_def, Option.some.injEq, Prod.mk.injEq] at hdone
          obtain ⟨⟨b₂, tail⟩, hdone, rfl, _⟩ := hdone
          exact hall done j rest b₂ tail htail hdone
      · refine hall (i :: done) j rest b₁ (events ++ more) (by rw [hcut]; rfl) ?_
        simp only [run, hrun, Option.bind_eq_bind, Option.bind_some, hdone, Option.pure_def]
    · rw [run, step_none h hstep hadmits]
      exact ⟨nofun, fun hall => absurd (hall [] i inputs b [] rfl rfl) hadmits⟩

/-- **When a run does not panic.** Whatever requests come, whatever the transport does and
whenever the bridge polls, a run goes on to its end exactly if no `register_periodic` that
finds a client asks for no storage or for more than a `Vec` can have, and no poll brings the
sequence number of a ring buffer past a `u64`. -/
theorem run_isSome_iff (config : ClientConfig) {inputs : List Input}
    (hreal : ∀ io, .poll io ∈ inputs → io.Real lastInstant) :
    ((withConfig config).run lastInstant inputs).isSome ↔
      ∀ done i rest b events, inputs = done ++ i :: rest →
        (withConfig config).run lastInstant done = some (b, events) → b.Admits i :=
  run_isSome hreal (holds_none config)

/-- The last `Instant` of a Unix host: `i64::MAX` seconds, and not a second more. -/
def lastUnixInstant : Nat := 2 ^ 63 * 1000000000 - 1

/-- The longest interval, with a hundred entries of storage and with none. -/
theorem run_isSome_iff_hundred :
    (new.run lastUnixInstant [.request ⟨.ok (), .ok []⟩ (.connect "/dev/ttyUSB0" 115200),
      .poll ⟨[.ok [0x55], .timedOut], 5, 5, 5, none⟩,
      .request ⟨.ok (), .ok []⟩ (.registerPeriodic 0 0xFFFFFFFFFFFFFFFF 100)]).isSome ∧
    ¬ (new.run lastUnixInstant [.request ⟨.ok (), .ok []⟩ (.connect "/dev/ttyUSB0" 115200),
      .poll ⟨[.ok [0x55], .timedOut], 5, 5, 5, none⟩,
      .request ⟨.ok (), .ok []⟩ (.registerPeriodic 0 0xFFFFFFFFFFFFFFFF 0)]).isSome := by
  have hpoll : (⟨[.ok [0x55], .timedOut], 5, 5, 5, none⟩ : PollInput).Real lastUnixInstant := by
    refine ⟨fun bytes hmem => ?_, ?_⟩
    · rcases List.mem_cons.mp hmem with heq | hmem
      · cases heq
        exact Nat.le_of_ble_eq_true rfl
      · cases List.mem_singleton.mp hmem
    · show 5 + longest ≤ lastUnixInstant
      unfold longest lastUnixInstant
      omega
  have hreal : ∀ count io, .poll io ∈ ([
      .request ⟨.ok (), .ok []⟩ (.connect "/dev/ttyUSB0" 115200),
      .poll ⟨[.ok [0x55], .timedOut], 5, 5, 5, none⟩,
      .request ⟨.ok (), .ok []⟩ (.registerPeriodic 0 0xFFFFFFFFFFFFFFFF count)] : List Input) →
      io.Real lastUnixInstant := by
    intro count io hmem
    rcases List.mem_cons.mp hmem with heq | hmem
    · cases heq
    rcases List.mem_cons.mp hmem with heq | hmem
    · cases heq
      exact hpoll
    · cases List.mem_singleton.mp hmem
  -- each of the three inputs has what it needs, and without storage the last has not
  refine ⟨(run_isSome_iff _ (hreal 100)).mpr fun done i rest b events hcut hrun => ?_,
    fun hsome => ?_⟩
  · match done, hcut with
    | [], hcut =>
      obtain ⟨rfl, _⟩ := List.cons.inj hcut
      exact trivial
    | [first], hcut =>
      obtain ⟨hfirst, hcut⟩ := List.cons.inj hcut
      obtain ⟨rfl, _⟩ := List.cons.inj hcut
      rw [← hfirst] at hrun
      cases hrun
      intro c hc
      cases hc
      exact fun _ _ => nofun
    | [_, _], hcut =>
      obtain ⟨_, hcut⟩ := List.cons.inj hcut
      obtain ⟨_, hcut⟩ := List.cons.inj hcut
      obtain ⟨rfl, _⟩ := List.cons.inj hcut
      exact fun _ => ⟨Nat.succ_pos 99, Nat.le_of_ble_eq_true rfl⟩
    | _ :: _ :: _ :: _, hcut => exact absurd hcut.symm (by simp)
  · obtain ⟨b, events, hrun, hconnected⟩ : ∃ b events, (withConfig ⟨fromMillis 2000⟩).run
        lastUnixInstant [.request ⟨.ok (), .ok []⟩ (.connect "/dev/ttyUSB0" 115200),
          .poll ⟨[.ok [0x55], .timedOut], 5, 5, 5, none⟩] = some (b, events) ∧
        b.client.isSome := ⟨_, _, rfl, rfl⟩
    exact absurd ((run_isSome_iff _ (hreal 0)).mp hsome _ _ [] b events rfl hrun hconnected).1
      (Nat.lt_irrefl 0)

/-- No storage. -/
theorem register_zero_panics :
    new.run lastUnixInstant [.request ⟨.ok (), .ok []⟩ (.connect "/dev/ttyUSB0" 115200),
      .request ⟨.ok (), .ok []⟩ (.registerPeriodic 0 100 0)] = none := rfl

end StdioBridge

end ProtoEmb.Client
