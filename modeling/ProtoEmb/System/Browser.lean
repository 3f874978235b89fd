import ProtoEmb.Client.Wasm
import ProtoEmb.System.Loop

/-!
# The loop through a browser

The client of `wasm.rs` at the device: the page reads from the port when it likes and feeds what
it has read, polls, takes out what is to be sent and writes it to the port. Between the client
and the port there are two more buffers than in the loop, and the reads of a poll are cut by
the transport in memory.

None of this shows. As long as the receive buffer does not overflow, what the page does is a
run of the loop, in which the bytes of both buffers are still on the line (`browser_refines`).
The calls of the page and what happens at the device are under the conditions of the loop.
-/

namespace ProtoEmb.System

open ProtoEmb.Lib ProtoEmb.Framing ProtoEmb.Client ProtoEmb.Device

/-! ## A poll over the transport in memory -/

/-- The reads of the transport, as results that a poll is given: they take all of it, and none
fails. -/
theorem readMemory_reads (rx : List UInt8) :
    ∃ reads, bytesRead reads = rx ∧ (∀ e, .error e ∉ reads) ∧
      ∀ (c : ProtoEmb.Client) (tx : List UInt8),
        c.readLoop reads = (c.readMemory ⟨tx, rx⟩).map fun r => (r.1, r.2.2) := by
  induction hlen : rx.length using Nat.strongRecOn generalizing rx with
  | ind n ih =>
    have hread : ∀ tx, (MemoryTransport.read ⟨tx, rx⟩ readBufSize)
        = (rx.take readBufSize, ⟨tx, rx.drop readBufSize⟩) := fun _ => rfl
    have hle : (rx.take readBufSize).length ≤ readBufSize := List.length_take_le _ _
    by_cases hempty : rx = []
    · subst hempty
      refine ⟨[], rfl, fun _ => List.not_mem_nil, fun c tx => ?_⟩
      unfold readMemory
      simp only [hread, List.take_nil, if_true, readLoop, Option.map_some]
    · have hfilled : rx.take readBufSize ≠ [] := fun hnil =>
        hempty ((List.take_eq_nil_iff.mp hnil).resolve_left (by decide))
      by_cases hshort : (rx.take readBufSize).length < readBufSize
      · -- one read takes everything
        have hall : rx.take readBufSize = rx := by
          rw [List.length_take] at hshort
          exact List.take_of_length_le (by omega)
        refine ⟨[.ok rx], ?_, fun e => by simp, fun c tx => ?_⟩
        · rw [hall] at hshort
          simp only [bytesRead, if_neg hempty, if_pos hshort]
        · unfold readMemory
          rw [hall] at hshort hle
          simp only [hread, hall, if_neg hempty, readLoop, if_pos hle, if_pos hshort]
          cases handleFrames { c with parser := (c.parser.feedBytes rx).1 }
            (c.parser.feedBytes rx).2 <;> rfl
      · have hless : (rx.drop readBufSize).length < n := by
          have hpos := List.length_pos_iff.mpr hempty
          rw [List.length_drop, readBufSize]
          omega
        obtain ⟨reads, hbytes, hok, hreads⟩ := ih _ hless _ rfl
        refine ⟨.ok (rx.take readBufSize) :: reads, ?_, fun e => by simp [hok e], fun c tx => ?_⟩
        · rw [bytesRead, if_neg hfilled, if_neg hshort, hbytes, List.take_append_drop]
        · unfold readMemory
          simp only [hread, if_neg hfilled, readLoop, if_pos hle, if_neg hshort]
          cases handleFrames { c with parser := (c.parser.feedBytes (rx.take readBufSize)).1 }
            (c.parser.feedBytes (rx.take readBufSize)).2 with
          | none => rfl
          | some r =>
            simp only [Option.bind_eq_bind, Option.bind_some, hreads r.1 tx]
            cases r.1.readMemory ⟨tx, rx.drop readBufSize⟩ <;> rfl

theorem written_quiet {actions : List Client.Action} (h : ∀ a ∈ actions, a.isWrite = false) :
    written actions = [] := by
  have hnone : requests actions = [] := List.filterMap_eq_nil_iff.mpr fun a ha => by
    have := h a ha
    cases a <;> first | rfl | cases this
  rw [written, hnone]
  rfl

theorem onWire_flush (c : ProtoEmb.Client) (now : Nat) :
    onWire (c.tryFlush now none).2 = written (c.tryFlush now none).2 := by
  obtain ⟨h, -⟩ | ⟨msg, h, -⟩ := tryFlush_cases c now none <;> rw [h]
  · rfl
  · simp [onWire, written, requests]

/-- **A poll of the browser's client is a poll** that reads all there is, and what it writes
stands in the transport. -/
theorem pollMemory_eq (lastInstant : Nat) (rx : List UInt8) (checkAt enqueueAt sentAt : Nat) :
    ∃ reads, bytesRead reads = rx ∧ ∀ (c : ProtoEmb.Client) (tx : List UInt8),
      c.pollMemory lastInstant ⟨tx, rx⟩ checkAt enqueueAt sentAt
        = (c.poll lastInstant ⟨reads, checkAt, enqueueAt, sentAt, none⟩).map fun r =>
          (r.1, ⟨tx ++ written r.2, []⟩, r.2) := by
  obtain ⟨reads, hbytes, -, hreads⟩ := readMemory_reads rx
  refine ⟨reads, hbytes, fun c tx => ?_⟩
  have hloop := hreads c tx
  simp only [poll, pollMemory]
  cases hmem : c.readMemory ⟨tx, rx⟩ with
  | none =>
    rw [hmem] at hloop
    rw [hloop]
    rfl
  | some r =>
    obtain ⟨c₁, t, received⟩ := r
    rw [hmem] at hloop
    have ht : t = ⟨tx, []⟩ := by
      rw [readMemory_eq, Option.map_eq_some_iff] at hmem
      obtain ⟨_, _, heq⟩ := hmem
      exact (Prod.mk.inj (Prod.mk.inj heq).2).1.symm
    subst ht
    simp only [hloop, Option.map_some, Option.bind_eq_bind, Option.bind_some]
    cases henq : (c₁.checkTimeout checkAt).1.enqueuePeriodicAt lastInstant enqueueAt with
    | none => rfl
    | some r =>
      obtain ⟨c₂, pushed⟩ := r
      have hquiet : ∀ a ∈ received ++ (c₁.checkTimeout checkAt).2 ++ pushed, a.isWrite = false := by
        intro a ha
        rcases List.mem_append.mp ha with ha | ha
        · rcases List.mem_append.mp ha with ha | ha
          · rcases (readLoop_spec hloop).2 a ha with ⟨_, _, rfl⟩ | ⟨_, rfl⟩ <;> rfl
          · obtain ⟨_, rfl⟩ := checkTimeout_expires _ _ _ ha
            rfl
        · simp only [enqueuePeriodicAt, Option.bind_eq_bind, Option.bind_eq_some_iff,
            Option.pure_def, Option.some.injEq, Prod.mk.injEq] at henq
          obtain ⟨⟨periodic, queue, _⟩, hentries, _, rfl⟩ := henq
          rw [enqueueEntries_actions hentries] at ha
          obtain ⟨_, _, rfl⟩ := List.mem_map.mp ha
          rfl
      simp only [Option.bind_some, Option.pure_def, Option.map_some, MemoryTransport.writeAll,
        onWire_flush]
      rw [written_append, written_quiet hquiet, List.nil_append]

/-! ## What a page feeds and takes -/

/-- What a page does with the client. -/
inductive PageCall where
  | call (op : WasmCall)
  | feed (bytes : List UInt8)
  | poll (checkAt enqueueAt sentAt : Nat)
  | take

/-- The client of a page, and what has gone in and out. -/
structure Session where
  wasm : WasmClient
  actions : List Client.Action
  fed : List UInt8
  /-- The bytes that the polls have read. -/
  seen : List UInt8
  /-- How many bytes have been dropped. -/
  lost : Nat
  sent : List UInt8

namespace Session

def start (responseTimeoutMs : UInt32) : Session :=
  ⟨WasmClient.new responseTimeoutMs, [], [], [], 0, []⟩

def step (lastInstant : Nat) (s : Session) : PageCall → Option Session
  | .call op => do
    let (wasm, actions) ← s.wasm.call lastInstant op
    return { s with wasm, actions := s.actions ++ actions }
  | .feed bytes =>
    some { s with wasm := s.wasm.feedBytes bytes, fed := s.fed ++ bytes
                  lost := s.lost + (s.wasm.transport.rx.length + bytes.length - rxCap) }
  | .poll checkAt enqueueAt sentAt => do
    let (wasm, actions) ← s.wasm.poll lastInstant checkAt enqueueAt sentAt
    return { s with wasm, actions := s.actions ++ actions, seen := s.seen ++ s.wasm.transport.rx }
  | .take =>
    let r := s.wasm.takeOutgoing
    some { s with wasm := r.2, sent := s.sent ++ r.1 }

/-- What is kept whatever the page does. -/
structure Conserved (config : ClientConfig) (s : Session) : Prop where
  steps : Steps (withConfig config) s.actions s.wasm.client
  cap : s.wasm.transport.rx.length ≤ rxCap
  kept : List.Sublist (s.seen ++ s.wasm.transport.rx) s.fed
  count : (s.seen ++ s.wasm.transport.rx).length + s.lost = s.fed.length
  parsed : FrameParser.new.feedBytes s.seen = (s.wasm.client.parser, handled s.actions)
  written : s.sent ++ s.wasm.transport.tx = written s.actions

end Session

/-- A call that is passed on reads nothing and writes nothing. -/
theorem wasmCall_quiet {c c' : ProtoEmb.Client} {lastInstant : Nat} {op : WasmCall}
    {actions : List Client.Action} (h : c.call lastInstant op.call = some (c', actions)) :
    taken op.call = [] ∧ written actions = [] := by
  cases op with
  | read | write | query | unregisterPeriodic | clearQueue =>
    cases h
    exact ⟨rfl, rfl⟩
  | registerPeriodic | registerPeriodicWithTimeout =>
    simp only [WasmCall.call, call, Option.bind_eq_bind, Option.bind_eq_some_iff, Option.pure_def,
      Option.some.injEq, Prod.mk.injEq] at h
    obtain ⟨_, _, rfl, rfl⟩ := h
    exact ⟨rfl, rfl⟩

/-- **One call of the page.** -/
theorem Session.Conserved.step {config : ClientConfig} {lastInstant : Nat} {s s' : Session}
    (h : s.Conserved config) {op : PageCall} (hs : s.step lastInstant op = some s') :
    s'.Conserved config := by
  obtain ⟨hsteps, hcap, hkept, hcount, hparsed, hwritten⟩ := h
  cases op with
  | call op =>
    simp only [Session.step, WasmClient.call, Option.bind_eq_bind, Option.bind_eq_some_iff,
      Option.map_eq_some_iff, Option.pure_def, Option.some.injEq] at hs
    obtain ⟨⟨wasm, actions⟩, ⟨⟨c, acts⟩, hcall, heq⟩, rfl⟩ := hs
    obtain ⟨rfl, rfl⟩ := Prod.mk.inj heq
    obtain ⟨htaken, hnone⟩ := wasmCall_quiet hcall
    have hhandled := call_handled hcall
    rw [htaken] at hhandled
    obtain ⟨hparser, hframes⟩ := Prod.mk.inj (show (_, []) = _ from hhandled)
    refine ⟨hsteps.trans (call_steps hcall), hcap, hkept, hcount, ?_, ?_⟩
    · rw [handled_append, ← hframes, List.append_nil, hparsed, hparser]
    · rw [written_append, hnone, List.append_nil]
      exact hwritten
  | feed bytes =>
    cases hs
    have hsuffix := s.wasm.feedBytes_suffix bytes
    refine ⟨hsteps, WasmClient.feedBytes_cap bytes, ?_, ?_, hparsed, hwritten⟩
    · have hmore := hkept.append_right bytes
      rw [List.append_assoc] at hmore
      exact (hsuffix.sublist.append_left s.seen).trans hmore
    · have hlen := WasmClient.feedBytes_length s.wasm bytes
      simp only [List.length_append] at hcount ⊢
      omega
  | poll checkAt enqueueAt sentAt =>
    simp only [Session.step, WasmClient.poll, Option.bind_eq_bind, Option.bind_eq_some_iff,
      Option.map_eq_some_iff, Option.pure_def, Option.some.injEq] at hs
    obtain ⟨⟨wasm, actions⟩, ⟨⟨c, t, acts⟩, hpoll, heq⟩, rfl⟩ := hs
    obtain ⟨rfl, rfl⟩ := Prod.mk.inj heq
    obtain ⟨reads, hbytes, hreads⟩ := pollMemory_eq lastInstant s.wasm.transport.rx checkAt
      enqueueAt sentAt
    rw [show s.wasm.transport = ⟨s.wasm.transport.tx, s.wasm.transport.rx⟩ from rfl, hreads,
      Option.map_eq_some_iff] at hpoll
    obtain ⟨⟨c', acts'⟩, hcall, heq⟩ := hpoll
    simp only [Prod.mk.injEq] at heq
    obtain ⟨rfl, rfl, rfl⟩ := heq
    have hop : s.wasm.client.call lastInstant (.poll ⟨reads, checkAt, enqueueAt, sentAt, none⟩)
        = some (c', acts') := hcall
    have hhandled := call_handled hop
    rw [show taken (.poll ⟨reads, checkAt, enqueueAt, sentAt, none⟩) = s.wasm.transport.rx
      from hbytes] at hhandled
    refine ⟨hsteps.trans (call_steps hop), Nat.zero_le _, ?_, ?_, ?_, ?_⟩
    · simpa using hkept
    · simpa using hcount
    · rw [FrameParser.feedBytes_append, hparsed]
      simp only [hhandled, handled_append]
    · rw [written_append, ← hwritten, List.append_assoc]
  | take =>
    cases hs
    refine ⟨hsteps, hcap, hkept, hcount, hparsed, ?_⟩
    show (s.sent ++ s.wasm.transport.tx) ++ [] = _
    rw [List.append_nil]
    exact hwritten

/-- **Nothing is invented, reordered or sent twice.** Whatever a page feeds, polls and takes, in
whatever order: the receive buffer stays within its bound; what has been read and what waits is
what was fed without the bytes that were dropped, so all of it if none were; the frames that
the client has handled are those that the parser finds in what was read; and what was taken out
and what waits to be taken are the requests that were written. -/
theorem session_conserves {responseTimeoutMs : UInt32} {lastInstant : Nat} {page : List PageCall}
    {s : Session}
    (hrun : Machine.run (Session.step lastInstant)
      (Session.start responseTimeoutMs) page = some s) :
    s.Conserved ⟨millis responseTimeoutMs⟩ ∧
      (s.lost = 0 → s.seen ++ s.wasm.transport.rx = s.fed) := by
  have h : s.Conserved ⟨millis responseTimeoutMs⟩ :=
    Machine.run_invariant (fun h hs => h.step hs)
      ⟨.refl _, Nat.zero_le _, List.Sublist.refl _, rfl, rfl, rfl⟩ hrun
  refine ⟨h, fun hlost => h.kept.eq_of_length ?_⟩
  have hcount := h.count
  rw [hlost] at hcount
  exact hcount

/-- A read whose reply is fed in two parts; the second waits. -/
def visit : List PageCall :=
  [.call (.read 5 true none), .poll 0 0 0, .take, .feed [0x55, 0x02, 0x05], .poll 1 1 1,
    .feed [0x01, 0x00, 0x14, 0xFC]]

theorem session_conserves_visit :
    ∃ s, Machine.run (Session.step 10000) (Session.start 1000) visit = some s ∧
      s.sent = [0x55, 0x00, 0x05] ∧
      s.seen ++ s.wasm.transport.rx = [0x55, 0x02, 0x05, 0x01, 0x00, 0x14, 0xFC] := by
  have heq : (Machine.run (Session.step 10000) (Session.start 1000) visit).map
      (fun s => (s.sent, s.lost, s.fed))
      = some ([0x55, 0x00, 0x05], 0, [0x55, 0x02, 0x05, 0x01, 0x00, 0x14, 0xFC]) := by
    decide +kernel
  obtain ⟨s, hs, h⟩ := Option.map_eq_some_iff.mp heq
  simp only [Prod.mk.injEq] at h
  obtain ⟨hsent, hlost, hfed⟩ := h
  exact ⟨s, hs, hsent, ((session_conserves hs).2 hlost).trans hfed⟩

/-! ## The page and the device -/

structure Browser (cfg : RuntimeConfig) (σ : Type) where
  wasm : WasmClient
  /-- All that the client has done. -/
  actions : List Client.Action
  /-- What was taken out and has not reached the device. -/
  outbound : List UInt8
  board : Board cfg σ
  served : List (σ × Device.Action)
  notified : List Codec.Value
  /-- What the device has sent and the page has not read. -/
  inbound : List UInt8

inductive BrowserEvent (σ : Type) where
  | call (op : WasmCall)
  | poll (checkAt enqueueAt sentAt : Nat)
  /-- The page reads so many bytes and feeds them. -/
  | feed (count : Nat)
  /-- The page takes the outgoing bytes and writes them. -/
  | take
  /-- What happens at the device. -/
  | device (e : LoopEvent σ)

def LoopEvent.isCall {σ : Type} : LoopEvent σ → Bool
  | .call _ => true
  | _ => false

variable {cfg : RuntimeConfig} {σ : Type}

namespace Browser

def start (responseTimeoutMs : UInt32) (now : UInt32) (app : σ) : Browser cfg σ :=
  ⟨WasmClient.new responseTimeoutMs, [], [], ⟨Runtime.init cfg now, app⟩, [], [], []⟩

/-- The loop, with these bytes on the two lines. -/
def view (b : Browser cfg σ) (line wire : List UInt8) : Loop cfg σ :=
  ⟨b.wasm.client, b.actions, line, b.board, b.served, b.notified, wire⟩

/-- The loop as the browser shows it: both buffers are on the line. -/
def loop (b : Browser cfg σ) : Loop cfg σ :=
  b.view (b.outbound ++ b.wasm.transport.tx) (b.wasm.transport.rx ++ b.inbound)

/-- One event, if it is possible and the receive buffer has room: `feed_bytes` would drop the
oldest bytes where it has none. -/
def step (fw : Firmware cfg σ) (env : Setup) (b : Browser cfg σ) :
    BrowserEvent σ → Option (Browser cfg σ)
  | .call op =>
    if env.allows op.call = true ∧ fitsDevice cfg op.call = true then do
      let (wasm, actions) ← b.wasm.call env.lastInstant op
      return { b with wasm, actions := b.actions ++ actions }
    else none
  | .poll checkAt enqueueAt sentAt => do
    let (wasm, actions) ← b.wasm.poll env.lastInstant checkAt enqueueAt sentAt
    return { b with wasm, actions := b.actions ++ actions }
  | .feed count =>
    if b.wasm.transport.rx.length + (b.inbound.take count).length ≤ rxCap then
      some { b with wasm := b.wasm.feedBytes (b.inbound.take count)
                    inbound := b.inbound.drop count }
    else none
  | .take =>
    let r := b.wasm.takeOutgoing
    some { b with wasm := r.2, outbound := b.outbound ++ r.1 }
  | .device e =>
    if e.isCall = true then none
    else do
      let l ← (b.view b.outbound b.inbound).step fw env e
      return { b with outbound := l.line, board := l.board, served := l.served
                      notified := l.notified, inbound := l.wire }

end Browser

variable {fw : Firmware cfg σ} {env : Setup}

/-- What happens at the device does not look at what is still behind on the line, or already
read. -/
theorem step_behind {l l' : Loop cfg σ} {e : LoopEvent σ} (he : ¬ e.isCall = true)
    (h : l.step fw env e = some l') (tx rx : List UInt8) :
    Loop.step fw env { l with line := l.line ++ tx, wire := rx ++ l.wire } e
      = some { l' with line := l'.line ++ tx, wire := rx ++ l'.wire } ∧
      l'.client = l.client ∧ l'.actions = l.actions := by
  cases e with
  | call op => exact absurd rfl he
  | deliver now =>
    simp only [Loop.step] at h ⊢
    split at h
    next => cases h
    next b line hline =>
      cases h
      simp only [hline, List.cons_append, List.append_assoc, and_self]
  | tick now =>
    simp only [Loop.step] at h ⊢
    split at h
    next hin =>
      cases h
      simp only [if_pos hin, and_self]
    next => cases h
  | notify v =>
    simp only [Loop.step] at h ⊢
    split at h
    next hcap =>
      cases h
      simp only [if_pos hcap, List.append_assoc, and_self]
    next => cases h
  | work app =>
    cases h
    exact ⟨rfl, rfl, rfl⟩

/-- **One event of the browser is at most one of the loop.** -/
theorem browser_step {b b' : Browser cfg σ} {e : BrowserEvent σ}
    (h : b.step fw env e = some b') :
    ∃ events, Machine.run (Loop.step fw env) b.loop events = some b'.loop := by
  cases e with
  | call op =>
    simp only [Browser.step] at h
    split at h
    next hop =>
      simp only [WasmClient.call, Option.bind_eq_bind, Option.bind_eq_some_iff,
        Option.map_eq_some_iff, Option.pure_def, Option.some.injEq] at h
      obtain ⟨⟨wasm, actions⟩, ⟨⟨c, acts⟩, hcall, heq⟩, rfl⟩ := h
      obtain ⟨rfl, rfl⟩ := Prod.mk.inj heq
      obtain ⟨htaken, hwritten⟩ := wasmCall_quiet hcall
      refine ⟨[.call op.call], ?_⟩
      rw [Machine.run_cons, Loop.step, if_pos ⟨hop.1, hop.2, by rw [htaken]; exact List.nil_prefix⟩]
      simp only [Browser.loop, Browser.view, hcall, htaken, hwritten, Option.bind_eq_bind,
        Option.bind_some, Option.pure_def, List.append_nil, List.length_nil, List.drop_zero]
      rfl
    next => cases h
  | poll checkAt enqueueAt sentAt =>
    simp only [Browser.step, WasmClient.poll, Option.bind_eq_bind, Option.bind_eq_some_iff,
      Option.map_eq_some_iff, Option.pure_def, Option.some.injEq] at h
    obtain ⟨⟨wasm, actions⟩, ⟨⟨c, t, acts⟩, hpoll, heq⟩, rfl⟩ := h
    obtain ⟨rfl, rfl⟩ := Prod.mk.inj heq
    obtain ⟨reads, hbytes, hreads⟩ := pollMemory_eq env.lastInstant b.wasm.transport.rx checkAt
      enqueueAt sentAt
    rw [show b.wasm.transport = ⟨b.wasm.transport.tx, b.wasm.transport.rx⟩ from rfl, hreads,
      Option.map_eq_some_iff] at hpoll
    obtain ⟨⟨c', acts'⟩, hcall, heq⟩ := hpoll
    simp only [Prod.mk.injEq] at heq
    obtain ⟨rfl, rfl, rfl⟩ := heq
    have htaken : taken (.poll ⟨reads, checkAt, enqueueAt, sentAt, none⟩) = b.wasm.transport.rx :=
      hbytes
    refine ⟨[.call (.poll ⟨reads, checkAt, enqueueAt, sentAt, none⟩)], ?_⟩
    rw [Machine.run_cons, Loop.step,
      if_pos ⟨rfl, rfl, by rw [htaken]; exact List.prefix_append _ _⟩]
    simp only [Browser.loop, Browser.view, call, hcall, htaken, Option.bind_eq_bind,
      Option.bind_some, Option.pure_def, List.drop_left, List.append_assoc]
    rfl
  | feed count =>
    simp only [Browser.step] at h
    split at h
    next hroom =>
      cases h
      refine ⟨[], ?_⟩
      show some _ = some _
      simp only [Browser.loop, Browser.view, WasmClient.feedBytes_fits hroom, List.append_assoc,
        List.take_append_drop]
      rfl
    next => cases h
  | take =>
    cases h
    refine ⟨[], ?_⟩
    show some _ = some _
    simp only [Browser.loop, Browser.view, WasmClient.takeOutgoing, List.append_nil]
  | device e =>
    simp only [Browser.step] at h
    split at h
    next => cases h
    next he =>
      simp only [Option.bind_eq_bind, Option.bind_eq_some_iff, Option.pure_def,
        Option.some.injEq] at h
      obtain ⟨l, hl, rfl⟩ := h
      obtain ⟨hstep, hclient, hactions⟩ := step_behind he hl b.wasm.transport.tx b.wasm.transport.rx
      refine ⟨[e], ?_⟩
      rw [Machine.run_cons, show b.loop.step fw env e = _ from hstep, Option.bind_some,
        Machine.run_nil]
      obtain ⟨client, actions, line, board, served, notified, wire⟩ := l
      cases hclient
      cases hactions
      rfl

/-- Every run of the browser is one of the loop. -/
theorem browser_loops {responseTimeoutMs : UInt32} {lastInstant : Nat} {now : UInt32} {app : σ}
    {page : List (BrowserEvent σ)} {b : Browser cfg σ}
    (hrun : Machine.run
      (Browser.step fw (setup fw ⟨millis responseTimeoutMs⟩ lastInstant))
      (Browser.start responseTimeoutMs now app) page = some b) :
    ∃ events, Machine.run (Loop.step fw (setup fw ⟨millis responseTimeoutMs⟩ lastInstant))
      (Loop.start ⟨millis responseTimeoutMs⟩ now app) events = some b.loop := by
  obtain ⟨events, l, hloop, hl⟩ := Machine.run_simulation (R := fun b l => b.loop = l)
    (fun hR hs => by
      obtain ⟨events, hevents⟩ := browser_step hs
      exact ⟨events, _, hR ▸ hevents, rfl⟩) rfl hrun
  exact ⟨events, hl ▸ hloop⟩

/-- **The browser refines the loop.** As long as the receive buffer has room for what the page
feeds, every run of the browser is one of the loop: to the client and to the device it makes no
difference when the page reads, polls and writes. So the dispatches are, in order and once each,
the requests that the client has written, and all of them once the page has sent everything. -/
theorem browser_refines {responseTimeoutMs : UInt32} {lastInstant : Nat} {now : UInt32} {app : σ}
    {page : List (BrowserEvent σ)} {b : Browser cfg σ} (hmax : cfg.maxPayload ≤ 65535)
    (hrun : Machine.run
      (Browser.step fw (setup fw ⟨millis responseTimeoutMs⟩ lastInstant))
      (Browser.start responseTimeoutMs now app) page = some b) :
    (∃ events, Machine.run (Loop.step fw (setup fw ⟨millis responseTimeoutMs⟩ lastInstant))
      (Loop.start ⟨millis responseTimeoutMs⟩ now app) events = some b.loop) ∧
    b.served.map Prod.snd <+: (requests b.actions).map actionOf ∧
    (b.outbound = [] → b.wasm.transport.tx = [] →
      b.served.map Prod.snd = (requests b.actions).map actionOf) := by
  obtain ⟨events, hloop⟩ := browser_loops hrun
  have h := (run_closed hmax hloop).heard
  refine ⟨⟨events, hloop⟩, h.executed hmax, fun hout htx => h.executed_all hmax ?_⟩
  show b.outbound ++ b.wasm.transport.tx = []
  rw [hout, htx]
  rfl

/-- A temperature is read: the request waits for the page, and the reply is read in two parts. -/
def browsed : Option (Browser ⟨64, 100⟩ UInt8) :=
  Machine.run (Browser.step heater (setup heater ⟨millis 1000⟩ 10000)) (Browser.start 1000 0 20)
    [.call (.read 5 true none), .poll 0 0 0, .take, .device (.deliver 1), .device (.deliver 1),
      .device (.deliver 1), .feed 3, .poll 2 2 2, .feed 100, .poll 3 3 3]

theorem browser_refines_read :
    ∃ b, browsed = some b ∧ (handled b.actions) = [.data 5 [20]] ∧
      b.served.map Prod.snd = (requests b.actions).map actionOf := by
  have heq : browsed.map (fun b => (handled b.actions, b.outbound, b.wasm.transport.tx))
      = some ([.data 5 [20]], [], []) := by
    decide +kernel
  obtain ⟨b, hb, h⟩ := Option.map_eq_some_iff.mp heq
  simp only [Prod.mk.injEq] at h
  obtain ⟨hhandled, hout, htx⟩ := h
  have hrun := hb
  unfold browsed at hrun
  exact ⟨b, hb, hhandled, (browser_refines (by decide) hrun).2.2 hout htx⟩

end ProtoEmb.System
