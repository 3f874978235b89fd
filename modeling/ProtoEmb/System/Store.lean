import ProtoEmb.Client.Mirror
import ProtoEmb.System.Loop

/-!
# The storage follows the device

A command with storage (`storage.rs`) keeps the last payloads that came for it. Without timeouts
every DATA frame answers a request in its turn, so what the storage holds is a window of what the
handlers of the device answered (`readings`): it begins where the command was registered, or the
storage cleared, and ends with the last request that has ended (`store_follows`).
-/

namespace ProtoEmb.System

open ProtoEmb.Lib ProtoEmb.Framing ProtoEmb.Schema ProtoEmb.Client ProtoEmb.Device

/-- The payload of a DATA frame for a command. -/
def dataOf (c : UInt8) : ParsedFrame → Option Payload
  | .data d payload => if d = c then some payload else none
  | _ => none

/-- What the handlers answered with DATA for a command, dispatch by dispatch. -/
def readings {cfg : RuntimeConfig} {σ : Type} (fw : Firmware cfg σ) (c : UInt8)
    (served : List (σ × Device.Action)) : List Payload :=
  (served.map fun x => fw.answer x.1 x.2).filterMap (dataOf c)

/-- The action neither registers the command nor clears the storage. -/
def Keeps (c : UInt8) : Client.Action → Prop
  | .clearAll => False
  | .register d _ => d ≠ c
  | _ => True

instance (c : UInt8) (a : Client.Action) : Decidable (Keeps c a) := by
  unfold Keeps
  split <;> infer_instance

/-! ## What is reported -/

section Reports

variable {c : UInt8} {pre post : List Client.Action} {a : Client.Action}

/-- **One action** adds to what is reported what it handles for the command. -/
theorem logs_keeps (hkeeps : Keeps c a)
    (hevent : ∀ f event, a = .frame f event → event = eventOf f) :
    registered c (pre ++ [a]) = registered c pre ∧
      reported c (pre ++ [a]) = reported c pre ++ (handled [a]).filterMap (dataOf c) := by
  unfold registered reported
  rw [List.foldl_append, List.foldl_append]
  cases a with
  | register d capacity =>
    have hd : d ≠ c := hkeeps
    simp [handled, hd]
  | clearAll => exact absurd hkeeps not_false
  | frame f event =>
    obtain rfl := hevent f event rfl
    cases f with
    | data d payload =>
      by_cases hd : d = c
      · simp [handled, eventOf, dataOf, hd]
      · simp [handled, eventOf, dataOf, hd]
    | ack | nack | notification => simp [handled, eventOf, dataOf]
  | push | clear | expire | write | readError => simp [handled]

/-- Any number of them, one after the other. -/
theorem logs_append :
    ∀ {post pre : List Client.Action}, (∀ a ∈ post, Keeps c a) →
      (∀ f event, .frame f event ∈ post → event = eventOf f) →
      registered c (pre ++ post) = registered c pre ∧
        reported c (pre ++ post) = reported c pre ++ (handled post).filterMap (dataOf c) := by
  intro post
  induction post with
  | nil =>
    intro pre _ _
    simp [handled]
  | cons a post ih =>
    intro pre hkeeps hevents
    obtain ⟨hhead, htail⟩ := List.forall_mem_cons.mp hkeeps
    obtain ⟨hreg, hrep⟩ := @logs_keeps c pre a hhead fun f event ha =>
      hevents f event (ha ▸ List.mem_cons_self ..)
    obtain ⟨hreg', hrep'⟩ := @ih (pre ++ [a]) htail fun f event hf =>
      hevents f event (List.mem_cons_of_mem _ hf)
    have hcut : pre ++ a :: post = pre ++ [a] ++ post := by simp
    have hhandled : handled (a :: post) = handled [a] ++ handled post := handled_append [a] post
    rw [hcut, hreg', hrep', hreg, hrep, hhandled, List.filterMap_append, List.append_assoc]
    exact ⟨rfl, rfl⟩

/-- Only replies carry DATA. -/
theorem dataOf_replies (c : UInt8) (frames : List ParsedFrame) :
    (frames.filter isReply).filterMap (dataOf c) = frames.filterMap (dataOf c) := by
  induction frames with
  | nil => rfl
  | cons f frames ih =>
    cases f with
    | notification payload => exact ih
    | nack d => exact ih
    | ack d => exact ih
    | data d payload =>
      rw [List.filter_cons_of_pos rfl, List.filterMap_cons, List.filterMap_cons, ih]

end Reports

/-! ## The window -/

variable {cfg : RuntimeConfig} {σ : Type} {fw : Firmware cfg σ} {config : ClientConfig}
  {s : Loop cfg σ} {lastInstant : Nat}

/-- The replies that the client has handled are the first of the answers of the device. -/
theorem Closed.handled_answers (h : Closed fw config lastInstant s) (hmax : cfg.maxPayload ≤ 65535)
    (hpolite : Polite fw s) (hsmooth : ∀ a ∈ s.actions, smooth a = true) :
    InStep s.actions ∧ (handled s.actions).filter isReply
      = (s.served.map fun x => fw.answer x.1 x.2).take (ended (ledger s.actions)).length := by
  obtain ⟨moves, link, hlink, hfollows⟩ := h.follows hpolite
  have htogether := run_together (together_start _) (run_link.trans hlink)
  obtain ⟨hin, -⟩ := htogether.inStep (by rw [hfollows.actions]; exact hsmooth)
  rw [hfollows.actions] at hin
  refine ⟨hin, ?_⟩
  rw [hin.handled_eq]
  apply List.ext_getElem?
  intro i
  rw [List.getElem?_map]
  cases hi : (ended (ledger s.actions))[i]? with
  | none =>
    have hle := List.getElem?_eq_none_iff.mp hi
    exact (List.getElem?_eq_none_iff.mpr (Nat.le_trans (List.length_take_le _ _) hle)).symm
  | some e =>
    obtain ⟨t, f⟩ := e
    obtain ⟨state, hserved, hf⟩ := h.ended_served hmax hpolite hsmooth hi
    have hlt := (List.getElem?_eq_some_iff.mp hi).1
    rw [List.getElem?_take_of_lt hlt, List.getElem?_map, hserved, hf]
    rfl

/-- **The storage follows the device.** In every run without timeouts and read errors, take a
point where a command has storage and nothing in it (it has just been registered, or the storage
cleared), and after which it is neither registered again nor cleared. The sequence number counts
what the handlers have answered with DATA for the command between the requests that had ended by
then and those that have ended now, and what is read from the storage is the last of it, as much
as there is room for, in the order of the dispatches. -/
theorem store_follows {start : UInt32} {app : σ} {events : List (LoopEvent σ)} {c : UInt8}
    {capacity : Nat} {pre post : List Client.Action} (hmax : cfg.maxPayload ≤ 65535)
    (hrun : Machine.run (Loop.step fw (setup fw config lastInstant))
      (Loop.start config start app) events = some s)
    (hpolite : Polite fw s) (hsmooth : ∀ a ∈ s.actions, smooth a = true)
    (hsplit : s.actions = pre ++ post) (hreg : registered c pre = some capacity)
    (hnew : reported c pre = []) (hkeeps : ∀ a ∈ post, Keeps c a) :
    let window := (s.served.take (ended (ledger s.actions)).length).drop
      ((handled pre).filter isReply).length
    s.client.store.seq c = (readings fw c window).length ∧
      s.client.store.readAll c
        = some ((readings fw c window).drop ((readings fw c window).length - capacity)) := by
  have h := run_closed hmax hrun
  obtain ⟨hin, hanswers⟩ := h.handled_answers hmax hpolite hsmooth
  have hmirrors : s.client.store.Mirrors (logs s.actions) :=
    Steps.invariant (fun pre c => c.store.Mirrors (logs pre)) Step.mirrors h.heard.steps
      (show (withConfig config).store.Mirrors (logs []) from mirrors_withConfig config)
  obtain ⟨hregistered, hreported⟩ := @logs_append c post pre hkeeps fun f event hf =>
    hin.events f event (by rw [hsplit]; exact List.mem_append_right _ hf)
  rw [hnew, List.nil_append] at hreported
  -- the replies handled since then are the answers in the window
  have hwindow : (handled post).filter isReply = ((s.served.take
      (ended (ledger s.actions)).length).drop ((handled pre).filter isReply).length).map
        fun x => fw.answer x.1 x.2 := by
    rw [List.map_drop, List.map_take, ← hanswers, hsplit, handled_append, List.filter_append,
      List.drop_left]
  have hreadings : reported c s.actions = readings fw c ((s.served.take
      (ended (ledger s.actions)).length).drop ((handled pre).filter isReply).length) := by
    rw [readings, ← hwindow, dataOf_replies, hsplit, hreported]
  have hlog : logs s.actions c = some ⟨capacity, reported c s.actions⟩ := by
    rw [logs, hsplit, hregistered, hreg]
    rfl
  intro window
  rw [hmirrors.seq, hmirrors.readAll, hlog, hreadings]
  exact ⟨rfl, rfl⟩

section Thermostat

/-- Storage for one temperature, and the run of the thermostat. -/
def stored : Option (Loop ⟨64, 100⟩ UInt8) :=
  Machine.run (Loop.step heater (setup heater ⟨1000⟩ 10000)) (Loop.start ⟨1000⟩ 0 20)
    (.call (.registerStore 5 1) :: warming)

/-- The temperature was read twice, and the later reading is kept. -/
theorem store_follows_warming :
    ∃ s, stored = some s ∧ s.client.store.seq 5 = 2 ∧ s.client.store.readAll 5 = some [[25]] := by
  have heq : stored.map (fun s => ((s.actions.all smooth, s.served), (s.actions.take 1,
      s.actions.drop 1, (ended (ledger s.actions)).length)))
      = some ((true, [(20, .dispatchRead 5), (20, .dispatchWrite 6 [25]), (25, .dispatchRead 5)]),
        ([.register 5 1], [.push (Client.read 5 .high none), .push (Client.write 6 [25]),
          .push (Client.read 5 .high none), .write [0x55, 0, 5] 0 none,
          .frame (.data 5 [20]) (.data 5 [20]),
          .write [0x55, 1, 6, 1, 0, 25, crc8 [25]] 4 none, .frame (.ack 6) (.ack 6),
          .write [0x55, 0, 5] 6 none, .frame (.data 5 [25]) (.data 5 [25])], 3)) := by
    decide +kernel
  obtain ⟨s, hs, h⟩ := Option.map_eq_some_iff.mp heq
  simp only [Prod.mk.injEq] at h
  obtain ⟨⟨hsmooth, hserved⟩, hpre, hpost, hended⟩ := h
  have hsplit := (List.take_append_drop 1 s.actions).symm
  rw [hpre, hpost] at hsplit
  have hrun := hs
  unfold stored at hrun
  obtain ⟨hseq, hall⟩ := store_follows (c := 5) (by decide) hrun (warmed_polite hserved)
    (List.all_eq_true.mp hsmooth) hsplit rfl rfl (by decide)
  rw [hserved, hended] at hseq hall
  have hreadings : readings heater 5 [(20, .dispatchRead 5), (20, .dispatchWrite 6 [25]),
      (25, .dispatchRead 5)] = [[20], [25]] := by
    decide +kernel
  -- three requests have ended, and none had before the registration
  change _ = (readings heater 5 [_, _, _]).length at hseq
  change _ = some ((readings heater 5 [_, _, _]).drop
    ((readings heater 5 [_, _, _]).length - 1)) at hall
  rw [hreadings] at hseq hall
  exact ⟨s, hs, hseq, hall⟩

end Thermostat

end ProtoEmb.System
