import ProtoEmb.Device.Answers
import ProtoEmb.Device.Buffer

/-!
# The frame timeout

The clock is a `uint32_t` that wraps. `Runtime_tick` subtracts the stamp of the SYNC byte from
it, and the difference is the true one as long as that is below `2 ^ 32`. So a tick drops the
frame exactly when it is late, or when it is so late that the clock has gone round
(`timeout_exact`).

A reset leaves the type, the command and the payload of the dropped frame where they are.
`Progress` is the runtime without what is not read any more, with a step of its own. The
runtime follows it (`run_live`), and after a reset it is what it is after `Runtime_init`.
-/

namespace ProtoEmb.Device

open ProtoEmb.Lib ProtoEmb.Framing

/-! ## The runtime without leftovers -/

/-- How far a frame has come, with the stamp of its SYNC byte. -/
inductive Progress where
  | idle
  | type (start : UInt32)
  | command (start : UInt32) (frameType : UInt8)
  | lengthLo (start : UInt32) (command : UInt8)
  | lengthHi (start : UInt32) (command : UInt8) (lo : UInt16)
  | data (start : UInt32) (command : UInt8) (length : UInt16) (received : List UInt8)
  | crc (start : UInt32) (command : UInt8) (payload : List UInt8)
  deriving DecidableEq, Repr

namespace Progress

def feedByte (cfg : RuntimeConfig) (p : Progress) (now : UInt32) (byte : UInt8) :
    Progress × List Action :=
  match p with
  | idle => (if byte = syncByte then type now else idle, [])
  | type start => (if byte = 0x00 ∨ byte = 0x01 then command start byte else idle, [])
  | command start frameType =>
    if frameType = 0x00 then (idle, [.dispatchRead byte]) else (lengthLo start byte, [])
  | lengthLo start c => (lengthHi start c byte.toUInt16, [])
  | lengthHi start c lo =>
    let len := lo ||| (byte.toUInt16 <<< 8)
    (if len.toNat > cfg.maxPayload then idle
      else if len = 0 then crc start c [] else data start c len [], [])
  | data start c len received =>
    let received := received ++ [byte]
    (if len.toNat ≤ received.length then crc start c received else data start c len received, [])
  | crc _ c payload =>
    (idle, [if byte = crc8 payload then .dispatchWrite c payload else .sendNack c])

/-- The stamp of the frame, if there is one. -/
def start : Progress → Option UInt32
  | idle => none
  | type s | command s _ | lengthLo s _ | lengthHi s _ _ | data s _ _ _ | crc s _ _ => some s

def tick (cfg : RuntimeConfig) (p : Progress) (now : UInt32) : Progress :=
  match p.start with
  | some s => if now - s > cfg.timeoutMs then idle else p
  | none => p

def step (cfg : RuntimeConfig) (p : Progress) : Input → Progress × List Action
  | .byte now b => p.feedByte cfg now b
  | .tick now => (p.tick cfg now, [])

def run (cfg : RuntimeConfig) (p : Progress) : List Input → Progress × List Action
  | [] => (p, [])
  | i :: rest =>
    let r := p.step cfg i
    let t := run cfg r.1 rest
    (t.1, r.2 ++ t.2)

end Progress

namespace Runtime

variable {cfg : RuntimeConfig} {rt : Runtime cfg} {history : List UInt8}

/-- What of the runtime is still read. -/
def live (rt : Runtime cfg) : Progress :=
  match rt.state with
  | .sync => .idle
  | .type => .type rt.startMs
  | .command => .command rt.startMs rt.frameType
  | .lengthLo => .lengthLo rt.startMs rt.command
  | .lengthHi => .lengthHi rt.startMs rt.command rt.payloadLength
  | .data => .data rt.startMs rt.command rt.payloadLength rt.collected
  | .crc => .crc rt.startMs rt.command rt.received

theorem live_sync (hs : rt.state = .sync) : rt.live = .idle := by
  simp only [live, hs]

/-- **The step lemma**: what is read of the runtime is all that matters. -/
theorem feedByte_live (h : rt.Receiving history) (now : UInt32) (b : UInt8) :
    ((rt.feedByte now b).1.live, (rt.feedByte now b).2) = rt.live.feedByte cfg now b := by
  cases hs : rt.state with
  | sync =>
    by_cases hb : b = syncByte
    · rw [hb, feedByte_sync_start hs, live_sync hs]
      simp [live, Progress.feedByte]
    · rw [feedByte_sync_idle hs hb, live_sync hs]
      simp [Progress.feedByte, hb]
  | type =>
    by_cases hb : b = 0x00 ∨ b = 0x01
    · rw [feedByte_type_ok hs hb]
      simp [live, hs, Progress.feedByte, hb]
    · rw [feedByte_type_bad hs hb]
      simp [live, hs, Progress.feedByte, hb, reset]
  | command =>
    by_cases ht : rt.frameType = 0x00
    · rw [feedByte_command_read hs ht]
      simp [live, hs, Progress.feedByte, ht, reset]
    · rw [feedByte_command_write hs ht]
      simp [live, hs, Progress.feedByte, ht]
  | lengthLo =>
    rw [feedByte_lengthLo hs]
    simp [live, hs, Progress.feedByte]
  | lengthHi =>
    -- a length that is too big ends the frame, zero goes to the CRC
    simp only [feedByte, live, hs, Progress.feedByte]
    split_ifs with hbig hzero
    · rfl
    · simp [received, hzero]
    · simp [collected]
  | data =>
    obtain ⟨hlt, hmax⟩ := h.data hs
    have hsucc := h.index_succ hs
    have hin : rt.payloadIndex.toNat < cfg.maxPayload := by omega
    have hcol := collected_set rt b hin
    have hlen : rt.collected.length = rt.payloadIndex.toNat := by
      rw [collected, List.length_take, Vector.length_toList]
      omega
    rw [feedByte_data hs hin]
    have hlast : rt.payloadIndex + 1 ≥ rt.payloadLength ↔
        rt.payloadLength.toNat ≤ (rt.collected ++ [b]).length := by
      rw [ge_iff_le, UInt16.le_iff_toNat_le, hsucc, List.length_append, hlen]
      rfl
    by_cases hend : rt.payloadIndex + 1 ≥ rt.payloadLength
    · -- the length is reached exactly
      have hfull : rt.payloadLength.toNat = rt.payloadIndex.toNat + 1 := by
        rw [ge_iff_le, UInt16.le_iff_toNat_le, hsucc] at hend
        omega
      simp only [live, hs, Progress.feedByte, if_pos hend, if_pos (hlast.mp hend)]
      rw [received, hfull, hcol]
    · simp only [live, hs, Progress.feedByte, if_neg hend, if_neg fun h => hend (hlast.mpr h)]
      rw [collected, hsucc, hcol]
  | crc =>
    -- accepted or not, the frame is over
    rw [feedByte_crc hs (h.crc hs).2]
    simp [live, hs, Progress.feedByte, reset]

theorem tick_live (rt : Runtime cfg) (now : UInt32) :
    (rt.tick now).live = rt.live.tick cfg now := by
  have hstart : rt.state ≠ .sync → rt.live.start = some rt.startMs := by
    intro hs
    unfold live
    cases hst : rt.state with
    | sync => exact absurd hst hs
    | _ => rfl
  unfold tick
  by_cases hs : rt.state = .sync
  · rw [if_pos hs, live_sync hs]
    rfl
  · rw [if_neg hs, Progress.tick, hstart hs]
    simp only
    split
    · exact live_sync rfl
    · rfl

/-- **The run lemma.** -/
theorem run_live (inputs : List Input) :
    ∀ {history : List UInt8} {rt : Runtime cfg}, rt.Receiving history →
      ((rt.run inputs).1.live, (rt.run inputs).2) = rt.live.run cfg inputs := by
  induction inputs with
  | nil => intro history rt _; rfl
  | cons i rest ih =>
    intro history rt h
    cases i with
    | byte now b =>
      have hstep := feedByte_live h now b
      have hrest := ih (h.feedByte now b)
      simp only [run, step, Progress.run, Progress.step, ← hstep, ← hrest]
    | tick now =>
      have hrest := ih (h.call (.tick now))
      simp only [call] at hrest
      simp only [run, step, Progress.run, Progress.step, ← tick_live, ← hrest]

/-- Outside of a frame a runtime does what any other one does. -/
theorem run_of_sync {rt' : Runtime cfg} (hs : rt.state = .sync) (hs' : rt'.state = .sync)
    (inputs : List Input) : (rt.run inputs).2 = (rt'.run inputs).2 := by
  have h := @run_live cfg inputs [] rt (receiving_of_sync hs)
  have h' := @run_live cfg inputs [] rt' (receiving_of_sync hs')
  rw [live_sync hs] at h
  rw [live_sync hs', ← h] at h'
  exact (Prod.mk.inj h').2.symm

end Runtime

/-! ## True time -/

/-- A call at a true time, in milliseconds. -/
inductive Timed where
  | feedByte (time : Nat) (b : UInt8)
  | tick (time : Nat)
  deriving DecidableEq, Repr

def Timed.time : Timed → Nat
  | feedByte t _ | tick t => t

/-- The clock of the device, which stood at `epoch` at time 0. -/
def clock (epoch t : Nat) : UInt32 := UInt32.ofNat (epoch + t)

def Timed.input (epoch : Nat) : Timed → Input
  | feedByte t b => .byte (clock epoch t) b
  | tick t => .tick (clock epoch t)

/-- The difference of two clock readings is the true one, modulo `2 ^ 32`. -/
theorem clock_sub {epoch since t : Nat} (h : since ≤ t) :
    (clock epoch t - clock epoch since).toNat = (t - since) % 4294967296 := by
  rw [UInt32.toNat_sub, clock, clock, UInt32.toNat_ofNat', UInt32.toNat_ofNat']
  omega

namespace Runtime

variable {cfg : RuntimeConfig} {epoch : Nat}

/-- The runtime, and the true time of the SYNC byte of its frame. -/
def track (epoch : Nat) (s : Runtime cfg × Nat) (c : Timed) : Runtime cfg × Nat :=
  ((s.1.step (c.input epoch)).1,
    match c with
    | .feedByte t b => if s.1.state = .sync ∧ b = syncByte then t else s.2
    | .tick _ => s.2)

/-- In a frame, `startMs` is the stamp of its SYNC byte. -/
structure Stamped (epoch now : Nat) (s : Runtime cfg × Nat) : Prop where
  since_le : s.2 ≤ now
  stamp : s.1.state ≠ .sync → s.1.startMs = clock epoch s.2

/-- Only the SYNC byte stamps. -/
theorem feedByte_startMs (rt : Runtime cfg) (now : UInt32) (b : UInt8) (hs : rt.state ≠ .sync) :
    (rt.feedByte now b).1.startMs = rt.startMs := by
  unfold feedByte
  split
  next h => exact absurd h hs
  next => split <;> rfl
  next => split <;> rfl
  next => rfl
  next => simp only; split_ifs <;> rfl
  next => split <;> rfl
  next => simp only; split <;> rfl

theorem Stamped.track {now : Nat} {s : Runtime cfg × Nat} (h : Stamped epoch now s) {c : Timed}
    (hc : now ≤ c.time) : Stamped epoch c.time (track epoch s c) := by
  have hle := h.since_le
  cases c with
  | tick t =>
    refine ⟨Nat.le_trans hle hc, fun hs => ?_⟩
    simp only [Runtime.track, step, Timed.input, tick] at hs ⊢
    split_ifs at hs ⊢
    · exact h.stamp hs
    · exact absurd rfl hs
    · exact h.stamp hs
  | feedByte t b =>
    simp only [Runtime.track, step, Timed.input, Timed.time] at hc ⊢
    by_cases hstart : s.1.state = .sync ∧ b = syncByte
    · rw [if_pos hstart, hstart.2, feedByte_sync_start hstart.1]
      exact ⟨Nat.le_refl _, fun _ => rfl⟩
    · rw [if_neg hstart]
      refine ⟨Nat.le_trans hle hc, fun hs => ?_⟩
      by_cases hsync : s.1.state = .sync
      · -- no frame has started
        rw [feedByte_sync_idle hsync fun hb => hstart ⟨hsync, hb⟩] at hs
        exact absurd hsync hs
      · rw [feedByte_startMs _ _ _ hsync]
        exact h.stamp hsync

/-- Every tick in the middle of a frame finds it at most as old as the timeout. -/
def Prompt (epoch : Nat) (s : Runtime cfg × Nat) (calls : List Timed) : Prop :=
  ∀ pre t post, calls = pre ++ .tick t :: post →
    (pre.foldl (track epoch) s).1.state ≠ .sync →
      t - (pre.foldl (track epoch) s).2 ≤ cfg.timeoutMs.toNat

/-- The tick finds the frame at most as old as the timeout. -/
def PromptCall (s : Runtime cfg × Nat) : Timed → Prop
  | .tick t => s.1.state ≠ .sync → t - s.2 ≤ cfg.timeoutMs.toNat
  | .feedByte _ _ => True

instance (s : Runtime cfg × Nat) : (c : Timed) → Decidable (PromptCall s c)
  | .tick t => inferInstanceAs (Decidable (s.1.state ≠ .sync → t - s.2 ≤ cfg.timeoutMs.toNat))
  | .feedByte _ _ => inferInstanceAs (Decidable True)

theorem prompt_cons {s : Runtime cfg × Nat} {c : Timed} {calls : List Timed} :
    Prompt epoch s (c :: calls) ↔ PromptCall s c ∧ Prompt epoch (track epoch s c) calls := by
  constructor
  · intro h
    refine ⟨?_, fun pre t post heq hs => h (c :: pre) t post (by rw [heq]; rfl) hs⟩
    cases c with
    | tick t => exact fun hs => h [] t calls rfl hs
    | feedByte t b => trivial
  · intro h pre t post heq hs
    obtain ⟨hc, hrest⟩ := h
    cases pre with
    | nil =>
      cases heq
      exact hc hs
    | cons x pre =>
      obtain ⟨rfl, rfl⟩ := List.cons.inj heq
      exact hrest pre t post rfl hs

instance decidablePrompt (s : Runtime cfg × Nat) :
    (calls : List Timed) → Decidable (Prompt epoch s calls)
  | [] => .isTrue fun pre _ _ heq _ => absurd heq (by simp)
  | c :: calls =>
    have := decidablePrompt (track epoch s c) calls
    decidable_of_iff _ prompt_cons.symm

theorem inTime_of_prompt (calls : List Timed) :
    ∀ {now : Nat} {s : Runtime cfg × Nat}, Stamped epoch now s →
      (now :: calls.map Timed.time).Pairwise (· ≤ ·) → Prompt epoch s calls →
      InTime s.1 (calls.map (Timed.input epoch)) := by
  induction calls with
  | nil => intro now s _ _ _; trivial
  | cons c calls ih =>
    intro now s h horder hprompt
    obtain ⟨hnow, htail⟩ := List.pairwise_cons.mp horder
    have hc : now ≤ c.time := hnow _ (List.mem_cons_self ..)
    obtain ⟨hcall, hprompt'⟩ := prompt_cons.mp hprompt
    have hrest := ih (h.track hc) htail hprompt'
    cases c with
    | feedByte t b => exact hrest
    | tick t =>
      refine ⟨?_, hrest⟩
      by_cases hs : s.1.state = .sync
      · exact Or.inl hs
      · right
        have hage := hcall hs
        have hsince : s.2 ≤ t := Nat.le_trans h.since_le hc
        have htimeout := cfg.timeoutMs.toNat_lt
        rw [h.stamp hs, UInt32.le_iff_toNat_le, clock_sub hsince, Nat.mod_eq_of_lt]
        · exact hage
        · exact Nat.lt_of_le_of_lt hage htimeout

/-- A late tick drops the frame, unless the clock has gone round. -/
theorem tick_late {now t : Nat} {s : Runtime cfg × Nat} (h : Stamped epoch now s) (ht : now ≤ t)
    (hs : s.1.state ≠ .sync) (hlate : cfg.timeoutMs.toNat < t - s.2)
    (hwrap : t - s.2 < 4294967296) : (s.1.tick (clock epoch t)).state = .sync := by
  have hsince : s.2 ≤ t := Nat.le_trans h.since_le ht
  have hdiff : clock epoch t - s.1.startMs > cfg.timeoutMs := by
    rw [h.stamp hs, gt_iff_lt, UInt32.lt_iff_toNat_lt, clock_sub hsince, Nat.mod_eq_of_lt hwrap]
    exact hlate
  unfold tick
  rw [if_neg hs, if_pos hdiff]
  rfl

theorem track_run (calls : List Timed) :
    ∀ s : Runtime cfg × Nat,
      (calls.foldl (track epoch) s).1 = (s.1.run (calls.map (Timed.input epoch))).1 := by
  induction calls with
  | nil => intro s; rfl
  | cons c calls ih =>
    intro s
    rw [List.foldl_cons, ih]
    rfl

theorem Stamped.calls (calls : List Timed) :
    ∀ {now : Nat} {s : Runtime cfg × Nat}, Stamped epoch now s →
      (now :: calls.map Timed.time).Pairwise (· ≤ ·) →
      ∃ last, Stamped epoch last (calls.foldl (Runtime.track epoch) s) ∧
        ∀ t, (∀ x ∈ now :: calls.map Timed.time, x ≤ t) → last ≤ t := by
  induction calls with
  | nil => intro now s h _; exact ⟨now, h, fun t ht => ht now (List.mem_cons_self ..)⟩
  | cons c calls ih =>
    intro now s h horder
    obtain ⟨hnow, htail⟩ := List.pairwise_cons.mp horder
    obtain ⟨last, hlast, hle⟩ := ih (h.track (hnow _ (List.mem_cons_self ..))) htail
    exact ⟨last, hlast, fun t ht => hle t fun x hx => ht x (List.mem_cons_of_mem _ hx)⟩

end Runtime

/-! ## Replies -/

namespace Firmware

variable {cfg : RuntimeConfig} {σ : Type} (fw : Firmware cfg σ)

/-- The calls of a run, with the `sendBytes` calls they make. -/
def run (sendBytes : Nat → List UInt8 → Bool) (d : Board cfg σ) :
    List Input → Board cfg σ × List (List UInt8)
  | [] => (d, [])
  | i :: rest =>
    let r := fw.step sendBytes d i
    let t := run sendBytes r.1 rest
    (t.1, r.2 ++ t.2)

/-- What is sent depends on the dispatches only. -/
theorem run_sends (sendBytes : Nat → List UInt8 → Bool) (inputs : List Input) :
    ∀ d : Board cfg σ, (fw.run sendBytes d inputs).2
      = (fw.performAll sendBytes d.app (d.runtime.run inputs).2).2 := by
  induction inputs with
  | nil => intro d; rfl
  | cons i rest ih =>
    intro d
    simp only [run, Runtime.run, performAll_append, ih]
    rfl

end Firmware

/-- The same dispatches, and the same replies of any firmware in any state. -/
def SameBehaviour {cfg : RuntimeConfig} (rt : Runtime cfg) (xs : List Input) (rt' : Runtime cfg)
    (ys : List Input) : Prop :=
  (rt.run xs).2 = (rt'.run ys).2 ∧
    ∀ (σ : Type) (fw : Firmware cfg σ) (sendBytes : Nat → List UInt8 → Bool) (s : σ),
      (fw.run sendBytes ⟨rt, s⟩ xs).2 = (fw.run sendBytes ⟨rt', s⟩ ys).2

theorem sameBehaviour_of_actions {cfg : RuntimeConfig} {rt rt' : Runtime cfg} {xs ys : List Input}
    (h : (rt.run xs).2 = (rt'.run ys).2) : SameBehaviour rt xs rt' ys := by
  refine ⟨h, fun σ fw sendBytes s => ?_⟩
  rw [fw.run_sends, fw.run_sends, h]

/-- **The frame timeout is exact**, for any clock and whenever it wraps. If no tick in the
middle of a frame is late, the ticks may as well not be there. A tick that is late, but not by
`2 ^ 32`, leaves the runtime as good as new. -/
theorem timeout_exact (cfg : RuntimeConfig) (epoch start : Nat) (calls : List Timed)
    (horder : (start :: calls.map Timed.time).Pairwise (· ≤ ·)) :
    let fresh := Runtime.init cfg (clock epoch start)
    let inputs := calls.map (Timed.input epoch)
    (Runtime.Prompt epoch (fresh, start) calls →
      SameBehaviour fresh inputs fresh (inputs.filter fun i => i.byte?.isSome)) ∧
    ∀ pre t post, calls = pre ++ .tick t :: post →
      let s := pre.foldl (Runtime.track epoch) (fresh, start)
      s.1.state ≠ .sync → cfg.timeoutMs.toNat < t - s.2 → t - s.2 < 4294967296 →
        ∀ now further,
          SameBehaviour (fresh.run ((pre ++ [.tick t]).map (Timed.input epoch))).1 further
            (Runtime.init cfg now) further := by
  have hfresh : Runtime.Stamped epoch start (Runtime.init cfg (clock epoch start), start) :=
    ⟨Nat.le_refl _, fun hs => absurd rfl hs⟩
  constructor
  · intro hprompt
    -- prompt ticks do nothing, and the run without ticks has none that could
    have hin := Runtime.inTime_of_prompt calls hfresh horder hprompt
    have hbytes : ∀ (inputs : List Input) (rt : Runtime cfg),
        rt.InTime (inputs.filter fun i => i.byte?.isSome) := by
      intro inputs
      induction inputs with
      | nil => intro rt; trivial
      | cons i rest ih =>
        intro rt
        cases i with
        | byte now b => exact ih _
        | tick now => exact ih rt
    refine sameBehaviour_of_actions ?_
    rw [(Runtime.run_inTime hin).1, (Runtime.run_inTime (hbytes _ _)).1, List.filterMap_filter]
    rw [List.filterMap_congr fun i _ => show i.byte? = if i.byte?.isSome then i.byte? else none by
      cases i <;> rfl]
  · intro pre t post heq s hs hlate hwrap now further
    subst heq
    -- a late tick is the reset itself: from there on only the state SYNC counts
    rw [List.map_append, List.map_cons] at horder
    obtain ⟨hpre, hpost, hle⟩ := List.pairwise_append.mp
      (show ((start :: pre.map Timed.time) ++ (t :: post.map Timed.time)).Pairwise (· ≤ ·) from
        horder)
    obtain ⟨last, hlast, hmax⟩ := Runtime.Stamped.calls pre hfresh hpre
    have ht : last ≤ t := hmax t fun x hx => hle x hx t (List.mem_cons_self ..)
    have hafter := @Runtime.track_run cfg epoch (pre ++ [.tick t])
      (Runtime.init cfg (clock epoch start), start)
    rw [List.foldl_append] at hafter
    have hsync : ((Runtime.init cfg (clock epoch start)).run
        ((pre ++ [Timed.tick t]).map (Timed.input epoch))).1.state = .sync := by
      rw [← hafter]
      exact Runtime.tick_late hlast ht hs hlate hwrap
    exact sameBehaviour_of_actions (Runtime.run_of_sync hsync rfl further)

/-- The clock goes round between the SYNC byte and the tick. Of the calls the last tick is
late. -/
theorem timeout_exact_wrapped :
    SameBehaviour (Runtime.init ⟨64, 100⟩ 4294967290)
        [.byte 4294967292 0x55, .tick 40, .byte 50 0x00, .byte 50 0x07, .byte 54 0x55]
        (Runtime.init ⟨64, 100⟩ 4294967290)
        [.byte 4294967292 0x55, .byte 50 0x00, .byte 50 0x07, .byte 54 0x55] ∧
      SameBehaviour ((Runtime.init ⟨64, 100⟩ 4294967290).run [.byte 4294967292 0x55, .tick 40,
          .byte 50 0x00, .byte 50 0x07, .byte 54 0x55, .tick 194]).1
        [.byte 200 0x55, .byte 200 0x00, .byte 200 0x09] (Runtime.init ⟨64, 100⟩ 0)
        [.byte 200 0x55, .byte 200 0x00, .byte 200 0x09] := by
  constructor
  · exact (timeout_exact ⟨64, 100⟩ 4294967290 0 [.feedByte 2 0x55, .tick 46, .feedByte 56 0x00,
      .feedByte 56 0x07, .feedByte 60 0x55] (by decide)).1 (by decide)
  · exact (timeout_exact ⟨64, 100⟩ 4294967290 0 [.feedByte 2 0x55, .tick 46, .feedByte 56 0x00,
      .feedByte 56 0x07, .feedByte 60 0x55, .tick 200] (by decide)).2 [.feedByte 2 0x55, .tick 46,
        .feedByte 56 0x00, .feedByte 56 0x07, .feedByte 60 0x55] 200 [] rfl (by decide) (by decide)
      (by decide) 0 _

end ProtoEmb.Device
