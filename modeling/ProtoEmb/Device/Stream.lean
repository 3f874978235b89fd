import ProtoEmb.Device.Requests
import ProtoEmb.Device.Serve
import ProtoEmb.Device.Timeout
import ProtoEmb.Lib.Receiver

/-!
# The device on a noisy line

Whatever bytes arrive, and whenever `tick` is called, the runtime of `protocol_runtime.c.j2` acts
only on request frames that were on the wire: disjoint ones, in order (`run_carved`). With the
handlers behind it, the host reads one answer for each of those frames and nothing else
(`output_answers`).

After noise the runtime may be anywhere in a frame that never was one. It is back in SYNC after
enough bytes without a sync byte, or after a silence in which `tick` is called, and from then on
every request is dispatched (`run_recovers`).

Both are shown on `Progress`, which the runtime follows.
-/

namespace ProtoEmb.Device

open ProtoEmb.Lib ProtoEmb.Framing ProtoEmb.Codec

/-! ## Request frames -/

/-- A request frame on the wire, and what the device does on it. -/
inductive RequestImage (cfg : RuntimeConfig) : Action → List UInt8 → Prop where
  | read (c : UInt8) : RequestImage cfg (.dispatchRead c) [syncByte, 0x00, c]
  | write (c lo hi : UInt8) (payload : List UInt8) (crc : UInt8)
      (hlen : lo.toNat + 256 * hi.toNat = payload.length) (hcap : payload.length ≤ cfg.maxPayload) :
      RequestImage cfg (if crc = crc8 payload then .dispatchWrite c payload else .sendNack c)
        ([syncByte, 0x01, c, lo, hi] ++ payload ++ [crc])

/-- The longest request frame, less its sync byte. -/
def requestBound (cfg : RuntimeConfig) : Nat := cfg.maxPayload + 5

namespace Progress

variable {cfg : RuntimeConfig}

/-- The bytes since the sync byte of the frame. -/
def Pending (cfg : RuntimeConfig) : Progress → List UInt8 → Prop
  | idle, seg => seg = []
  | type _, seg => seg = [syncByte]
  | command _ frameType, seg =>
    (frameType = 0x00 ∨ frameType = 0x01) ∧ seg = [syncByte, frameType]
  | lengthLo _ c, seg => seg = [syncByte, 0x01, c]
  | lengthHi _ c len, seg => ∃ lo, len = lo.toUInt16 ∧ seg = [syncByte, 0x01, c, lo]
  | data _ c len received, seg =>
    ∃ lo hi, len = u16OfLe lo hi ∧ len.toNat ≤ cfg.maxPayload ∧ received.length < len.toNat ∧
      seg = [syncByte, 0x01, c, lo, hi] ++ received
  | crc _ c payload, seg =>
    ∃ lo hi, lo.toNat + 256 * hi.toNat = payload.length ∧ payload.length ≤ cfg.maxPayload ∧
      seg = [syncByte, 0x01, c, lo, hi] ++ payload

theorem run_eq (p : Progress) (inputs : List Input) :
    p.run cfg inputs = Receiver.run (Progress.step cfg) p inputs := by
  induction inputs generalizing p with
  | nil => rfl
  | cons i inputs ih => simp only [run, Receiver.run, ih]

theorem tick_cases (p : Progress) (now : UInt32) : p.tick cfg now = p ∨ p.tick cfg now = idle := by
  unfold tick
  cases p.start with
  | none => exact .inl rfl
  | some s =>
    simp only
    split
    · exact .inr rfl
    · exact .inl rfl

/-- A byte goes on with the frame, drops it, or completes it. -/
theorem feedByte_carves {p : Progress} {seg : List UInt8} (h : p.Pending cfg seg) (now : UInt32)
    (b : UInt8) :
    Receiver.StepCarves (RequestImage cfg) (Pending cfg) (seg ++ [b]) (p.feedByte cfg now b) := by
  have goesOn : ∀ {p' : Progress}, p'.Pending cfg (seg ++ [b]) →
      Receiver.StepCarves (RequestImage cfg) (Pending cfg) (seg ++ [b]) (p', []) :=
    fun h' => .inl ⟨rfl, _, List.suffix_rfl, h'⟩
  have drops : Receiver.StepCarves (RequestImage cfg) (Pending cfg) (seg ++ [b]) (idle, []) :=
    .inl ⟨rfl, [], List.nil_suffix, rfl⟩
  cases p with
  | idle =>
    rw [feedByte]
    split
    next hb => exact goesOn (by rw [show seg = [] from h, hb]; rfl)
    next => exact drops
  | type start =>
    rw [feedByte]
    split
    next hb => exact goesOn ⟨hb, by rw [show seg = [syncByte] from h]; rfl⟩
    next => exact drops
  | command start frameType =>
    obtain ⟨hty, rfl⟩ := h
    rw [feedByte]
    split
    next ht =>
      rw [ht]
      exact .inr ⟨_, rfl, .read b, rfl⟩
    next ht =>
      rw [hty.resolve_left ht] at goesOn ⊢
      exact goesOn rfl
  | lengthLo start c =>
    exact goesOn ⟨b, rfl, by rw [show seg = [syncByte, 0x01, c] from h]; rfl⟩
  | lengthHi start c len =>
    obtain ⟨lo, rfl, rfl⟩ := h
    simp only [feedByte]
    -- a length that is too big ends the frame, zero goes to the CRC
    split_ifs with hbig hzero
    · exact drops
    · have hlen : lo.toNat + 256 * b.toNat = 0 := by
        rw [← u16OfLe_toNat, show u16OfLe lo b = 0 from hzero]
        rfl
      exact goesOn ⟨lo, b, hlen, Nat.zero_le _, rfl⟩
    · have hpos : (u16OfLe lo b).toNat ≠ 0 := fun h => hzero (UInt16.toNat_inj.mp h)
      exact goesOn ⟨lo, b, rfl, Nat.not_lt.mp hbig, Nat.pos_of_ne_zero hpos, rfl⟩
  | data start c len received =>
    obtain ⟨lo, hi, rfl, hcap, hlt, rfl⟩ := h
    rw [List.append_assoc] at goesOn ⊢
    simp only [feedByte]
    split
    next hlast =>
      -- the length is reached exactly
      have hfull : (received ++ [b]).length = (u16OfLe lo hi).toNat := by
        rw [List.length_append, List.length_singleton] at hlast ⊢
        omega
      exact goesOn ⟨lo, hi, by rw [hfull, u16OfLe_toNat], by rw [hfull]; exact hcap, rfl⟩
    next hmore => exact goesOn ⟨lo, hi, rfl, hcap, Nat.not_le.mp hmore, rfl⟩
  | crc start c payload =>
    obtain ⟨lo, hi, hlen, hcap, rfl⟩ := h
    exact .inr ⟨_, rfl, .write c lo hi payload b hlen hcap, rfl⟩

/-- **The step lemma.** -/
theorem step_carves (p : Progress) (seg : List UInt8) (i : Input) (h : p.Pending cfg seg) :
    Receiver.StepCarves (RequestImage cfg) (Pending cfg) (seg ++ i.byte?.toList)
      (p.step cfg i) := by
  cases i with
  | byte now b => exact feedByte_carves h now b
  | tick now =>
    rw [Input.byte?, Option.toList_none, List.append_nil]
    rcases @tick_cases cfg p now with hsame | hidle
    · exact .inl ⟨rfl, seg, List.suffix_rfl, by rw [step, hsame]; exact h⟩
    · exact .inl ⟨rfl, [], List.nil_suffix, by rw [step, hidle]; rfl⟩

/-- What is pending is kept by every step, one way or the other. -/
theorem pending_step (p : Progress) (i : Input) (h : ∃ seg, p.Pending cfg seg) :
    ∃ seg, (p.step cfg i).1.Pending cfg seg := by
  obtain ⟨seg, h⟩ := h
  rcases step_carves p seg i h with ⟨-, seg', -, h'⟩ | ⟨a, -, -, h'⟩
  · exact ⟨seg', h'⟩
  · exact ⟨[], h'⟩

/-! ## The way back to SYNC -/

/-- The most bytes that can still belong to the frame. -/
def left (cfg : RuntimeConfig) : Progress → Nat
  | idle => 0
  | type _ => requestBound cfg
  | command _ _ => cfg.maxPayload + 4
  | lengthLo _ _ => cfg.maxPayload + 3
  | lengthHi _ _ _ => cfg.maxPayload + 2
  | data _ _ len received => len.toNat - received.length + 1
  | crc _ _ _ => 1

theorem left_le {p : Progress} {seg : List UInt8} (h : p.Pending cfg seg) :
    p.left cfg ≤ requestBound cfg := by
  unfold requestBound
  cases p with
  | idle => exact Nat.zero_le _
  | type => exact Nat.le_refl _
  | data start c len received =>
    obtain ⟨lo, hi, -, hcap, -⟩ := h
    simp only [left]
    omega
  | command | lengthLo | lengthHi | crc =>
    simp only [left]
    omega

theorem left_eq_zero {p : Progress} (h : p.left cfg = 0) : p = idle := by
  cases p with
  | idle => rfl
  | type | command | lengthLo | lengthHi | data | crc =>
    simp only [left, requestBound] at h
    omega

/-- In a frame every byte makes `left` smaller. -/
theorem feedByte_left {p : Progress} {seg : List UInt8} (h : p.Pending cfg seg) (now : UInt32)
    (b : UInt8) (hp : p.left cfg ≠ 0) :
    (p.feedByte cfg now b).1.left cfg + 1 ≤ p.left cfg := by
  cases p with
  | idle => exact absurd rfl hp
  | type start =>
    simp only [feedByte]
    split <;> simp only [left, requestBound] <;> omega
  | command start frameType =>
    simp only [feedByte]
    split <;> simp only [left] <;> omega
  | lengthLo start c => exact Nat.le_refl _
  | lengthHi start c len =>
    simp only [feedByte]
    split_ifs with hbig hzero
    · simp only [left]
      omega
    · simp only [left]
      omega
    · simp only [left, List.length_nil]
      omega
  | data start c len received =>
    obtain ⟨lo, hi, -, -, hlt, -⟩ := h
    simp only [feedByte]
    split
    next =>
      simp only [left]
      omega
    next hmore =>
      simp only [left, List.length_append, List.length_singleton] at hmore ⊢
      omega
  | crc start c payload => exact Nat.le_refl _

theorem step_left (p : Progress) (i : Input) (h : ∃ seg, p.Pending cfg seg)
    (hp : p.left cfg ≠ 0) :
    (p.step cfg i).1.left cfg + i.byte?.toList.length ≤ p.left cfg := by
  obtain ⟨seg, h⟩ := h
  cases i with
  | byte now b => exact feedByte_left h now b hp
  | tick now =>
    rcases @tick_cases cfg p now with hsame | hidle
    · rw [step, hsame]
      exact Nat.le_refl _
    · rw [step, hidle]
      exact Nat.zero_le _

end Progress

namespace Runtime

variable {cfg : RuntimeConfig}

theorem live_idle {rt : Runtime cfg} (h : rt.live = .idle) : rt.state = .sync := by
  unfold live at h
  cases hs : rt.state with
  | sync => rfl
  | type | command | lengthLo | lengthHi | data | crc => simp [hs] at h

/-- The runtime as a receiver, from `Runtime_init` on. -/
theorem run_receiver (now : UInt32) (inputs : List Input) :
    (((init cfg now).run inputs).1.live, ((init cfg now).run inputs).2)
      = Receiver.run (Progress.step cfg) .idle inputs := by
  rw [run_live inputs (@receiving_of_sync cfg [] _ rfl), live_sync rfl, Progress.run_eq]

/-- **Only what was on the wire is acted on.** -/
theorem run_carved (now : UInt32) (inputs : List Input) :
    Carved (RequestImage cfg) ((init cfg now).run inputs).2 (inputs.filterMap Input.byte?) := by
  have hcarved := Receiver.carved_of_step (@Progress.step_carves cfg) inputs
    (show Progress.Pending cfg .idle [] from rfl)
  rwa [← run_receiver now] at hcarved

/-! ## Recovery -/

/-- What brings a runtime back to SYNC from anywhere. -/
inductive Recovers (cfg : RuntimeConfig) : List Input → Prop where
  /-- Enough bytes without a sync byte, whenever `tick` is called. -/
  | filler {inputs : List Input} (hsync : syncByte ∉ inputs.filterMap Input.byte?)
      (hlen : requestBound cfg ≤ (inputs.filterMap Input.byte?).length) : Recovers cfg inputs
  /-- No bytes at all, and two ticks that are further apart than the timeout, but not so far
  that the clock comes round to the stamp of the frame. -/
  | silence {t₁ t₂ : UInt32} {between : List Input}
      (hquiet : between.filterMap Input.byte? = []) (hlate : cfg.timeoutMs < t₂ - t₁)
      (hround : (t₂ - t₁).toNat + cfg.timeoutMs.toNat < 4294967296) :
      Recovers cfg (.tick t₁ :: between ++ [.tick t₂])

end Runtime

namespace Progress

variable {cfg : RuntimeConfig}

/-- Without a sync byte nothing starts. -/
theorem run_idle {inputs : List Input} (hsync : syncByte ∉ inputs.filterMap Input.byte?) :
    (Receiver.run (Progress.step cfg) idle inputs).1 = idle := by
  induction inputs with
  | nil => rfl
  | cons i inputs ih =>
    cases i with
    | tick now => exact ih hsync
    | byte now b =>
      simp only [List.filterMap_cons, Input.byte?, List.mem_cons, not_or] at hsync
      have hb : b ≠ syncByte := fun h => hsync.1 h.symm
      rw [Receiver.run, step, feedByte, if_neg hb]
      exact ih hsync.2

/-- Ticks alone keep the frame or drop it. -/
theorem run_quiet (p : Progress) {inputs : List Input}
    (hquiet : inputs.filterMap Input.byte? = []) :
    (Receiver.run (Progress.step cfg) p inputs).1 = p ∨
      (Receiver.run (Progress.step cfg) p inputs).1 = idle := by
  induction inputs generalizing p with
  | nil => exact .inl rfl
  | cons i inputs ih =>
    cases i with
    | byte now b => simp [Input.byte?] at hquiet
    | tick now =>
      rcases @tick_cases cfg p now with hsame | hidle
      · rw [Receiver.run, step, hsame]
        exact ih p hquiet
      · rw [Receiver.run, step, hidle]
        exact .inr ((or_self _).mp (ih idle hquiet))

/-- Of two ticks that far apart one finds the frame late. -/
theorem tick_late {p : Progress} {t₁ t₂ : UInt32} (hlate : cfg.timeoutMs < t₂ - t₁)
    (hround : (t₂ - t₁).toNat + cfg.timeoutMs.toNat < 4294967296)
    (hkept : p.tick cfg t₁ = p) : p.tick cfg t₂ = idle := by
  unfold tick at hkept ⊢
  cases hstart : p.start with
  | none =>
    cases p with
    | idle => rfl
    | type | command | lengthLo | lengthHi | data | crc => cases hstart
  | some s =>
    rw [hstart] at hkept
    simp only at hkept ⊢
    have hage : t₁ - s ≤ cfg.timeoutMs := by
      by_contra hover
      rw [if_pos (UInt32.not_le.mp hover)] at hkept
      rw [← hkept] at hstart
      cases hstart
    -- the two ages differ by the time between the ticks
    have hsum : (t₂ - s).toNat = (t₂ - t₁).toNat + (t₁ - s).toNat := by
      rw [UInt32.le_iff_toNat_le] at hage
      have h₁ := t₁.toNat_lt
      have h₂ := t₂.toNat_lt
      have hs := s.toNat_lt
      rw [UInt32.toNat_sub] at hage hround
      rw [UInt32.toNat_sub, UInt32.toNat_sub, UInt32.toNat_sub]
      omega
    rw [if_pos]
    rw [gt_iff_lt, UInt32.lt_iff_toNat_lt] at *
    omega

/-- **Both ways end in SYNC**, whatever frame the runtime was in. -/
theorem recovers_idle {p : Progress} {seg : List UInt8} (h : p.Pending cfg seg)
    {inputs : List Input} (hr : Runtime.Recovers cfg inputs) :
    (Receiver.run (Progress.step cfg) p inputs).1 = idle := by
  cases hr with
  | filler hsync hlen =>
    obtain ⟨pre, post, rfl, hzero⟩ := Receiver.reaches_idle (@pending_step cfg) step_left inputs
      ⟨seg, h⟩ (Nat.le_trans (left_le h) hlen)
    rw [List.filterMap_append, List.mem_append, not_or] at hsync
    rw [Receiver.run_append, left_eq_zero hzero]
    exact run_idle hsync.2
  | @silence t₁ t₂ between hquiet hlate hround =>
    rw [Receiver.run_append]
    simp only [Receiver.run, step]
    rcases @run_quiet cfg (p.tick cfg t₁) between hquiet with hsame | hidle
    · rw [hsame]
      rcases @tick_cases cfg p t₁ with hkept | hdropped
      · rw [hkept]
        exact tick_late hlate hround hkept
      · rw [hdropped]
        rfl
    · rw [hidle]
      rfl

end Progress

namespace Runtime

variable {cfg : RuntimeConfig}

theorem run_eq (rt : Runtime cfg) (inputs : List Input) :
    rt.run inputs = Receiver.run Runtime.step rt inputs := by
  induction inputs generalizing rt with
  | nil => rfl
  | cons i inputs ih => simp only [run, Receiver.run, ih]

theorem recovers_sync (now : UInt32) (before : List Input) {recovery : List Input}
    (hr : Recovers cfg recovery) : ((init cfg now).run (before ++ recovery)).1.state = .sync := by
  obtain ⟨seg, hseg⟩ := Receiver.run_keeps (@Progress.pending_step cfg) before
    (s := .idle) ⟨[], rfl⟩
  apply live_idle
  rw [(Prod.mk.inj (run_receiver now (before ++ recovery))).1, Receiver.run_append]
  exact Progress.recovers_idle hseg hr

/-- **Recovery from noise.** After any bytes and ticks at all, and then either so many bytes
without a sync byte as the longest request has behind its own or a silence in which two ticks
are further apart than the timeout, the frames of any requests are dispatched, in order, with
idle bytes around them and ticks in time, and nothing else is. -/
theorem run_recovers {now : UInt32} {before recovery inputs : List Input}
    {requests : List (Request × List UInt8)} {gap : List UInt8} (hr : Recovers cfg recovery)
    (hmax : cfg.maxPayload ≤ 65535)
    (hcap : ∀ rg ∈ requests, rg.1.payload.length ≤ cfg.maxPayload)
    (hgap : syncByte ∉ gap) (hgaps : ∀ rg ∈ requests, syncByte ∉ rg.2)
    (hbytes : inputs.filterMap Input.byte?
      = gap ++ requests.flatMap fun rg => rg.1.frame ++ rg.2)
    (htime : ((init cfg now).run (before ++ recovery)).1.InTime inputs) :
    ((init cfg now).run (before ++ recovery ++ inputs)).2
        = ((init cfg now).run (before ++ recovery)).2 ++ requests.map (fun rg => rg.1.action) ∧
      ((init cfg now).run (before ++ recovery ++ inputs)).1.state = .sync := by
  have hs := recovers_sync now before hr
  obtain ⟨hact, hst⟩ := run_inTime htime
  obtain ⟨rt', hfeed, hs'⟩ := feedBytes_requests hmax requests hs hcap hgaps
  rw [hbytes, feedBytes_append, feedBytes_idle hs hgap, hfeed] at hact hst
  rw [run_eq, Receiver.run_append, ← run_eq, ← run_eq, hact, hst]
  exact ⟨rfl, hs'⟩

/-- A READ frame that is cut off, a silence of eleven milliseconds over which the clock wraps,
and a READ that is dispatched. -/
theorem run_recovers_cut :
    ((init ⟨4, 10⟩ 0).run ([.byte 0xFFFFFFF0 0x55, .byte 0xFFFFFFF0 0x00]
        ++ [.tick 0xFFFFFFF8, .tick 3]
        ++ [.byte 4 0x55, .byte 4 0x00, .tick 9, .byte 9 0x07])).2 = [.dispatchRead 0x07] :=
  (@run_recovers ⟨4, 10⟩ 0 [.byte 0xFFFFFFF0 0x55, .byte 0xFFFFFFF0 0x00]
    [.tick 0xFFFFFFF8, .tick 3] [.byte 4 0x55, .byte 4 0x00, .tick 9, .byte 9 0x07]
    [(.read 0x07, [])] [] (@Recovers.silence _ 0xFFFFFFF8 3 [] rfl (by decide) (by decide))
    (by decide) (by decide) (by decide) (by decide) rfl (by decide)).1

end Runtime

/-! ## The handlers behind the runtime -/

namespace Firmware

variable {cfg : RuntimeConfig} {σ : Type} (fw : Firmware cfg σ)

/-- What is emitted in a run are the answers to its dispatches, each within both caps. -/
theorem output_trace :
    ∀ (inputs : List Input) {d : Board cfg σ},
      (∀ x ∈ fw.calls (fun _ _ => true) d inputs, fw.StepFits x.1 x.2) →
      fw.output d inputs
          = ((fw.trace d.app (d.runtime.run inputs).2).map fun x => fw.answer x.1 x.2).flatMap
            (replyBytes cfg) ∧
        ∀ x ∈ fw.trace d.app (d.runtime.run inputs).2,
          (replyPayload (fw.answer x.1 x.2)).length ≤ min cfg.maxPayload maxPayloadSize := by
  intro inputs
  induction inputs with
  | nil => intro d _; exact ⟨rfl, fun _ h => absurd h List.not_mem_nil⟩
  | cons i inputs ih =>
    intro d hfit
    obtain ⟨hstep, hrest⟩ := List.forall_mem_cons.mp hfit
    obtain ⟨hout, hcap⟩ := ih hrest
    have hcall : fw.output d (i :: inputs)
        = fw.emitted d i ++ fw.output (fw.step (fun _ _ => true) d i).1 inputs := rfl
    have hact := step_actions d.runtime i
    rw [hcall, hout]
    cases hc : completes d.runtime i with
    | none =>
      rw [hc] at hact
      simp only at hact
      have happ : (fw.step (fun _ _ => true) d i).1.app = d.app := by
        simp only [step, hact, performAll]
      rw [fw.emitted_nil hact, Runtime.run, hact, ← happ]
      exact ⟨rfl, hcap⟩
    | some c =>
      rw [hc] at hact
      obtain ⟨a, ha, -⟩ := hact
      have happ : (fw.step (fun _ _ => true) d i).1.app = fw.after d.app a := by
        simp only [step, ha, performAll, after]
      have hfits := hstep a (by rw [ha]; exact List.mem_singleton_self a)
      rw [happ] at hcap ⊢
      rw [fw.emitted_single ha, fw.perform_answer d.app hfits, Runtime.run, ha]
      exact ⟨rfl, List.forall_mem_cons.mpr ⟨fw.answer_length d.app hfits, hcap⟩⟩

/-- **The device on any bytes at all.** Feed anything to a device that has just been started,
with ticks anywhere, no handler offering as DATA what is too large. There are request frames in
the stream, disjoint and in order, such that what the host reads of all that is emitted, cut
anywhere, is one answer for each: that of the handler, on the state the one before left, or a
NACK where the CRC of the frame is wrong. -/
theorem output_answers (now : UInt32) (app : σ) (inputs : List Input)
    (hfit : ∀ x ∈ fw.calls (fun _ _ => true) ⟨Runtime.init cfg now, app⟩ inputs,
      fw.StepFits x.1 x.2) :
    ∃ actions, Carved (RequestImage cfg) actions (inputs.filterMap Input.byte?) ∧
      ∀ (p : FrameParser) (chunks : List (List UInt8)), p.state = .sync → p.addressing = false →
        chunks.flatten = fw.output ⟨Runtime.init cfg now, app⟩ inputs →
        (p.feedChunks chunks).2 = (fw.trace app actions).map fun x => fw.answer x.1 x.2 := by
  refine ⟨_, Runtime.run_carved now inputs, fun p chunks hs ha hcut => ?_⟩
  obtain ⟨hout, hcap⟩ := fw.output_trace inputs hfit
  have hreplies := feedBytes_replies cfg
    ((fw.trace app ((Runtime.init cfg now).run inputs).2).map fun x => (fw.answer x.1 x.2, []))
    hs ha (List.forall_mem_map.mpr hcap) (List.forall_mem_map.mpr fun _ _ => List.not_mem_nil)
  simp only [List.flatMap_map, List.append_nil, List.map_map] at hreplies
  rw [FrameParser.feedChunks_eq, hcut, hout, List.flatMap_map]
  exact hreplies.1

instance (o : Outcome) : Decidable (o.Fits cfg) :=
  match o with
  | .data size => inferInstanceAs (Decidable (size ≤ cfg.maxPayload ∧ size ≤ maxPayloadSize))
  | .ack => isTrue trivial
  | .nack => isTrue trivial

instance (d : Board cfg σ) (i : Input) : Decidable (fw.StepFits d i) :=
  inferInstanceAs (Decidable (∀ a ∈ (d.runtime.step i).2, (fw.outcome d.app a).Fits cfg))

end Firmware

/-- The file device with chunks of two bytes, which count the queries. -/
def counting : Firmware ⟨64, 100⟩ UInt8 where
  data := downloadData
  codec := ⟨fun _ _ => Vector.replicate _ 0, fun _ _ => .struct []⟩
  handlers :=
    { onRead := fun _ s => (s, false, .struct [])
      onReadRaw := fun _ s => (s, false, ⟨Vector.replicate _ 0, 0⟩)
      onWrite := fun _ _ s => (s, .nack)
      onQuery := fun _ _ s => (s + 1, .data, ⟨Vector.replicate _ s, 2⟩) }

/-- A query, noise with a sync byte in it, a query with a wrong CRC, and, after a frame that a
tick drops, a third one. -/
def noisy : List Input :=
  [0x55, 0x01, 0x07, 0x01, 0x00, 0x03, crc8 [0x03], 0xFF, 0x55, 0x09, 0x55, 0x01, 0x07, 0x00, 0x00,
      0x01, 0x55, 0x01].map (.byte 0)
    ++ .tick 101 :: [0x55, 0x01, 0x07, 0x00, 0x00, 0x00].map (.byte 101)

theorem output_answers_noisy :
    (∃ actions, Carved (RequestImage ⟨64, 100⟩) actions (noisy.filterMap Input.byte?) ∧
      (FrameParser.new.feedChunks [counting.output ⟨Runtime.init _ 0, 4⟩ noisy]).2
        = (counting.trace 4 actions).map fun x => counting.answer x.1 x.2) ∧
      (FrameParser.new.feedChunks [counting.output ⟨Runtime.init _ 0, 4⟩ noisy]).2
        = [.data 0x07 [4, 4], .nack 0x07, .data 0x07 [5, 5]] := by
  refine ⟨?_, by decide +kernel⟩
  obtain ⟨actions, hcarved, hread⟩ :=
    Firmware.output_answers counting 0 4 noisy (by decide +kernel)
  exact ⟨actions, hcarved, hread FrameParser.new _ rfl rfl (List.append_nil _)⟩

end ProtoEmb.Device
