import ProtoEmb.Device.Runtime
import ProtoEmb.Framing.WireImage

/-!
# What the receive state machine does with a run of bytes

Two reductions of `Runtime_feedByte` and `Runtime_tick` carry every later result about the device.

* The clock matters only to `tick`: `feedByte` stores it and never reads it, so a
  run in which every tick falls inside the frame timeout performs exactly the
  actions of the plain byte run (`run_inTime`).
* On plain bytes (`feedBytes`) each part of a frame has one lemma: idle bytes, the
  request header, an oversized length, and a body with its CRC byte, right or
  wrong.
-/

namespace ProtoEmb.Device

open ProtoEmb.Lib ProtoEmb.Framing

namespace Runtime

variable {cfg : RuntimeConfig}

/-- Feed bytes with no ticks between them, the clock standing still. -/
def feedBytes (rt : Runtime cfg) : List UInt8 → Runtime cfg × List Action
  | [] => (rt, [])
  | b :: bs =>
    let r := rt.feedByte 0 b
    let t := feedBytes r.1 bs
    (t.1, r.2 ++ t.2)

theorem feedBytes_append (rt : Runtime cfg) (a b : List UInt8) :
    rt.feedBytes (a ++ b)
      = (((rt.feedBytes a).1.feedBytes b).1,
          (rt.feedBytes a).2 ++ ((rt.feedBytes a).1.feedBytes b).2) := by
  induction a generalizing rt with
  | nil => simp [feedBytes]
  | cons x a ih => simp [feedBytes, ih]

/-! ## The clock -/

/-- Every tick of the run falls inside the frame timeout, or outside a frame. -/
def InTime (rt : Runtime cfg) : List Input → Prop
  | [] => True
  | .byte now b :: rest => InTime (rt.feedByte now b).1 rest
  | .tick now :: rest =>
    (rt.state = .sync ∨ now - rt.startMs ≤ cfg.timeoutMs) ∧ InTime (rt.tick now) rest

instance decidableInTime (rt : Runtime cfg) (inputs : List Input) :
    Decidable (InTime rt inputs) :=
  match inputs with
  | [] => isTrue trivial
  | .byte now b :: rest => decidableInTime (rt.feedByte now b).1 rest
  | .tick now :: rest =>
    have := decidableInTime (rt.tick now) rest
    inferInstanceAs (Decidable (_ ∧ _))

/-- A tick inside the timeout changes nothing. -/
theorem tick_inTime {rt : Runtime cfg} {now : UInt32}
    (h : rt.state = .sync ∨ now - rt.startMs ≤ cfg.timeoutMs) : rt.tick now = rt := by
  unfold tick
  by_cases hs : rt.state = .sync
  · rw [if_pos hs]
  · have hle := h.resolve_left hs
    rw [if_neg hs, if_neg (UInt32.not_lt.mpr hle)]

/-- `feedByte` does the same at every clock reading, except for the stamp it
leaves in `startMs`. -/
theorem feedByte_clock (rt : Runtime cfg) (now s : UInt32) (b : UInt8) :
    ∃ s', { rt with startMs := s }.feedByte 0 b
      = ({ (rt.feedByte now b).1 with startMs := s' }, (rt.feedByte now b).2) := by
  obtain ⟨state, startMs, frameType, command, payloadLength, payloadIndex, payload⟩ := rt
  cases state <;> simp only [feedByte] <;> (try split) <;> (try split) <;>
    exact ⟨_, rfl⟩

/-- A run whose ticks are all in time is the run of its bytes alone, up to
`startMs`. -/
theorem run_untimed :
    ∀ (inputs : List Input) {rt : Runtime cfg} (s : UInt32), rt.InTime inputs →
      ∃ s', { rt with startMs := s }.feedBytes (inputs.filterMap Input.byte?)
        = ({ (rt.run inputs).1 with startMs := s' }, (rt.run inputs).2) := by
  intro inputs
  induction inputs with
  | nil => intro rt s _; exact ⟨s, rfl⟩
  | cons i rest ih =>
    intro rt s h
    cases i with
    | tick now =>
      obtain ⟨htick, hrest⟩ := h
      have hsame := tick_inTime htick
      rw [hsame] at hrest
      obtain ⟨s', hs'⟩ := ih s hrest
      refine ⟨s', ?_⟩
      simp only [run, step, hsame, List.nil_append]
      exact hs'
    | byte now b =>
      obtain ⟨s₁, hs₁⟩ := feedByte_clock rt now s b
      obtain ⟨s', hs'⟩ := ih s₁ h
      refine ⟨s', ?_⟩
      simp only [List.filterMap_cons, Input.byte?, feedBytes, run, step, hs₁, hs']

/-- **The clock is only read by late ticks.** A run whose ticks are all in time
performs the actions of its bytes alone and ends in the same parser state. -/
theorem run_inTime {rt : Runtime cfg} {inputs : List Input} (h : rt.InTime inputs) :
    (rt.run inputs).2 = (rt.feedBytes (inputs.filterMap Input.byte?)).2 ∧
      (rt.run inputs).1.state = (rt.feedBytes (inputs.filterMap Input.byte?)).1.state := by
  obtain ⟨s', hrun⟩ := run_untimed inputs rt.startMs h
  have hrt : rt.feedBytes (inputs.filterMap Input.byte?)
      = ({ (rt.run inputs).1 with startMs := s' }, (rt.run inputs).2) := hrun
  rw [hrt]
  exact ⟨rfl, rfl⟩

/-! ## The parts of a request -/

/-- Bytes without a sync byte leave a runtime in SYNC untouched. -/
theorem feedBytes_idle {rt : Runtime cfg} (hs : rt.state = .sync) {gap : List UInt8}
    (hgap : syncByte ∉ gap) : rt.feedBytes gap = (rt, []) := by
  induction gap with
  | nil => rfl
  | cons b gap ih =>
    have hb : b ≠ syncByte := fun h => hgap (h ▸ List.mem_cons_self ..)
    have hrest := ih (fun h => hgap (List.mem_cons_of_mem _ h))
    simp only [feedBytes, feedByte_sync_idle hs hb, hrest, List.append_nil]

/-- A READ request is dispatched at its command byte. -/
theorem feedBytes_read {rt : Runtime cfg} (hs : rt.state = .sync) (c : UInt8) :
    ∃ rt', rt.feedBytes [syncByte, 0x00, c] = (rt', [.dispatchRead c]) ∧ rt'.state = .sync := by
  simp only [feedBytes, feedByte_sync_start hs, feedByte_type_ok, true_or,
    feedByte_command_read, List.nil_append, List.append_nil]
  exact ⟨_, rfl, rfl⟩

/-- A byte after the sync byte that is no request type drops the frame. -/
theorem feedBytes_badType {rt : Runtime cfg} (hs : rt.state = .sync) {ty : UInt8}
    (hty : ¬ (ty = 0x00 ∨ ty = 0x01)) :
    ∃ rt', rt.feedBytes [syncByte, ty] = (rt', []) ∧ rt'.state = .sync := by
  simp only [feedBytes, feedByte_sync_start hs,
    feedByte_type_bad (r := { rt with state := .type, startMs := 0 }) rfl hty]
  exact ⟨_, rfl, rfl⟩

/-- A WRITE header leaves the runtime waiting for the length. -/
theorem feedBytes_writeHeader {rt : Runtime cfg} (hs : rt.state = .sync) (c : UInt8) :
    ∃ rt', rt.feedBytes [syncByte, 0x01, c] = (rt', []) ∧ rt'.state = .lengthLo ∧
      rt'.command = c := by
  have ht := feedByte_type_ok (r := { rt with state := .type, startMs := 0 }) (t := 0)
    (b := 0x01) rfl (Or.inr rfl)
  have hc := feedByte_command_write
    (r := { rt with frameType := 0x01, state := .command, startMs := 0 }) (t := 0) (b := c)
    rfl (show (0x01 : UInt8) ≠ 0x00 by decide)
  simp only [feedBytes, feedByte_sync_start hs, ht, hc]
  exact ⟨_, rfl, rfl, rfl⟩

/-- A length above the buffer drops the frame without an action. -/
theorem feedBytes_oversize {rt : Runtime cfg} (hs : rt.state = .lengthLo) {lo hi : UInt8}
    (hbig : cfg.maxPayload < (u16OfLe lo hi).toNat) :
    ∃ rt', rt.feedBytes [lo, hi] = (rt', []) ∧ rt'.state = .sync := by
  have hhi := feedByte_lengthHi_big (t := 0)
    (r := { rt with payloadLength := lo.toUInt16, state := .lengthHi }) rfl rfl hbig
  simp only [feedBytes, feedByte_lengthLo hs, hhi]
  exact ⟨_, rfl, rfl⟩

/-- What a runtime in the middle of a payload has collected so far. -/
def collected (rt : Runtime cfg) : List UInt8 := rt.payload.toList.take rt.payloadIndex.toNat

/-- Storing one payload byte appends it to what is collected. -/
theorem collected_set (rt : Runtime cfg) (b : UInt8) (h : rt.payloadIndex.toNat < cfg.maxPayload) :
    (rt.payload.set rt.payloadIndex.toNat b h).toList.take (rt.payloadIndex.toNat + 1)
      = rt.collected ++ [b] := by
  have hlen : rt.payloadIndex.toNat < rt.payload.toList.length := by
    rw [Vector.length_toList]
    exact h
  rw [Vector.toList_set, List.take_add_one, List.getElem?_set_self hlen, List.take_set_of_le
    (Nat.le_refl _)]
  rfl

/-- Fewer bytes than announced are stored and nothing happens. The induction is on
the bytes to come; the index counts what is collected. -/
theorem feedBytes_collect :
    ∀ (ds : List UInt8) {r : Runtime cfg}, r.state = .data →
      r.payloadIndex.toNat + ds.length ≤ r.payloadLength.toNat →
      r.payloadLength.toNat ≤ cfg.maxPayload →
      ∃ r', r.feedBytes ds = (r', []) ∧ r'.command = r.command ∧
        r'.payloadLength = r.payloadLength ∧ r'.collected = r.collected ++ ds ∧
        r'.payloadIndex.toNat = r.payloadIndex.toNat + ds.length ∧
        (ds ≠ [] → r'.state = if r'.payloadIndex ≥ r'.payloadLength then .crc else .data) := by
  intro ds
  induction ds with
  | nil => intro r _ _ _; exact ⟨r, rfl, rfl, rfl, by simp, rfl, fun h => absurd rfl h⟩
  | cons b ds ih =>
    intro r hs hlen hmax
    simp only [List.length_cons] at hlen
    have hidx : r.payloadIndex.toNat < cfg.maxPayload := by omega
    have hwrap : r.payloadLength.toNat < 65536 := r.payloadLength.toNat_lt
    have hsucc : (r.payloadIndex + 1).toNat = r.payloadIndex.toNat + 1 := by
      rw [UInt16.toNat_add, UInt16.toNat_one]
      omega
    have hstep := feedByte_data (t := 0) (b := b) hs hidx
    -- the last byte of these may also be the last that was announced
    by_cases hlast : ds = []
    · subst hlast
      have hfeed : r.feedBytes [b] = ((r.feedByte 0 b).1, []) := by
        simp only [feedBytes, hstep, List.append_nil]
      rw [hstep] at hfeed
      refine ⟨_, hfeed, rfl, rfl, ?_, hsucc, fun _ => rfl⟩
      rw [collected, hsucc, collected_set]
    · have hpos : 0 < ds.length := List.length_pos_iff.mpr hlast
      have hmore : ¬ r.payloadIndex + 1 ≥ r.payloadLength := by
        rw [ge_iff_le, UInt16.le_iff_toNat_le, hsucc]
        omega
      rw [if_neg hmore] at hstep
      obtain ⟨r', hfeed, hc, hl, hcol, hi, hst⟩ := ih
        (r := { r with payload := r.payload.set r.payloadIndex.toNat b hidx,
                         payloadIndex := r.payloadIndex + 1, state := .data })
        rfl (by simp only [hsucc]; omega) hmax
      refine ⟨r', by simp only [feedBytes, hstep, hfeed, List.append_nil], hc, hl, ?_, ?_,
        fun _ => hst hlast⟩
      · rw [hcol, collected, hsucc, collected_set, List.append_assoc]
        rfl
      · rw [hi, hsucc, List.length_cons]
        omega

/-- The two length bytes of a payload that fits bring the runtime to its payload,
or straight to the CRC byte if there is none. -/
theorem feedBytes_length {rt : Runtime cfg} (hs : rt.state = .lengthLo) {lo hi : UInt8}
    (hle : (u16OfLe lo hi).toNat ≤ cfg.maxPayload) :
    ∃ rt', rt.feedBytes [lo, hi] = (rt', []) ∧ rt'.command = rt.command ∧
      rt'.payloadLength = u16OfLe lo hi ∧ rt'.payloadIndex = 0 ∧
      rt'.state = if u16OfLe lo hi = 0 then .crc else .data := by
  by_cases hz : u16OfLe lo hi = 0
  · have hhi := feedByte_lengthHi_zero (t := 0)
      (r := { rt with payloadLength := lo.toUInt16, state := .lengthHi }) rfl rfl hz
    simp only [feedBytes, feedByte_lengthLo hs, hhi, List.append_nil]
    refine ⟨_, rfl, rfl, hz.symm, rfl, ?_⟩
    rw [if_pos hz]
  · have hhi := feedByte_lengthHi_data (t := 0)
      (r := { rt with payloadLength := lo.toUInt16, state := .lengthHi }) rfl rfl hle hz
    simp only [feedBytes, feedByte_lengthLo hs, hhi, List.append_nil]
    refine ⟨_, rfl, rfl, rfl, rfl, ?_⟩
    rw [if_neg hz]

/-- A body cut short, at most its whole payload: no action. -/
theorem feedBytes_cutBody {rt : Runtime cfg} (hs : rt.state = .lengthLo) {lo hi : UInt8}
    {ds : List UInt8} (hle : (u16OfLe lo hi).toNat ≤ cfg.maxPayload)
    (hcut : ds.length ≤ (u16OfLe lo hi).toNat) : (rt.feedBytes (lo :: hi :: ds)).2 = [] := by
  obtain ⟨rt₁, hfeed₁, -, hl₁, hi₁, hst₁⟩ := feedBytes_length hs hle
  rw [show lo :: hi :: ds = [lo, hi] ++ ds from rfl, feedBytes_append, hfeed₁]
  by_cases hz : u16OfLe lo hi = 0
  · have hnil : ds = [] := by
      apply List.eq_nil_of_length_eq_zero
      rw [hz] at hcut
      exact Nat.eq_zero_of_le_zero hcut
    rw [hnil]
    rfl
  · rw [if_neg hz] at hst₁
    obtain ⟨rt₂, hfeed₂, -⟩ := feedBytes_collect ds hst₁
      (by rw [hi₁, hl₁]; simpa using hcut) (by rw [hl₁]; exact hle)
    rw [hfeed₂]
    rfl

/-- A whole body with its CRC byte: the payload is dispatched if the byte is its
CRC, and rejected with a NACK otherwise. -/
theorem feedBytes_body {rt : Runtime cfg} (hs : rt.state = .lengthLo) {lo hi : UInt8}
    (crc : UInt8) {payload : List UInt8} (hlen : (u16OfLe lo hi).toNat = payload.length)
    (hle : payload.length ≤ cfg.maxPayload) :
    ∃ rt', rt.feedBytes (lo :: hi :: (payload ++ [crc]))
        = (rt', [if crc = crc8 payload then .dispatchWrite rt.command payload
                 else .sendNack rt.command]) ∧ rt'.state = .sync := by
  have hle' : (u16OfLe lo hi).toNat ≤ cfg.maxPayload := by rw [hlen]; exact hle
  obtain ⟨rt₁, hfeed₁, hc₁, hl₁, hi₁, hst₁⟩ := feedBytes_length hs hle'
  -- in both cases the CRC state is reached with exactly `payload` collected
  obtain ⟨rt₂, hfeed₂, hc₂, hl₂, hst₂, hrec⟩ : ∃ rt₂, rt₁.feedBytes payload = (rt₂, []) ∧
      rt₂.command = rt₁.command ∧ rt₂.payloadLength = u16OfLe lo hi ∧ rt₂.state = .crc ∧
      rt₂.received = payload := by
    by_cases hz : u16OfLe lo hi = 0
    · have hnil : payload = [] := by
        apply List.eq_nil_of_length_eq_zero
        rw [← hlen, hz]
        rfl
      rw [if_pos hz] at hst₁
      refine ⟨rt₁, by rw [hnil]; rfl, rfl, hl₁, hst₁, ?_⟩
      rw [received, hl₁, hlen, hnil]
      rfl
    · rw [if_neg hz] at hst₁
      have hne : payload ≠ [] := by
        intro h
        rw [h] at hlen
        exact hz (UInt16.toNat_inj.mp hlen)
      obtain ⟨rt₂, hfeed₂, hc₂, hl₂, hcol, hidx, hst₂⟩ := feedBytes_collect payload hst₁
        (by rw [hi₁, hl₁, hlen]; simp) (by rw [hl₁]; exact hle')
      rw [hi₁, UInt16.toNat_zero, Nat.zero_add] at hidx
      have heq : rt₂.payloadIndex = rt₂.payloadLength := by
        apply UInt16.toNat_inj.mp
        rw [hidx, hl₂, hl₁, hlen]
      refine ⟨rt₂, hfeed₂, hc₂, hl₂.trans hl₁, ?_, ?_⟩
      · rw [hst₂ hne, if_pos (by rw [heq]; exact UInt16.le_refl _)]
      · rw [received, ← heq]
        refine hcol.trans ?_
        rw [collected, hi₁]
        simp
  have hcrc := feedByte_crc (t := 0) (b := crc) hst₂ (by rw [hl₂]; exact hle')
  refine ⟨reset rt₂, ?_, rfl⟩
  rw [show lo :: hi :: (payload ++ [crc]) = [lo, hi] ++ (payload ++ [crc]) from rfl,
    feedBytes_append, hfeed₁, feedBytes_append, hfeed₂]
  simp only [feedBytes, hcrc, hrec, hc₂, hc₁, List.nil_append, List.append_nil]

end Runtime

end ProtoEmb.Device
