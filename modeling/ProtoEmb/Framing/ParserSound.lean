import ProtoEmb.Framing.WireImage

/-!
# Parser soundness: only what was on the wire is emitted

`WireImage.feed_wireImage` is the completeness half. This file proves the
converse for an arbitrary byte stream: whatever a parser emits, it emits for
pairwise disjoint stretches of the stream, in order, each of which is exactly
the wire image of the emitted frame.

The invariant is `Pending p seg`: the bytes `seg` since the last sync byte that
the parser is still working on, reconstructed from its fields in every state. A
step either extends `seg` by the byte fed, abandons it (invalid type, oversize
length, CRC mismatch), or completes it, and then `seg` with that byte is a
`WireImage` (`feed_pending`). Abandoned bytes become part of a gap.

The parser is `FrameParser` of `framing/src/lib.rs`. Gaps and segments are not in the source,
which keeps none of the bytes it has read but the payload.
-/

namespace ProtoEmb.Framing

open ProtoEmb.Lib

/-- The stream splits into gaps and wire images, one image per frame, in the
order of the frames: `gap₀ seg₁ gap₁ … segₙ gapₙ`. -/
inductive Segmented (addressing : Bool) : List ParsedFrame → List UInt8 → Prop where
  | done (gap : List UInt8) : Segmented addressing [] gap
  | frame {f : ParsedFrame} {fs : List ParsedFrame} {seg rest : List UInt8} (gap : List UInt8)
      (himg : WireImage addressing f seg) (htail : Segmented addressing fs rest) :
      Segmented addressing (f :: fs) (gap ++ seg ++ rest)

/-- Bytes in front only widen the first gap. -/
theorem Segmented.prepend {a : Bool} {fs : List ParsedFrame} {s : List UInt8} (g : List UInt8)
    (h : Segmented a fs s) : Segmented a fs (g ++ s) := by
  cases h with
  | done gap => exact .done _
  | frame gap himg htail =>
    rw [← List.append_assoc, ← List.append_assoc]
    exact .frame (g ++ gap) himg htail

/-- Every frame took at least three bytes of its own. -/
theorem Segmented.three_mul_le {a : Bool} {fs : List ParsedFrame} {s : List UInt8}
    (h : Segmented a fs s) : 3 * fs.length ≤ s.length := by
  induction h with
  | done gap => simp
  | frame gap himg _ ih =>
    have := himg.three_le
    simp only [List.length_cons, List.length_append]
    omega

namespace FrameParser

/-- The parser is inside a DATA or NOTIFICATION frame. -/
def InPayloadFrame (p : FrameParser) : Prop := p.frameType = 0x02 ∨ p.frameType = 0x03

/-- The bytes since the last sync byte that the parser is working on. -/
def Pending (p : FrameParser) (seg : List UInt8) : Prop :=
  match p.state with
  | .sync => seg = []
  | .source => p.addressing = true ∧ seg = [syncByte]
  | .type => ∃ src, seg = syncByte :: (if p.addressing then [src] else [])
  | .command =>
    ∃ src, ¬ p.frameType > 0x03 ∧
      seg = syncByte :: ((if p.addressing then [src] else []) ++ [p.frameType])
  | .lengthLo =>
    ∃ src, p.InPayloadFrame ∧ seg = header p.addressing src p.frameType p.command
  | .lengthHi =>
    ∃ src lo, p.InPayloadFrame ∧ p.dataLen = lo.toUInt16 ∧
      seg = header p.addressing src p.frameType p.command ++ [lo]
  | .data =>
    ∃ src lo hi, p.InPayloadFrame ∧ p.dataLen = u16OfLe lo hi ∧
      p.dataLen.toNat ≤ maxPayloadSize ∧ p.dataReceived.toNat = p.buf.length ∧
      p.buf.length < p.dataLen.toNat ∧
      seg = header p.addressing src p.frameType p.command ++ lo :: hi :: p.buf
  | .crc =>
    ∃ src lo hi, p.InPayloadFrame ∧ lo.toNat + 256 * hi.toNat = p.buf.length ∧
      p.buf.length ≤ maxPayloadSize ∧
      seg = header p.addressing src p.frameType p.command ++ lo :: hi :: p.buf

/-- What one byte can do to the pending bytes. -/
def StepOutcome (p : FrameParser) (seg : List UInt8) (b : UInt8)
    (r : FrameParser × Option ParsedFrame) : Prop :=
  r.1.addressing = p.addressing ∧
    match r.2 with
    | none => r.1.Pending (seg ++ [b]) ∨ r.1.state = .sync
    | some f => WireImage p.addressing f (seg ++ [b]) ∧ r.1.state = .sync

theorem feed_pending_sync {p : FrameParser} {seg : List UInt8} (b : UInt8)
    (hs : p.state = .sync) (h : p.Pending seg) : p.StepOutcome seg b (p.feed b) := by
  have hseg : seg = [] := by simpa [Pending, hs] using h
  subst hseg
  by_cases hb : b = syncByte
  · subst hb
    rw [feed_sync_start hs]
    refine ⟨rfl, Or.inl ?_⟩
    cases p.addressing <;> simp [Pending]
  · rw [feed_sync_idle hs hb]
    exact ⟨rfl, Or.inr hs⟩

theorem feed_pending_source {p : FrameParser} {seg : List UInt8} (b : UInt8)
    (hs : p.state = .source) (h : p.Pending seg) : p.StepOutcome seg b (p.feed b) := by
  simp only [Pending, hs] at h
  obtain ⟨ha, rfl⟩ := h
  rw [feed_source hs]
  exact ⟨rfl, Or.inl ⟨b, by simp [ha]⟩⟩

theorem feed_pending_type {p : FrameParser} {seg : List UInt8} (b : UInt8)
    (hs : p.state = .type) (h : p.Pending seg) : p.StepOutcome seg b (p.feed b) := by
  simp only [Pending, hs] at h
  obtain ⟨src, rfl⟩ := h
  rw [feed_type hs]
  by_cases hb : b > 0x03
  · exact ⟨rfl, Or.inr (by simp [hb])⟩
  · rw [if_neg hb]
    exact ⟨rfl, Or.inl ⟨src, hb, rfl⟩⟩

/-- The four valid type bytes. -/
theorem type_cases {t : UInt8} (h : ¬ t > 0x03) :
    t = 0x00 ∨ t = 0x01 ∨ t = 0x02 ∨ t = 0x03 := by
  have hlt : t.toNat ≤ 3 := by
    rw [gt_iff_lt, UInt8.lt_iff_toNat_lt] at h
    exact Nat.not_lt.mp h
  have hcases : t.toNat = 0 ∨ t.toNat = 1 ∨ t.toNat = 2 ∨ t.toNat = 3 := by omega
  rcases hcases with h | h | h | h
  · exact Or.inl (UInt8.toNat_inj.mp h)
  · exact Or.inr (Or.inl (UInt8.toNat_inj.mp h))
  · exact Or.inr (Or.inr (Or.inl (UInt8.toNat_inj.mp h)))
  · exact Or.inr (Or.inr (Or.inr (UInt8.toNat_inj.mp h)))

theorem feed_pending_command {p : FrameParser} {seg : List UInt8} (b : UInt8)
    (hs : p.state = .command) (h : p.Pending seg) : p.StepOutcome seg b (p.feed b) := by
  simp only [Pending, hs] at h
  obtain ⟨src, hty, rfl⟩ := h
  rw [StepOutcome, ← header_snoc]
  rcases type_cases hty with ht | ht | hpay
  · rw [feed_command_nack hs ht, ht]
    exact ⟨rfl, .nack src b, rfl⟩
  · rw [feed_command_ack hs ht, ht]
    exact ⟨rfl, .ack src b, rfl⟩
  · rw [feed_command_payload hs hpay]
    exact ⟨rfl, Or.inl ⟨src, hpay, rfl⟩⟩

theorem feed_pending_lengthLo {p : FrameParser} {seg : List UInt8} (b : UInt8)
    (hs : p.state = .lengthLo) (h : p.Pending seg) : p.StepOutcome seg b (p.feed b) := by
  simp only [Pending, hs] at h
  obtain ⟨src, hpay, rfl⟩ := h
  rw [feed_lengthLo hs]
  exact ⟨rfl, Or.inl ⟨src, b, hpay, rfl, rfl⟩⟩

theorem feed_pending_lengthHi {p : FrameParser} {seg : List UInt8} (b : UInt8)
    (hs : p.state = .lengthHi) (h : p.Pending seg) : p.StepOutcome seg b (p.feed b) := by
  simp only [Pending, hs] at h
  obtain ⟨src, lo, hpay, hlo, rfl⟩ := h
  by_cases hz : u16OfLe lo b = 0
  · rw [feed_lengthHi_zero hs hlo hz]
    have hlen : lo.toNat + 256 * b.toNat = 0 := by
      rw [← u16OfLe_toNat, hz]
      rfl
    exact ⟨rfl, Or.inl ⟨src, lo, b, hpay, hlen, Nat.zero_le _, by simp⟩⟩
  · by_cases hbig : maxPayloadSize < (u16OfLe lo b).toNat
    · rw [feed_lengthHi_big hs hlo hbig]
      exact ⟨rfl, Or.inr rfl⟩
    · rw [feed_lengthHi_data hs hlo hz (Nat.not_lt.mp hbig)]
      have hpos : 0 < (u16OfLe lo b).toNat := by
        refine Nat.pos_of_ne_zero (fun h0 => hz (UInt16.toNat_inj.mp ?_))
        rw [h0]
        rfl
      exact ⟨rfl, Or.inl ⟨src, lo, b, hpay, rfl, Nat.not_lt.mp hbig, rfl, hpos, by simp⟩⟩

theorem feed_pending_data {p : FrameParser} {seg : List UInt8} (b : UInt8)
    (hs : p.state = .data) (h : p.Pending seg) : p.StepOutcome seg b (p.feed b) := by
  simp only [Pending, hs] at h
  obtain ⟨src, lo, hi, hpay, hlen, hmax, hrec, hlt, rfl⟩ := h
  have h16 : p.dataLen.toNat < 65536 := p.dataLen.toNat_lt
  have hsucc : (p.dataReceived + 1).toNat = p.buf.length + 1 := by
    rw [UInt16.toNat_add, hrec, UInt16.toNat_one]
    omega
  rw [feed_data hs]
  refine ⟨rfl, Or.inl ?_⟩
  by_cases hlast : p.dataReceived + 1 ≥ p.dataLen
  · have hfull : p.dataLen.toNat = p.buf.length + 1 := by
      rw [ge_iff_le, UInt16.le_iff_toNat_le, hsucc] at hlast
      omega
    rw [if_pos hlast]
    refine ⟨src, lo, hi, hpay, ?_, ?_, by simp⟩
    · rw [← u16OfLe_toNat, ← hlen, hfull]
      simp
    · simp only [List.length_append, List.length_singleton]
      omega
  · rw [if_neg hlast]
    rw [ge_iff_le, UInt16.le_iff_toNat_le, hsucc] at hlast
    refine ⟨src, lo, hi, hpay, hlen, hmax, ?_, ?_, by simp⟩
    · simpa using hsucc
    · simp only [List.length_append, List.length_singleton]
      omega

theorem feed_pending_crc {p : FrameParser} {seg : List UInt8} (b : UInt8)
    (hs : p.state = .crc) (h : p.Pending seg) : p.StepOutcome seg b (p.feed b) := by
  simp only [Pending, hs] at h
  obtain ⟨src, lo, hi, hpay, hlen, hmax, rfl⟩ := h
  by_cases hb : b = crc8 p.buf
  · subst hb
    rw [feed_crc_ok hs]
    have hseg : ∀ ty, (header p.addressing src ty p.command ++ lo :: hi :: p.buf) ++ [crc8 p.buf]
        = header p.addressing src ty p.command ++ body lo hi p.buf := by
      intro ty
      simp [body]
    rcases hpay with ht | ht
    · simp only [StepOutcome, ht, hseg, if_true]
      exact ⟨trivial, .data src p.command lo hi p.buf hlen hmax, trivial⟩
    · simp only [StepOutcome, ht, hseg, if_true]
      exact ⟨trivial, .notification src p.command lo hi p.buf hlen hmax, trivial⟩
  · rw [feed_crc_bad hs hb]
    exact ⟨rfl, Or.inr rfl⟩

/-- **The step lemma**: one byte extends, abandons or completes the pending
bytes. -/
theorem feed_pending {p : FrameParser} {seg : List UInt8} (b : UInt8) (h : p.Pending seg) :
    p.StepOutcome seg b (p.feed b) := by
  cases hs : p.state with
  | sync => exact feed_pending_sync b hs h
  | source => exact feed_pending_source b hs h
  | type => exact feed_pending_type b hs h
  | command => exact feed_pending_command b hs h
  | lengthLo => exact feed_pending_lengthLo b hs h
  | lengthHi => exact feed_pending_lengthHi b hs h
  | data => exact feed_pending_data b hs h
  | crc => exact feed_pending_crc b hs h

theorem pending_of_sync {p : FrameParser} (hs : p.state = .sync) : p.Pending [] := by
  simp [Pending, hs]

/-- **The run lemma**: the frames emitted on a stream segment the pending bytes
followed by that stream. -/
theorem feedBytes_segmented :
    ∀ (stream : List UInt8) {p : FrameParser} {seg : List UInt8}, p.Pending seg →
      Segmented p.addressing (p.feedBytes stream).2 (seg ++ stream) := by
  intro stream
  induction stream with
  | nil => intro p seg _; exact .done _
  | cons b stream ih =>
    intro p seg h
    obtain ⟨ha, hout⟩ := feed_pending b h
    have hassoc : seg ++ b :: stream = (seg ++ [b]) ++ stream := by simp
    rw [feedBytes, hassoc, ← ha]
    cases hf : (p.feed b).2 with
    | none =>
      rw [hf] at hout
      rcases hout with hpend | hsync
      · exact ih hpend
      · exact (ih (pending_of_sync hsync)).prepend (seg ++ [b])
    | some f =>
      rw [hf] at hout
      obtain ⟨himg, hsync⟩ := hout
      rw [← ha] at himg
      exact .frame [] himg (ih (pending_of_sync hsync))

/-- A newly created parser, in either addressing mode. -/
def create (addressing : Bool) : FrameParser := if addressing then withAddressing else new

/-- **Soundness on arbitrary bytes.** However a stream is cut into `feed_bytes`
calls, the frames a new parser emits are wire images of disjoint stretches of
the stream, in stream order; so there are at most a third as many frames as
bytes. -/
theorem feedChunks_sound (addressing : Bool) (chunks : List (List UInt8)) :
    Segmented addressing ((create addressing).feedChunks chunks).2 chunks.flatten ∧
      3 * ((create addressing).feedChunks chunks).2.length ≤ chunks.flatten.length := by
  have hmode : (create addressing).addressing = addressing := by cases addressing <;> rfl
  have hsync : (create addressing).state = .sync := by cases addressing <;> rfl
  have hseg := feedBytes_segmented chunks.flatten (pending_of_sync hsync)
  rw [hmode, List.nil_append] at hseg
  rw [feedChunks_eq]
  exact ⟨hseg, hseg.three_mul_le⟩

end FrameParser

end ProtoEmb.Framing
