import ProtoEmb.Framing.Scan

/-!
# Resynchronisation

Garbage can leave the `FrameParser` of `framing/src/lib.rs` anywhere inside a frame that never was
one, and from there it swallows bytes until that frame is over. How many is bounded: `toSync`
counts the bytes the parser can still take before it is back in `Sync`, every byte fed outside
`Sync` makes it smaller (`feed_toSync`), and it is never more than the longest frame behind its
sync byte (`resyncBound`). Once in `Sync`, bytes without a sync byte keep it there, and the frames
that follow are read whole.
-/

namespace ProtoEmb.Framing

open ProtoEmb.Lib

/-- The longest frame, less its sync byte: source (on an addressed link), type,
command, two length bytes, the largest payload and the CRC. -/
def resyncBound (addressing : Bool) : Nat := maxPayloadSize + (if addressing then 6 else 5)

example : resyncBound false = 4101 ∧ resyncBound true = 4102 := by decide

namespace FrameParser

/-- The most bytes the parser can take before it is back in `Sync`. -/
def toSync (p : FrameParser) : Nat :=
  match p.state with
  | .sync => 0
  | .source => maxPayloadSize + 6
  | .type => maxPayloadSize + 5
  | .command => maxPayloadSize + 4
  | .lengthLo => maxPayloadSize + 3
  | .lengthHi => maxPayloadSize + 2
  | .data => p.dataLen.toNat - p.dataReceived.toNat + 1
  | .crc => 1

/-- A parser inside a frame is at most a frame away from `Sync`. -/
theorem toSync_le {p : FrameParser} {seg : List UInt8} (h : p.Pending seg) :
    p.toSync ≤ resyncBound p.addressing := by
  have hfive : maxPayloadSize + 5 ≤ resyncBound p.addressing := by
    rw [resyncBound]
    split <;> omega
  cases hs : p.state with
  | source =>
    have ha : p.addressing = true := by
      rw [Pending, hs] at h
      exact h.1
    simp only [toSync, hs, resyncBound, ha, if_true]
    exact Nat.le_refl _
  | data =>
    have hmax : p.dataLen.toNat ≤ maxPayloadSize := by
      rw [Pending, hs] at h
      obtain ⟨_, _, _, _, _, hmax, _⟩ := h
      exact hmax
    simp only [toSync, hs]
    omega
  | sync | type | command | lengthLo | lengthHi | crc =>
    simp only [toSync, hs]
    omega

/-- **The step lemma**: outside `Sync`, every byte brings the parser closer. -/
theorem feed_toSync {p : FrameParser} {seg : List UInt8} (b : UInt8) (h : p.Pending seg)
    (hs : p.state ≠ .sync) : (p.feed b).1.toSync < p.toSync := by
  cases hst : p.state with
  | sync => exact absurd hst hs
  | source =>
    rw [feed_source hst]
    simp only [toSync, hst]
    omega
  | type =>
    rw [feed_type hst]
    by_cases hb : b > 0x03
    · simp only [toSync, hst, if_pos hb]
      omega
    · simp only [toSync, hst, if_neg hb]
      omega
  | command =>
    rw [Pending, hst] at h
    obtain ⟨_, hty, _⟩ := h
    -- an ack or a nack has no payload: the CRC is the next byte
    rcases type_cases hty with ht | ht | hpay
    · rw [feed_command_nack hst ht]
      simp only [toSync, hst]
      omega
    · rw [feed_command_ack hst ht]
      simp only [toSync, hst]
      omega
    · rw [feed_command_payload hst hpay]
      simp only [toSync, hst]
      omega
  | lengthLo =>
    rw [feed_lengthLo hst]
    simp only [toSync, hst]
    omega
  | lengthHi =>
    rw [Pending, hst] at h
    obtain ⟨_, lo, _, hlo, _⟩ := h
    -- an empty payload, one that is too long, and one that is collected
    by_cases hz : u16OfLe lo b = 0
    · rw [feed_lengthHi_zero hst hlo hz]
      simp only [toSync, hst]
      omega
    by_cases hbig : maxPayloadSize < (u16OfLe lo b).toNat
    · rw [feed_lengthHi_big hst hlo hbig]
      simp only [toSync, hst]
      omega
    · rw [feed_lengthHi_data hst hlo hz (Nat.not_lt.mp hbig)]
      simp only [toSync, hst]
      omega
  | data =>
    rw [Pending, hst] at h
    obtain ⟨_, _, _, _, _, _, hrec, hlt, _⟩ := h
    have h16 : p.dataLen.toNat < 65536 := p.dataLen.toNat_lt
    have hsucc : (p.dataReceived + 1).toNat = p.dataReceived.toNat + 1 := by
      rw [UInt16.toNat_add, UInt16.toNat_one]
      omega
    -- the counters are 16 bits wide, and the count does not come round
    rw [feed_data hst]
    by_cases hlast : p.dataReceived + 1 ≥ p.dataLen
    · simp only [toSync, hst, if_pos hlast]
      omega
    · simp only [toSync, hst, if_neg hlast, hsucc]
      omega
  | crc =>
    by_cases hb : b = crc8 p.buf
    · rw [hb, feed_crc_ok hst]
      simp only [toSync, hst]
      omega
    · rw [feed_crc_bad hst hb]
      simp only [toSync, hst]
      omega

/-- **The run lemma**: enough bytes, whatever they are, pass through `Sync`. -/
theorem feed_reaches_sync :
    ∀ (bytes : List UInt8) {p : FrameParser} {seg : List UInt8}, p.Pending seg →
      p.toSync ≤ bytes.length →
      ∃ k ≤ p.toSync, (p.feedBytes (bytes.take k)).1.state = .sync := by
  intro bytes
  induction bytes with
  | nil =>
    intro p seg h hlen
    by_cases hs : p.state = .sync
    · exact ⟨0, Nat.zero_le _, hs⟩
    · have := feed_toSync 0 h hs
      simp only [List.length_nil] at hlen
      omega
  | cons b bytes ih =>
    intro p seg h hlen
    by_cases hs : p.state = .sync
    · exact ⟨0, Nat.zero_le _, hs⟩
    · have hlt := feed_toSync b h hs
      obtain ⟨-, seg', hseg'⟩ := feed_keeps_pending b h
      simp only [List.length_cons] at hlen
      obtain ⟨k, hk, hsync⟩ := ih hseg' (by omega)
      exact ⟨k + 1, by omega, hsync⟩

/-- Filler without a sync byte, long enough, ends in `Sync`. -/
theorem feed_filler {p : FrameParser} {seg : List UInt8} (h : p.Pending seg) {z : List UInt8}
    (hz : syncByte ∉ z) (hlen : resyncBound p.addressing ≤ z.length) :
    (p.feedBytes z).1.state = .sync := by
  obtain ⟨k, -, hsync⟩ := feed_reaches_sync z h (Nat.le_trans (toSync_le h) hlen)
  have hrest : syncByte ∉ z.drop k := fun hmem => hz (List.mem_of_mem_drop hmem)
  rw [← List.take_append_drop k z, feedBytes_append, feed_idle hsync hrest]
  exact hsync

/-- Feeding bytes stays among the reachable parsers. -/
theorem Reachable.feedBytes {a : Bool} (bytes : List UInt8) :
    ∀ {p : FrameParser}, Reachable a p → Reachable a (p.feedBytes bytes).1 := by
  induction bytes with
  | nil => intro p h; exact h
  | cons b bytes ih => intro p h; exact ih (.feed b h)

/-- **Bounded resynchronisation.** Whatever garbage `g` came first, after enough
filler without a sync byte every frame is read, and the frames before them are
those of garbage and filler alone; for, from every reachable state, that many
bytes of any kind pass through `Sync`. -/
theorem resync (a : Bool) (g z : List UInt8) (hz : syncByte ∉ z)
    (hlen : resyncBound a ≤ z.length) (fs : List ParsedFrame) (segs : List (List UInt8))
    (himg : List.Forall₂ (WireImage a) fs segs) :
    ((create a).feedBytes (g ++ z ++ segs.flatten)).2
        = ((create a).feedBytes (g ++ z)).2 ++ fs ∧
      ∀ p, Reachable a p → ∀ bytes : List UInt8, resyncBound a ≤ bytes.length →
        ∃ k ≤ resyncBound a, (p.feedBytes (bytes.take k)).1.state = .sync := by
  constructor
  · have hreach : Reachable a ((create a).feedBytes g).1 := .feedBytes g .create
    obtain ⟨hmode, seg, hseg⟩ := hreach.pending
    have hsync : ((create a).feedBytes (g ++ z)).1.state = .sync := by
      rw [feedBytes_append]
      exact feed_filler hseg hz (by rw [hmode]; exact hlen)
    have hmode' : ((create a).feedBytes (g ++ z)).1.addressing = a :=
      (Reachable.feedBytes (g ++ z) .create).pending.1
    obtain ⟨p', hp', -⟩ := feed_wireImages hsync (by rw [hmode']; exact himg)
    rw [feedBytes_append, hp']
  · intro p h bytes hbytes
    obtain ⟨hmode, seg, hseg⟩ := h.pending
    have hle : p.toSync ≤ resyncBound a := hmode ▸ toSync_le hseg
    obtain ⟨k, hk, hsync⟩ := feed_reaches_sync bytes hseg (Nat.le_trans hle hbytes)
    exact ⟨k, Nat.le_trans hk hle, hsync⟩

/-- A stray sync byte, the shortest filler, and an ACK. -/
theorem resync_stray :
    syncByte ∉ List.replicate (resyncBound false) (0x00 : UInt8) ∧
      ((create false).feedBytes ([syncByte] ++ List.replicate (resyncBound false) 0x00
          ++ [[syncByte, 0x01, 0x09]].flatten)).2
        = ((create false).feedBytes ([syncByte] ++ List.replicate (resyncBound false) 0x00)).2
          ++ [.ack 0x09] := by
  have hz : syncByte ∉ List.replicate (resyncBound false) (0x00 : UInt8) := by
    intro hmem
    exact absurd (List.eq_of_mem_replicate hmem) (by decide)
  exact ⟨hz, (resync false [syncByte] _ hz (Nat.le_of_eq List.length_replicate.symm) [.ack 0x09]
    [[syncByte, 0x01, 0x09]] (.cons (.ack 0x00 0x09) .nil)).1⟩

end FrameParser

end ProtoEmb.Framing
