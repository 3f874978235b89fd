import ProtoEmb.Lib.CrcDetect
import ProtoEmb.Framing.Scan

/-!
# Errors in the payload of one frame

A payload frame whose header arrives intact announces how many bytes belong to it, and the
`FrameParser` of `framing/src/lib.rs` takes exactly those whatever they are (`feed_altered`): an
error in DATA and CRC cannot reach the frames around it. Whether the altered frame itself passes
is decided by the CRC of the error alone (`alter_accepted_iff`), which `Lib.CrcDetect` shows to be
non-zero for bursts of up to eight bits and for errors of odd weight.
-/

namespace ProtoEmb.Framing

open ProtoEmb.Lib

/-- DATA and CRC of a frame, with an error pattern added. -/
def alter (payload e : List UInt8) : List UInt8 :=
  List.zipWith (· ^^^ ·) (payload ++ [crc8 payload]) e

theorem crc8_snoc_eq_zero (data : List UInt8) (c : UInt8) :
    crc8 (data ++ [c]) = 0 ↔ c = crc8 data :=
  crcBytes_snoc_eq_zero (by decide) data c

/-- The error alone decides whether the altered bytes end in their CRC. -/
theorem alter_accepted_iff {payload e ds : List UInt8} {c : UInt8}
    (he : e.length = payload.length + 1) (hds : alter payload e = ds ++ [c]) :
    c = crc8 ds ↔ remainder 0x8C 0 (bitString e) = 0 := by
  have hclean : crc8 (payload ++ [crc8 payload]) = 0 := (crc8_snoc_eq_zero _ _).mpr rfl
  have hlin : crc8 (ds ++ [c]) = crcBytes 0x8C e := by
    have hxor := crcBytes_xor 0x8C (a := payload ++ [crc8 payload]) (e := e) (by simp [he])
    rw [show List.zipWith (· ^^^ ·) (payload ++ [crc8 payload]) e = ds ++ [c] from hds] at hxor
    rw [crc8, hxor, ← crc8, hclean, UInt8.zero_xor]
  rw [← crc8_snoc_eq_zero, hlin, crcBytes_eq]

/-- A set bit of a non-zero pattern. -/
theorem mem_bitString {e : List UInt8} (h : ∃ x ∈ e, x ≠ 0) : true ∈ bitString e := by
  obtain ⟨x, hx, hne⟩ := h
  apply List.mem_flatMap.mpr
  refine ⟨x, hx, ?_⟩
  by_contra hclear
  have hfalse : ∀ b ∈ bitsOf 8 x, b = false := by
    intro b hb
    cases b with
    | false => rfl
    | true => exact absurd hb hclear
  have hzero : bitsOf 8 x = List.replicate 8 false :=
    List.eq_replicate_iff.mpr ⟨bitsOf_length 8 x, hfalse⟩
  -- a byte without set bits is its own CRC from zero
  have hcrc : crc8 [x] = 0 := by
    rw [crc8, crcBytes_eq, bitString, List.flatMap_cons, hzero]
    exact remainder_zero_clear 8
  exact hne ((crc8_snoc_eq_zero [] x).mp hcrc)

namespace FrameParser

/-- Header intact, announced bytes and one more: the parser is back in `Sync`,
and has emitted the frame only if the last byte is the CRC. -/
theorem feed_altered {p : FrameParser} (hs : p.state = .sync) (src c : UInt8) {ty : UInt8}
    (hty : ty = 0x02 ∨ ty = 0x03) {lo hi : UInt8} {ds : List UInt8} (check : UInt8)
    (hlen : lo.toNat + 256 * hi.toNat = ds.length) (hmax : ds.length ≤ maxPayloadSize) :
    ∃ p', p.feedBytes (header p.addressing src ty c ++ lo :: hi :: (ds ++ [check]))
        = (p', (if check = crc8 ds then some (payloadFrame ty c ds) else none).toList) ∧
      p'.state = .sync ∧ p'.addressing = p.addressing := by
  have hbody : lo :: hi :: (ds ++ [check]) = (lo :: hi :: ds) ++ [check] := rfl
  have hhead := feed_header_payload hs src c hty
  rw [feedBytes_append, hhead, hbody, feedBytes_append, feed_announced rfl hlen hmax]
  obtain ⟨p', hp', ha, -, hsync⟩ := feed_crc (p := { p with
    state := .crc, source := if p.addressing then src else p.source, frameType := ty,
    command := c, dataLen := u16OfLe lo hi, dataReceived := u16OfLe lo hi, buf := ds }) rfl hty
    check
  refine ⟨p', ?_, hsync, ha⟩
  simp only [feedBytes, hp', List.nil_append, List.append_nil]

/-- **Detection and containment.** In a stream of frames, DATA and CRC bytes of
one payload frame are altered by a non-zero pattern. From `Sync`, however the
stream is cut into calls, every other frame is emitted, in order; and nothing is
emitted for the altered frame when the pattern is a burst of at most eight bits
or has odd weight. -/
theorem corruption_contained {p : FrameParser} (hs : p.state = .sync)
    {before after : List ParsedFrame} {segsBefore segsAfter : List (List UInt8)}
    (hbefore : List.Forall₂ (WireImage p.addressing) before segsBefore)
    (hafter : List.Forall₂ (WireImage p.addressing) after segsAfter)
    (src c lo hi : UInt8) {ty : UInt8} (hty : ty = 0x02 ∨ ty = 0x03) {payload e : List UInt8}
    (hlen : lo.toNat + 256 * hi.toNat = payload.length) (hmax : payload.length ≤ maxPayloadSize)
    (he : e.length = payload.length + 1) (hne : ∃ x ∈ e, x ≠ 0) (calls : List (List UInt8))
    (hcalls : calls.flatten = segsBefore.flatten
      ++ (header p.addressing src ty c ++ lo :: hi :: alter payload e) ++ segsAfter.flatten) :
    ∃ altered : List ParsedFrame,
      (p.feedChunks calls).2 = before ++ altered ++ after ∧
      (altered = [] ∨ altered = [payloadFrame ty c (alter payload e).dropLast]) ∧
      (Burst 8 (bitString e) ∨ (bitString e).count true % 2 = 1 → altered = []) := by
  -- the altered bytes are a payload of the same length and some CRC
  have hlast : ∃ ds check, alter payload e = ds ++ [check] ∧ ds.length = payload.length := by
    have hlen' : (alter payload e).length = payload.length + 1 := by simp [alter, he]
    have hnil : alter payload e ≠ [] := by
      intro h
      rw [h] at hlen'
      exact absurd hlen' (by simp)
    refine ⟨(alter payload e).dropLast, (alter payload e).getLast hnil,
      (List.dropLast_append_getLast hnil).symm, ?_⟩
    rw [List.length_dropLast, hlen', Nat.add_sub_cancel]
  obtain ⟨ds, check, hds, hdsLen⟩ := hlast
  obtain ⟨p₁, hp₁, hs₁, ha₁⟩ := feed_wireImages hs hbefore
  have hdsMax : ds.length ≤ maxPayloadSize := by
    rw [hdsLen]
    exact hmax
  obtain ⟨p₂, hp₂, hs₂, ha₂⟩ := feed_altered hs₁ src c hty check (hlen.trans hdsLen.symm) hdsMax
  obtain ⟨p₃, hp₃, -⟩ := feed_wireImages hs₂ (by rw [ha₂, ha₁]; exact hafter)
  -- the frame in the middle passes exactly if its CRC is that of its payload
  refine ⟨(if check = crc8 ds then some (payloadFrame ty c ds) else none).toList, ?_, ?_, ?_⟩
  · rw [feedChunks_eq, hcalls, hds, feedBytes_append, feedBytes_append, hp₁, ← ha₁, hp₂, hp₃]
  · rw [hds, List.dropLast_concat]
    by_cases hcrc : check = crc8 ds
    · exact Or.inr (by rw [if_pos hcrc]; rfl)
    · exact Or.inl (by rw [if_neg hcrc]; rfl)
  · intro hpattern
    -- the pattern is no multiple of the polynomial
    have hrem : remainder 0x8C 0 (bitString e) ≠ 0 := by
      rcases hpattern with hburst | hodd
      · exact burst_remainder_ne_zero (by decide) hburst (mem_bitString hne)
      · exact odd_remainder_ne_zero (by decide) hodd
    have hcrc : check ≠ crc8 ds := fun h => hrem ((alter_accepted_iff he hds).mp h)
    rw [if_neg hcrc]
    rfl

/-- One flipped bit in the payload of a DATA frame between two ACKs. -/
theorem corruption_contained_bit :
    let e : List UInt8 := [0x10, 0x00]
    ∃ altered : List ParsedFrame,
      (new.feedChunks [header false 0 0x01 0x07
          ++ (header false 0 0x02 0x05 ++ 0x01 :: 0x00 :: alter [0xAB] e)
          ++ header false 0 0x01 0x09]).2 = [.ack 0x07] ++ altered ++ [.ack 0x09] ∧
      altered = [] := by
  intro e
  obtain ⟨altered, hframes, -, hpattern⟩ := corruption_contained (p := new) rfl
    (.cons (.ack 0 0x07) .nil) (.cons (.ack 0 0x09) .nil) 0 0x05 0x01 0x00 (Or.inl rfl)
    (e := e) (show _ = [(0xAB : UInt8)].length from rfl) (by decide) rfl
    ⟨0x10, by decide, by decide⟩
    [header false 0 0x01 0x07
          ++ (header false 0 0x02 0x05 ++ 0x01 :: 0x00 :: alter [0xAB] e)
          ++ header false 0 0x01 0x09] rfl
  exact ⟨altered, hframes, hpattern (Or.inr (by decide))⟩

end FrameParser

end ProtoEmb.Framing
