import ProtoEmb.Framing.Parser

/-!
# Wire images of frames, and the parser on them

`WireImage a f seg` says that the bytes `seg` are exactly frame `f` on the wire,
with (`a = true`) or without a source address. It is the frame layer of the
wire-format document, stated without any parser: sync byte, source, type,
command and, for the two payload frames, a little-endian length, the payload and
its CRC.

`WireImage.feed` is the completeness half of the parser: from the `Sync` state,
whatever the other fields hold, the bytes of a frame are turned into that frame
and the parser is back in `Sync`. Bytes without a sync byte are skipped
(`feed_idle`).
-/

namespace ProtoEmb.Framing

open ProtoEmb.Lib

/-- The bytes every frame starts with. -/
def header (addressing : Bool) (source ty command : UInt8) : List UInt8 :=
  syncByte :: ((if addressing then [source] else []) ++ [ty, command])

/-- `[LEN_LO] [LEN_HI] [DATA...] [CRC8]`. -/
def body (lo hi : UInt8) (payload : List UInt8) : List UInt8 :=
  lo :: hi :: (payload ++ [crc8 payload])

/-- `seg` is exactly frame `f` on the wire. A notification's command byte is not
part of the parsed frame, so it is free here. -/
inductive WireImage (addressing : Bool) : ParsedFrame → List UInt8 → Prop where
  | nack (source command : UInt8) :
      WireImage addressing (.nack command) (header addressing source 0x00 command)
  | ack (source command : UInt8) :
      WireImage addressing (.ack command) (header addressing source 0x01 command)
  | data (source command lo hi : UInt8) (payload : List UInt8)
      (hlen : lo.toNat + 256 * hi.toNat = payload.length)
      (hmax : payload.length ≤ maxPayloadSize) :
      WireImage addressing (.data command payload)
        (header addressing source 0x02 command ++ body lo hi payload)
  | notification (source command lo hi : UInt8) (payload : List UInt8)
      (hlen : lo.toNat + 256 * hi.toNat = payload.length)
      (hmax : payload.length ≤ maxPayloadSize) :
      WireImage addressing (.notification payload)
        (header addressing source 0x03 command ++ body lo hi payload)

theorem header_length (a : Bool) (src ty c : UInt8) :
    (header a src ty c).length = if a then 4 else 3 := by
  cases a <;> rfl

/-- No frame is shorter than its header. -/
theorem WireImage.three_le {a : Bool} {f : ParsedFrame} {seg : List UInt8}
    (h : WireImage a f seg) : 3 ≤ seg.length := by
  have hheader : ∀ src ty c, 3 ≤ (header a src ty c).length := by
    intro src ty c
    rw [header_length]
    split <;> omega
  cases h with
  | nack src c => exact hheader src _ c
  | ack src c => exact hheader src _ c
  | data src c lo hi payload _ _ =>
    rw [List.length_append]
    exact Nat.le_trans (hheader src _ c) (Nat.le_add_right _ _)
  | notification src c lo hi payload _ _ =>
    rw [List.length_append]
    exact Nat.le_trans (hheader src _ c) (Nat.le_add_right _ _)

namespace FrameParser

/-- Bytes without a sync byte leave a parser in `Sync` untouched. -/
theorem feed_idle {p : FrameParser} (hs : p.state = .sync) {gap : List UInt8}
    (hgap : syncByte ∉ gap) : p.feedBytes gap = (p, []) := by
  induction gap with
  | nil => rfl
  | cons b gap ih =>
    have hb : b ≠ syncByte := fun h => hgap (h ▸ List.mem_cons_self ..)
    have hrest := ih (fun h => hgap (List.mem_cons_of_mem _ h))
    simp only [feedBytes, feed_sync_idle hs hb, hrest, Option.toList_none, List.append_nil]

/-- After the sync byte (and the source byte, if addressing is on) the parser
waits for the type byte. -/
theorem feed_preamble {p : FrameParser} (hs : p.state = .sync) (src : UInt8) :
    p.feedBytes (syncByte :: (if p.addressing then [src] else []))
      = ({ p with state := .type, source := if p.addressing then src else p.source }, []) := by
  cases ha : p.addressing with
  | false => simp [feedBytes, feed_sync_start hs, ha]
  | true => simp [feedBytes, feed_sync_start hs, feed_source, ha]

/-- A header with a valid type byte brings the parser to its command byte. -/
theorem feed_header_type {p : FrameParser} (hs : p.state = .sync) (src : UInt8) {ty : UInt8}
    (hty : ¬ ty > 0x03) :
    p.feedBytes (syncByte :: ((if p.addressing then [src] else []) ++ [ty]))
      = ({ p with state := .command, source := if p.addressing then src else p.source,
                  frameType := ty }, []) := by
  rw [show syncByte :: ((if p.addressing then [src] else []) ++ [ty])
      = (syncByte :: (if p.addressing then [src] else [])) ++ [ty] from rfl,
    feedBytes_append, feed_preamble hs]
  simp [feedBytes, feed_type, hty]

theorem header_snoc (a : Bool) (src ty c : UInt8) :
    header a src ty c = (syncByte :: ((if a then [src] else []) ++ [ty])) ++ [c] := by
  cases a <;> rfl

/-- Payload bytes are collected until the announced length is reached. The
induction is on the bytes still to come; `dataReceived` counts the buffer. -/
theorem feed_payload :
    ∀ (ds : List UInt8) {p : FrameParser}, p.state = .data →
      p.dataReceived.toNat = p.buf.length → p.buf.length + ds.length = p.dataLen.toNat →
      ds ≠ [] →
      p.feedBytes ds
        = ({ p with buf := p.buf ++ ds, dataReceived := p.dataLen, state := .crc }, []) := by
  intro ds
  induction ds with
  | nil => intro p _ _ _ hne; exact absurd rfl hne
  | cons b ds ih =>
    intro p hs hrec hlen _
    have hlt : p.dataLen.toNat < 65536 := p.dataLen.toNat_lt
    simp only [List.length_cons] at hlen
    have hsucc : (p.dataReceived + 1).toNat = p.buf.length + 1 := by
      rw [UInt16.toNat_add, hrec, UInt16.toNat_one]
      omega
    by_cases hlast : ds = []
    · subst hlast
      have heq : p.dataReceived + 1 = p.dataLen := by
        apply UInt16.toNat_inj.mp
        rw [hsucc]
        simpa using hlen
      simp [feedBytes, feed_data hs, heq]
    · have hpos : 0 < ds.length := List.length_pos_iff.mpr hlast
      have hge : ¬ p.dataReceived + 1 ≥ p.dataLen := by
        rw [ge_iff_le, UInt16.le_iff_toNat_le, hsucc]
        omega
      have hstep : p.feed b
          = ({ p with buf := p.buf ++ [b], dataReceived := p.dataReceived + 1 }, none) := by
        rw [feed_data hs, if_neg hge, hs]
      have hrest := ih (p := { p with buf := p.buf ++ [b], dataReceived := p.dataReceived + 1 })
        hs (by simpa using hsucc) (by simp; omega) hlast
      simp only [feedBytes, hstep, hrest, Option.toList_none, List.nil_append, List.append_assoc,
        List.singleton_append]

/-- Length and announced bytes of a payload frame, from the state after its
command byte: the parser has collected them and waits for the CRC. -/
theorem feed_announced {p : FrameParser} (hs : p.state = .lengthLo) {lo hi : UInt8}
    {payload : List UInt8} (hlen : lo.toNat + 256 * hi.toNat = payload.length)
    (hmax : payload.length ≤ maxPayloadSize) :
    p.feedBytes (lo :: hi :: payload)
      = ({ p with state := .crc, dataLen := u16OfLe lo hi, dataReceived := u16OfLe lo hi,
                  buf := payload }, []) := by
  have hval : (u16OfLe lo hi).toNat = payload.length := by rw [u16OfLe_toNat, hlen]
  have hlo := feed_lengthLo (b := lo) hs
  by_cases hnil : payload = []
  · subst hnil
    have hz : u16OfLe lo hi = 0 := by
      apply UInt16.toNat_inj.mp
      rw [hval]
      rfl
    have hhi := feed_lengthHi_zero (p := { p with dataLen := lo.toUInt16, state := .lengthHi })
      rfl rfl hz
    simp only [feedBytes, hlo, hhi, Option.toList_none, List.append_nil, hz]
  · have hne : u16OfLe lo hi ≠ 0 := by
      intro h
      rw [h] at hval
      exact hnil (List.eq_nil_of_length_eq_zero hval.symm)
    have hhi := feed_lengthHi_data (p := { p with dataLen := lo.toUInt16, state := .lengthHi })
      rfl rfl hne (by rw [hval]; exact hmax)
    have hdata := feed_payload payload
      (p := { p with dataLen := u16OfLe lo hi, buf := [], dataReceived := 0, state := .data })
      rfl rfl (by simpa using hval.symm) hnil
    simp only [feedBytes, hlo, hhi, hdata, Option.toList_none, List.nil_append]

/-- Length, payload and CRC of a payload frame: the parser ends in `Sync` and
emits what `feed_crc_ok` says. -/
theorem feed_body {p : FrameParser} (hs : p.state = .lengthLo) {lo hi : UInt8}
    {payload : List UInt8} (hlen : lo.toNat + 256 * hi.toNat = payload.length)
    (hmax : payload.length ≤ maxPayloadSize) :
    p.feedBytes (body lo hi payload)
      = ({ p with state := .sync, dataLen := u16OfLe lo hi, dataReceived := u16OfLe lo hi,
                  buf := [] },
          (if p.frameType = 0x02 then some (ParsedFrame.data p.command payload)
            else if p.frameType = 0x03 then some (.notification payload) else none).toList) := by
  have hsplit : body lo hi payload = (lo :: hi :: payload) ++ [crc8 payload] := rfl
  have hcrc := feed_crc_ok (p := { p with dataLen := u16OfLe lo hi, buf := payload,
                                          dataReceived := u16OfLe lo hi, state := .crc }) rfl
  rw [hsplit, feedBytes_append, feed_announced hs hlen hmax]
  simp only [feedBytes, hcrc, List.nil_append, List.append_nil]

/-- A payload frame's header leaves the parser waiting for the length. -/
theorem feed_header_payload {p : FrameParser} (hs : p.state = .sync) (src c : UInt8) {ty : UInt8}
    (hty : ty = 0x02 ∨ ty = 0x03) :
    p.feedBytes (header p.addressing src ty c)
      = ({ p with state := .lengthLo, source := if p.addressing then src else p.source,
                  frameType := ty, command := c }, []) := by
  have hle : ¬ ty > 0x03 := by rcases hty with h | h <;> rw [h] <;> decide
  rw [header_snoc, feedBytes_append, feed_header_type hs src hle]
  simp [feedBytes, feed_command_payload, hty]

/-- A NACK is its header. -/
theorem feed_header_nack {p : FrameParser} (hs : p.state = .sync) (src c : UInt8) :
    p.feedBytes (header p.addressing src 0x00 c)
      = ({ p with state := .sync, source := if p.addressing then src else p.source,
                  frameType := 0x00, command := c }, [.nack c]) := by
  rw [header_snoc, feedBytes_append, feed_header_type hs src (by decide)]
  simp [feedBytes, feed_command_nack]

/-- An ACK is its header. -/
theorem feed_header_ack {p : FrameParser} (hs : p.state = .sync) (src c : UInt8) :
    p.feedBytes (header p.addressing src 0x01 c)
      = ({ p with state := .sync, source := if p.addressing then src else p.source,
                  frameType := 0x01, command := c }, [.ack c]) := by
  rw [header_snoc, feedBytes_append, feed_header_type hs src (by decide)]
  simp [feedBytes, feed_command_ack]

/-- **Completeness on one frame.** From `Sync`, the bytes of a frame give that
frame and nothing else, and the parser returns to `Sync` in the same mode. -/
theorem feed_wireImage {p : FrameParser} (hs : p.state = .sync) {f : ParsedFrame}
    {seg : List UInt8} (h : WireImage p.addressing f seg) :
    ∃ p', p.feedBytes seg = (p', [f]) ∧ p'.state = .sync ∧ p'.addressing = p.addressing := by
  cases h with
  | nack src c => exact ⟨_, feed_header_nack hs src c, rfl, rfl⟩
  | ack src c => exact ⟨_, feed_header_ack hs src c, rfl, rfl⟩
  | data src c lo hi payload hlen hmax =>
    rw [feedBytes_append, feed_header_payload hs src c (Or.inl rfl), feed_body rfl hlen hmax]
    exact ⟨_, rfl, rfl, rfl⟩
  | notification src c lo hi payload hlen hmax =>
    rw [feedBytes_append, feed_header_payload hs src c (Or.inr rfl), feed_body rfl hlen hmax]
    exact ⟨_, rfl, rfl, rfl⟩

/-- **Completeness on a stream of frames.** -/
theorem feed_wireImages {fs : List ParsedFrame} :
    ∀ {p : FrameParser} {segs : List (List UInt8)}, p.state = .sync →
      List.Forall₂ (WireImage p.addressing) fs segs →
      ∃ p', p.feedBytes segs.flatten = (p', fs) ∧ p'.state = .sync ∧
        p'.addressing = p.addressing := by
  induction fs with
  | nil =>
    intro p segs hs h
    cases h
    exact ⟨p, rfl, hs, rfl⟩
  | cons f fs ih =>
    intro p segs hs h
    cases h with
    | cons himg hrest =>
      obtain ⟨p', hp', hs', ha'⟩ := feed_wireImage hs himg
      rw [← ha'] at hrest
      obtain ⟨q, hq, hsq, haq⟩ := ih hs' hrest
      refine ⟨q, ?_, hsq, haq.trans ha'⟩
      rw [List.flatten_cons, feedBytes_append, hp', hq]
      rfl

end FrameParser

end ProtoEmb.Framing
