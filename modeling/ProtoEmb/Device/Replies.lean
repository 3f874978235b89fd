import ProtoEmb.Device.Runtime
import ProtoEmb.Framing.WireImage

/-!
# Device → host framing is lossless

The device's `sendFrame` (`protocol_runtime.c.j2`) and the host's `FrameParser`
(`framing/src/lib.rs`) are two implementations of
one frame layer. `replyBytes_wireImage` shows that what `sendFrame` emits is the
wire image of the reply, so the host half is `FrameParser.feed_wireImage`; the
list of replies, the noise between them and the cut into `feed_bytes` calls are
an induction over that.
-/

namespace ProtoEmb.Device

open ProtoEmb.Lib ProtoEmb.Framing

/-- The payload of a reply; the short replies have none. -/
def replyPayload : ParsedFrame → List UInt8
  | .nack _ => []
  | .ack _ => []
  | .data _ payload => payload
  | .notification payload => payload

/-- The C header bytes are the word's two bytes. -/
theorem header_lo (n : UInt16) : (n &&& 0xFF).toUInt8 = loByte n := by
  apply UInt8.toNat_inj.mp
  rw [loByte_toNat, UInt16.toNat_toUInt8, UInt16.toNat_and,
    show (0xFF : UInt16).toNat = 2 ^ 8 - 1 from rfl, Nat.and_two_pow_sub_one_eq_mod]
  omega

theorem header_hi (n : UInt16) : ((n >>> 8) &&& 0xFF).toUInt8 = hiByte n :=
  header_lo (n >>> 8)

/-- A payload frame through `sendFrame`, every `sendBytes` call succeeding. -/
theorem sendFrame_payload (cfg : RuntimeConfig) (ty : UInt8) (hty : ¬ (ty = 0x00 ∨ ty = 0x01))
    (c : UInt8) (payload : List UInt8) (hcap : payload.length ≤ cfg.maxPayload)
    (h16 : payload.length < 65536) :
    (sendFrame cfg (fun _ _ => true) ty c (some payload) (lenU16 payload)).2.flatten
      = header false 0 ty c
        ++ body (loByte (lenU16 payload)) (hiByte (lenU16 payload)) payload := by
  have hlen : (lenU16 payload).toNat = payload.length := by
    rw [lenU16_toNat]
    exact Nat.mod_eq_of_lt h16
  have hcrc : runtimeCrc8 payload payload.length = crc8 payload := by
    rw [runtimeCrc8_eq (Nat.le_refl _), List.take_length]
  unfold sendFrame
  rw [if_neg (by simp), if_neg (by rw [hlen]; omega), if_neg hty]
  simp only [if_true, Option.getD_some, hlen, List.take_length, hcrc]
  rw [header_hi, header_lo]
  by_cases hz : lenU16 payload > 0
  · simp [hz, header, body]
  · -- an empty payload skips the middle `sendBytes` call
    have hnil : payload = [] := by
      apply List.eq_nil_of_length_eq_zero
      rw [gt_iff_lt, UInt16.lt_iff_toNat_lt, hlen] at hz
      exact Nat.eq_zero_of_not_pos hz
    subst hnil
    simp [header, body, hz]

/-- What `sendFrame` emits for a reply is that reply's wire image. -/
theorem replyBytes_wireImage (cfg : RuntimeConfig) {reply : ParsedFrame}
    (h : (replyPayload reply).length ≤ min cfg.maxPayload maxPayloadSize) :
    WireImage false reply (replyBytes cfg reply) := by
  have hcap := Nat.le_trans h (Nat.min_le_left _ _)
  have hmax := Nat.le_trans h (Nat.min_le_right _ _)
  cases reply with
  | nack c =>
    have hbytes : replyBytes cfg (.nack c) = header false 0 0x00 c := by
      simp [replyBytes, sendReply, sendFrame, header]
    rw [hbytes]
    exact .nack 0 c
  | ack c =>
    have hbytes : replyBytes cfg (.ack c) = header false 0 0x01 c := by
      simp [replyBytes, sendReply, sendFrame, header]
    rw [hbytes]
    exact .ack 0 c
  | data c payload =>
    have h16 : payload.length < 65536 := Nat.lt_of_le_of_lt hmax (by decide)
    have hbytes := sendFrame_payload cfg 0x02 (by decide) c payload hcap h16
    rw [replyBytes, sendReply, hbytes]
    refine .data 0 c _ _ payload ?_ hmax
    rw [← u16OfLe_toNat, u16OfLe_lenU16, lenU16_toNat, Nat.mod_eq_of_lt h16]
  | notification payload =>
    have h16 : payload.length < 65536 := Nat.lt_of_le_of_lt hmax (by decide)
    have hbytes := sendFrame_payload cfg 0x03 (by decide) 0 payload hcap h16
    rw [replyBytes, sendReply, hbytes]
    refine .notification 0 0 _ _ payload ?_ hmax
    rw [← u16OfLe_toNat, u16OfLe_lenU16, lenU16_toNat, Nat.mod_eq_of_lt h16]

/-- A stream of replies, each followed by noise, on a parser in `Sync`. -/
theorem feedBytes_replies (cfg : RuntimeConfig) :
    ∀ (replies : List (ParsedFrame × List UInt8)) {p : FrameParser}, p.state = .sync →
      p.addressing = false →
      (∀ rg ∈ replies, (replyPayload rg.1).length ≤ min cfg.maxPayload maxPayloadSize) →
      (∀ rg ∈ replies, syncByte ∉ rg.2) →
      (p.feedBytes (replies.flatMap fun rg => replyBytes cfg rg.1 ++ rg.2)).2
          = replies.map Prod.fst ∧
        (p.feedBytes (replies.flatMap fun rg => replyBytes cfg rg.1 ++ rg.2)).1.state = .sync := by
  intro replies
  induction replies with
  | nil => intro p hs _ _ _; exact ⟨rfl, hs⟩
  | cons rg replies ih =>
    intro p hs ha hcap hgaps
    obtain ⟨reply, gap⟩ := rg
    have himg := replyBytes_wireImage cfg (hcap (reply, gap) (List.mem_cons_self ..))
    rw [← ha] at himg
    obtain ⟨p', hfeed, hs', ha'⟩ := FrameParser.feed_wireImage hs himg
    have hidle := FrameParser.feed_idle hs' (hgaps (reply, gap) (List.mem_cons_self ..))
    obtain ⟨hout, hend⟩ := ih hs' (ha'.trans ha)
      (fun x hx => hcap x (List.mem_cons_of_mem _ hx))
      (fun x hx => hgaps x (List.mem_cons_of_mem _ hx))
    simp only [List.flatMap_cons, List.append_assoc, FrameParser.feedBytes_append, hfeed, hidle]
    exact ⟨by simp [hout], hend⟩

/-- **Device → host framing is lossless.** Take any replies within both caps, the
bytes `sendFrame` emits for them with sync-free noise before, between and after,
and cut that stream into `feed_bytes` calls anywhere: a parser in `Sync` emits
exactly the replies, in order, and ends in `Sync`. -/
theorem feedChunks_replies (cfg : RuntimeConfig) {p : FrameParser}
    {replies : List (ParsedFrame × List UInt8)} {gap : List UInt8} {chunks : List (List UInt8)}
    (hs : p.state = .sync) (ha : p.addressing = false)
    (hcap : ∀ rg ∈ replies, (replyPayload rg.1).length ≤ min cfg.maxPayload maxPayloadSize)
    (hgap : syncByte ∉ gap) (hgaps : ∀ rg ∈ replies, syncByte ∉ rg.2)
    (hcut : chunks.flatten = gap ++ replies.flatMap fun rg => replyBytes cfg rg.1 ++ rg.2) :
    (p.feedChunks chunks).2 = replies.map Prod.fst ∧
      (p.feedChunks chunks).1.state = .sync := by
  rw [FrameParser.feedChunks_eq, hcut, FrameParser.feedBytes_append,
    FrameParser.feed_idle hs hgap]
  obtain ⟨hout, hend⟩ := feedBytes_replies cfg replies hs ha hcap hgaps
  exact ⟨by rw [hout]; rfl, hend⟩

/-- The hypotheses are met by a DATA reply whose payload contains a sync byte and
an empty notification, with noise around them, fed in three cuts. -/
theorem feedChunks_replies_cut :
    (FrameParser.new.feedChunks
        [[0x01, 0x55, 0x02], [0x07, 0x02, 0x00, 0x55], [0x09, 0x14, 0x10, 0x55, 0x03, 0x00, 0x00,
          0x00, 0x00, 0x11]]).2
      = [.data 0x07 [0x55, 0x09], .notification []] :=
  (@feedChunks_replies ⟨64, 100⟩ _
    [(.data 0x07 [0x55, 0x09], [0x10]), (.notification [], [0x11])] [0x01] _ rfl rfl
    (by simp [replyPayload, maxPayloadSize]) (by decide) (by decide) (by decide +kernel)).1

end ProtoEmb.Device
