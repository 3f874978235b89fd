import ProtoEmb.Framing.Parser

/-!
# Addressed framing is plain framing plus one byte

A parser made by `FrameParser::with_addressing` takes one more byte per frame, the one behind the
sync byte. Take these bytes out of its stream and a plain parser emits the same frames
(`addressed_is_plain`), whatever the stream: garbage, frames that are given up, a source byte that
is itself a sync byte. `plain` is the plain parser that an addressed one stands for, and in the
`Source` state that is the plain parser which waits for a type. A byte fed in `Source` leaves it
as it is (`feed_plain_source`), any other is a step of the plain parser (`feed_plain`).
-/

namespace ProtoEmb.Framing

open ProtoEmb.Lib

namespace FrameParser

/-- The bytes of a stream that are not consumed in the `Source` state. -/
def withoutSources (p : FrameParser) : List UInt8 → List UInt8
  | [] => []
  | b :: rest =>
    if p.state = .source then withoutSources (p.feed b).1 rest
    else b :: withoutSources (p.feed b).1 rest

/-- The plain parser that is at the same place of a frame. -/
def plain (p : FrameParser) : FrameParser :=
  { p with state := if p.state = .source then .type else p.state, addressing := false, source := 0 }

theorem plain_state {p : FrameParser} (hs : p.state ≠ .source) : p.plain.state = p.state :=
  if_neg hs

/-- The source byte is not seen by the plain parser. -/
theorem feed_plain_source {p : FrameParser} (hs : p.state = .source) (b : UInt8) :
    (p.feed b).2 = none ∧ (p.feed b).1.plain = p.plain := by
  rw [feed_source hs]
  refine ⟨rfl, ?_⟩
  simp [plain, hs]

/-- **The step lemma**: any other byte is fed to the plain parser too. -/
theorem feed_plain {p : FrameParser} (ha : p.addressing = true) (hs : p.state ≠ .source)
    (b : UInt8) : (p.plain.feed b).2 = (p.feed b).2 ∧ (p.plain.feed b).1 = (p.feed b).1.plain := by
  have hstate := plain_state hs
  cases hst : p.state with
  | source => exact absurd hst hs
  | sync =>
    rw [hst] at hstate
    by_cases hb : b = syncByte
    · -- one waits for the source, the other for the type
      rw [hb, feed_sync_start hst, feed_sync_start hstate]
      simp [plain, ha]
    · rw [feed_sync_idle hst hb, feed_sync_idle hstate hb]
      exact ⟨rfl, rfl⟩
  | type =>
    rw [hst] at hstate
    rw [feed_type hst, feed_type hstate]
    -- from here on neither looks at `addressing`
    by_cases hb : b > 0x03 <;> simp [plain, hb]
  | command =>
    rw [hst] at hstate
    have htype : p.plain.frameType = p.frameType := rfl
    simp only [feed, hst, hstate, htype]
    split_ifs <;> simp [plain]
  | lengthLo =>
    rw [hst] at hstate
    rw [feed_lengthLo hst, feed_lengthLo hstate]
    simp [plain]
  | lengthHi =>
    rw [hst] at hstate
    have hlen : p.plain.dataLen = p.dataLen := rfl
    simp only [feed, hst, hstate, hlen]
    split_ifs <;> simp [plain]
  | data =>
    rw [hst] at hstate
    rw [feed_data hst, feed_data hstate]
    by_cases hlast : p.dataReceived + 1 ≥ p.dataLen <;> simp [plain, hlast]
  | crc =>
    rw [hst] at hstate
    have hbuf : p.plain.buf = p.buf := rfl
    have htype : p.plain.frameType = p.frameType := rfl
    simp only [feed, hst, hstate, hbuf, htype]
    split_ifs <;> simp [plain]

theorem feed_addressing (p : FrameParser) (b : UInt8) : (p.feed b).1.addressing = p.addressing := by
  unfold feed
  split
  case h_1 => split <;> rfl
  case h_2 => rfl
  case h_3 => split <;> rfl
  case h_4 => split_ifs <;> rfl
  case h_5 => rfl
  case h_6 => simp only; split_ifs <;> rfl
  case h_7 => rfl
  case h_8 => split <;> rfl

/-- **The run lemma.** -/
theorem feedBytes_plain (stream : List UInt8) :
    ∀ {p : FrameParser}, p.addressing = true →
      (p.plain.feedBytes (p.withoutSources stream)).2 = (p.feedBytes stream).2 := by
  induction stream with
  | nil => intro p _; rfl
  | cons b rest ih =>
    intro p ha
    have hrest := ih ((feed_addressing p b).trans ha)
    rw [withoutSources, feedBytes]
    by_cases hs : p.state = .source
    · obtain ⟨hnone, hsame⟩ := feed_plain_source hs b
      rw [if_pos hs, ← hsame, hrest, hnone]
      rfl
    · obtain ⟨hout, hsame⟩ := feed_plain ha hs b
      rw [if_neg hs, feedBytes, hout, hsame, hrest]

/-- **Addressed framing is plain framing plus one byte**: for a parser, the byte consumed in
`Source`, and for the builders, the byte behind the sync byte. -/
theorem addressed_is_plain :
    (∀ stream, (withAddressing.feedBytes stream).2
        = (new.feedBytes (withAddressing.withoutSources stream)).2) ∧
      ∀ requests : List (UInt8 × UInt8 × List UInt8),
        (requests.map fun r => buildReadFrameFrom r.1 r.2.1)
            = (requests.map fun r => (buildReadFrame r.2.1).insertIdx 1 r.1) ∧
          (requests.map fun r => buildWriteFrameFrom r.1 r.2.1 r.2.2)
            = requests.map fun r => (buildWriteFrame r.2.1 r.2.2).insertIdx 1 r.1 := by
  constructor
  · intro stream
    exact (feedBytes_plain stream (p := withAddressing) rfl).symm
  · intro requests
    exact ⟨rfl, rfl⟩

/-- A frame given up for its type, and one from the node with the address of the sync byte. -/
example : withAddressing.withoutSources [0x55, 0x01, 0x09, 0x55, 0x55, 0x01, 0x02]
    = [0x55, 0x09, 0x55, 0x01, 0x02] := by decide

end FrameParser

end ProtoEmb.Framing
