import Mathlib.Data.List.Basic
import ProtoEmb.Framing.ParserSound

/-!
# Reading a stream at once

`scan` reads a whole byte stream without a parser state: it looks for a sync
byte, takes the bytes of the frame that starts there, says what came of it and
goes on behind it. Every start of a frame is an `Attempt`, with the source byte
it carried and the frame it gave, if it gave one: a frame is lost when its type
is invalid, its length oversize, its CRC wrong, or when the stream ends first.

There is no such function in the source. `feedBytes_scan` says that the byte-at-a-time parser of
`framing/src/lib.rs`, from any `Sync` state,
computes `scan`: the frames it emits are those of the attempts, in order, and
its `source` field is the source byte of the last attempt that had one. No field
of the state the run starts from appears on the other side, so nothing an
earlier frame left behind can reach a later one (`sync_forgets`).
-/

namespace ProtoEmb.Framing

open ProtoEmb.Lib

/-- One start of a frame in a stream. -/
structure Attempt where
  /-- The source byte, when the mode has one and the stream reaches it. -/
  source : Option UInt8
  /-- The frame, when it came through whole. -/
  frame : Option ParsedFrame
  deriving DecidableEq, Repr

/-- The frame a payload belongs to, by its type byte. -/
def payloadFrame (ty command : UInt8) (payload : List UInt8) : ParsedFrame :=
  if ty = 0x02 then .data command payload else .notification payload

/-- `len` payload bytes and the CRC byte, and what is left behind them. -/
def readPayload (source : Option UInt8) (ty command : UInt8) (len : Nat) (bytes : List UInt8) :
    Attempt × List UInt8 :=
  match bytes.drop len with
  | [] => (⟨source, none⟩, [])
  | crc :: rest =>
    (⟨source, if crc = crc8 (bytes.take len)
        then some (payloadFrame ty command (bytes.take len)) else none⟩, rest)

/-- From the length bytes on. -/
def readLength (source : Option UInt8) (ty command : UInt8) : List UInt8 → Attempt × List UInt8
  | lo :: hi :: rest =>
    if (u16OfLe lo hi).toNat > maxPayloadSize then (⟨source, none⟩, rest)
    else readPayload source ty command (u16OfLe lo hi).toNat rest
  | _ => (⟨source, none⟩, [])

/-- From the command byte on. -/
def readCommand (source : Option UInt8) (ty : UInt8) : List UInt8 → Attempt × List UInt8
  | [] => (⟨source, none⟩, [])
  | c :: rest =>
    if ty = 0x00 then (⟨source, some (.nack c)⟩, rest)
    else if ty = 0x01 then (⟨source, some (.ack c)⟩, rest)
    else readLength source ty c rest

/-- From the type byte on. -/
def readTyped (source : Option UInt8) : List UInt8 → Attempt × List UInt8
  | [] => (⟨source, none⟩, [])
  | ty :: rest => if ty > 0x03 then (⟨source, none⟩, rest) else readCommand source ty rest

/-- The frame that starts behind a sync byte. -/
def readFrame (addressing : Bool) (bytes : List UInt8) : Attempt × List UInt8 :=
  if addressing then
    match bytes with
    | [] => (⟨none, none⟩, [])
    | source :: rest => readTyped (some source) rest
  else readTyped none bytes

/-! ## Reading only moves forward -/

theorem readPayload_length (source : Option UInt8) (ty c : UInt8) (len : Nat)
    (bytes : List UInt8) : (readPayload source ty c len bytes).2.length ≤ bytes.length := by
  rw [readPayload]
  split
  · exact Nat.zero_le _
  · rename_i crc rest hdrop
    have hlen := congrArg List.length hdrop
    simp only [List.length_drop, List.length_cons] at hlen
    show rest.length ≤ bytes.length
    omega

theorem readLength_length (source : Option UInt8) (ty c : UInt8) (bytes : List UInt8) :
    (readLength source ty c bytes).2.length ≤ bytes.length := by
  rw [readLength.eq_def]
  split
  · rename_i lo hi rest
    split
    · simp only [List.length_cons]
      omega
    · have := readPayload_length source ty c (u16OfLe lo hi).toNat rest
      simp only [List.length_cons]
      omega
  · exact Nat.zero_le _

theorem readCommand_length (source : Option UInt8) (ty : UInt8) (bytes : List UInt8) :
    (readCommand source ty bytes).2.length ≤ bytes.length := by
  cases bytes with
  | nil => exact Nat.le_refl _
  | cons c rest =>
    rw [readCommand]
    split
    · exact Nat.le_succ _
    · split
      · exact Nat.le_succ _
      · exact Nat.le_succ_of_le (readLength_length source ty c rest)

theorem readTyped_length (source : Option UInt8) (bytes : List UInt8) :
    (readTyped source bytes).2.length ≤ bytes.length := by
  cases bytes with
  | nil => exact Nat.le_refl _
  | cons ty rest =>
    rw [readTyped]
    split
    · exact Nat.le_succ _
    · exact Nat.le_succ_of_le (readCommand_length source ty rest)

theorem readFrame_length (a : Bool) (bytes : List UInt8) :
    (readFrame a bytes).2.length ≤ bytes.length := by
  cases a with
  | false => exact readTyped_length none bytes
  | true =>
    cases bytes with
    | nil => exact Nat.le_refl _
    | cons src rest => exact Nat.le_succ_of_le (readTyped_length (some src) rest)

/-! ## An attempt keeps its source byte -/

theorem readLength_source (source : Option UInt8) (ty c : UInt8) (bytes : List UInt8) :
    (readLength source ty c bytes).1.source = source := by
  rw [readLength.eq_def]
  split
  · split
    · rfl
    · rw [readPayload]
      split <;> rfl
  · rfl

theorem readTyped_source (source : Option UInt8) (bytes : List UInt8) :
    (readTyped source bytes).1.source = source := by
  rcases bytes with _ | ⟨ty, _ | ⟨c, rest⟩⟩
  · rfl
  · rw [readTyped]
    split <;> rfl
  · rw [readTyped, readCommand]
    split
    · rfl
    · split
      · rfl
      · split
        · rfl
        · exact readLength_source source ty c rest

/-- Every attempt of the stream, in order. -/
def scan (addressing : Bool) : List UInt8 → List Attempt
  | [] => []
  | b :: rest =>
    if b = syncByte then
      (readFrame addressing rest).1 :: scan addressing (readFrame addressing rest).2
    else scan addressing rest
  termination_by bytes => bytes.length
  decreasing_by
    · exact Nat.lt_succ_of_le (readFrame_length addressing rest)
    · exact Nat.lt_succ_self _

/-- The source byte of the last attempt that had one, `d` if none had. -/
def lastSource (d : UInt8) (ts : List Attempt) : UInt8 := ts.foldl (fun s t => t.source.getD s) d

namespace FrameParser

/-! ## The parser reads attempts -/

/-- The parser takes the attempt `r.1` from the stream and goes on with `r.2`,
from `Sync` unless the stream is used up. -/
def Takes (p : FrameParser) (bytes : List UInt8) (r : Attempt × List UInt8) : Prop :=
  ∃ p' : FrameParser,
    p.feedBytes bytes
      = ((p'.feedBytes r.2).1, r.1.frame.toList ++ (p'.feedBytes r.2).2) ∧
    p'.addressing = p.addressing ∧ p'.source = r.1.source.getD p.source ∧
    (r.2 = [] ∨ p'.state = .sync)

/-- A payload that ends early is only collected. -/
theorem feed_unfinished :
    ∀ (ds : List UInt8) {p : FrameParser}, p.state = .data →
      p.dataReceived.toNat = p.buf.length → p.buf.length + ds.length < p.dataLen.toNat →
      ∃ p', p.feedBytes ds = (p', []) ∧ p'.addressing = p.addressing ∧ p'.source = p.source := by
  intro ds
  induction ds with
  | nil => intro p _ _ _; exact ⟨p, rfl, rfl, rfl⟩
  | cons b ds ih =>
    intro p hs hrec hlt
    have h16 : p.dataLen.toNat < 65536 := p.dataLen.toNat_lt
    simp only [List.length_cons] at hlt
    have hsucc : (p.dataReceived + 1).toNat = p.buf.length + 1 := by
      rw [UInt16.toNat_add, hrec, UInt16.toNat_one]
      omega
    have hge : ¬ p.dataReceived + 1 ≥ p.dataLen := by
      rw [ge_iff_le, UInt16.le_iff_toNat_le, hsucc]
      omega
    have hstep : p.feed b
        = ({ p with buf := p.buf ++ [b], dataReceived := p.dataReceived + 1 }, none) := by
      rw [feed_data hs, if_neg hge, hs]
    obtain ⟨p', hp', ha, hsrc⟩ :=
      ih (p := { p with buf := p.buf ++ [b], dataReceived := p.dataReceived + 1 })
        hs (by simpa using hsucc) (by simp; omega)
    refine ⟨p', ?_, ha, hsrc⟩
    simp only [feedBytes, hstep, hp', Option.toList_none, List.append_nil]

/-- The CRC byte ends the frame either way. -/
theorem feed_crc {p : FrameParser} (hs : p.state = .crc) (hpay : p.InPayloadFrame) (c : UInt8) :
    ∃ p', p.feed c
        = (p', if c = crc8 p.buf then some (payloadFrame p.frameType p.command p.buf) else none) ∧
      p'.addressing = p.addressing ∧ p'.source = p.source ∧ p'.state = .sync := by
  by_cases hc : c = crc8 p.buf
  · subst hc
    rw [feed_crc_ok hs, if_pos rfl]
    rcases hpay with ht | ht <;> rw [ht] <;> exact ⟨_, rfl, rfl, rfl, rfl⟩
  · rw [feed_crc_bad hs hc, if_neg hc]
    exact ⟨_, rfl, rfl, rfl, rfl⟩

/-- The announced bytes and the CRC, once the payload buffer is set up. -/
theorem feed_collected {p : FrameParser} (hs : p.state = .crc) (hpay : p.InPayloadFrame)
    {src : Option UInt8} (hsrc : src.getD p.source = p.source) (bytes : List UInt8) :
    p.Takes bytes (match bytes with
      | [] => (⟨src, none⟩, [])
      | crc :: rest =>
        (⟨src, if crc = crc8 p.buf then some (payloadFrame p.frameType p.command p.buf)
            else none⟩, rest)) := by
  cases bytes with
  | nil => exact ⟨p, rfl, rfl, hsrc.symm, Or.inl rfl⟩
  | cons c rest =>
    obtain ⟨p', hp', ha, hs', hsync⟩ := feed_crc hs hpay c
    refine ⟨p', ?_, ha, hs'.trans hsrc.symm, Or.inr hsync⟩
    simp only [feedBytes, hp']

/-- Feeding first what stays inside the attempt. -/
theorem Takes.prepend {p q : FrameParser} {front bytes : List UInt8}
    {r : Attempt × List UInt8} (hfeed : p.feedBytes front = (q, []))
    (ha : q.addressing = p.addressing) (hsrc : q.source = p.source) (h : q.Takes bytes r) :
    p.Takes (front ++ bytes) r := by
  obtain ⟨p', hp', ha', hs', hend⟩ := h
  refine ⟨p', ?_, ha'.trans ha, by rw [hs', hsrc], hend⟩
  rw [feedBytes_append, hfeed]
  simp only [List.nil_append, hp']

theorem Takes.cons {p q : FrameParser} {b : UInt8} {bytes : List UInt8}
    {r : Attempt × List UInt8} (hfeed : p.feed b = (q, none))
    (ha : q.addressing = p.addressing) (hsrc : q.source = p.source) (h : q.Takes bytes r) :
    p.Takes (b :: bytes) r := by
  have hbytes : p.feedBytes [b] = (q, []) := by
    rw [feedBytes, hfeed]
    rfl
  exact Takes.prepend hbytes ha hsrc h

theorem takes_readPayload {p : FrameParser} (hs : p.state = .data) (hpay : p.InPayloadFrame)
    (hbuf : p.buf = []) (hrec : p.dataReceived = 0) (hpos : 0 < p.dataLen.toNat)
    {src : Option UInt8} (hsrc : src.getD p.source = p.source) (bytes : List UInt8) :
    p.Takes bytes (readPayload src p.frameType p.command p.dataLen.toNat bytes) := by
  have hrec' : p.dataReceived.toNat = p.buf.length := by rw [hbuf, hrec]; rfl
  rw [readPayload]
  by_cases hshort : bytes.length < p.dataLen.toNat
  · have hdrop : bytes.drop p.dataLen.toNat = [] :=
      List.drop_eq_nil_of_le (Nat.le_of_lt hshort)
    rw [hdrop]
    obtain ⟨p', hp', ha, hs'⟩ := feed_unfinished bytes hs hrec' (by rw [hbuf]; simpa using hshort)
    refine ⟨p', ?_, ha, hs'.trans hsrc.symm, Or.inl rfl⟩
    simp [hp', feedBytes]
  · have hlen : (bytes.take p.dataLen.toNat).length = p.dataLen.toNat := by
      rw [List.length_take]
      omega
    have hne : bytes.take p.dataLen.toNat ≠ [] := by
      intro h
      rw [h] at hlen
      exact absurd hlen (by simp; omega)
    have hfeed := feed_payload (bytes.take p.dataLen.toNat) hs hrec'
      (by rw [hbuf, hlen]; simp) hne
    rw [hbuf, List.nil_append] at hfeed
    have h := (feed_collected (p := { p with buf := bytes.take p.dataLen.toNat,
                                             dataReceived := p.dataLen, state := .crc })
      rfl hpay hsrc (bytes.drop p.dataLen.toNat)).prepend hfeed rfl rfl
    rw [List.take_append_drop] at h
    exact h

theorem takes_readLength {p : FrameParser} (hs : p.state = .lengthLo) (hpay : p.InPayloadFrame)
    {src : Option UInt8} (hsrc : src.getD p.source = p.source) (bytes : List UInt8) :
    p.Takes bytes (readLength src p.frameType p.command bytes) := by
  rcases bytes with _ | ⟨lo, bytes⟩
  · exact ⟨p, rfl, rfl, hsrc.symm, Or.inl rfl⟩
  apply Takes.cons (feed_lengthLo hs) rfl rfl
  rcases bytes with _ | ⟨hi, rest⟩
  · exact ⟨_, rfl, rfl, hsrc.symm, Or.inl rfl⟩
  rw [readLength]
  by_cases hbig : maxPayloadSize < (u16OfLe lo hi).toNat
  · rw [if_pos hbig]
    refine ⟨{ p with dataLen := u16OfLe lo hi, state := .sync }, ?_, rfl, hsrc.symm, Or.inr rfl⟩
    rw [feedBytes, feed_lengthHi_big rfl rfl hbig]
  rw [if_neg hbig]
  by_cases hz : u16OfLe lo hi = 0
  · apply Takes.cons (feed_lengthHi_zero rfl rfl hz) rfl rfl
    rw [hz]
    exact feed_collected (p := { p with dataLen := 0, buf := [], dataReceived := 0,
                                        state := .crc }) rfl hpay hsrc rest
  · have hpos : 0 < (u16OfLe lo hi).toNat := by
      apply Nat.pos_of_ne_zero
      intro h0
      exact hz (UInt16.toNat_inj.mp h0)
    apply Takes.cons (feed_lengthHi_data rfl rfl hz (Nat.not_lt.mp hbig)) rfl rfl
    exact takes_readPayload (p := { p with dataLen := u16OfLe lo hi, buf := [],
                                           dataReceived := 0, state := .data })
      rfl hpay rfl rfl hpos hsrc rest

theorem takes_readCommand {p : FrameParser} (hs : p.state = .command)
    (hty : ¬ p.frameType > 0x03) {src : Option UInt8} (hsrc : src.getD p.source = p.source)
    (bytes : List UInt8) : p.Takes bytes (readCommand src p.frameType bytes) := by
  cases bytes with
  | nil => exact ⟨p, rfl, rfl, hsrc.symm, Or.inl rfl⟩
  | cons c rest =>
    rw [readCommand]
    rcases type_cases hty with ht | ht | hpay
    · rw [if_pos ht]
      refine ⟨{ p with command := c, state := .sync }, ?_, rfl, hsrc.symm, Or.inr rfl⟩
      rw [feedBytes, feed_command_nack hs ht]
    · rw [if_neg (by rw [ht]; decide), if_pos ht]
      refine ⟨{ p with command := c, state := .sync }, ?_, rfl, hsrc.symm, Or.inr rfl⟩
      rw [feedBytes, feed_command_ack hs ht]
    · have h0 : p.frameType ≠ 0x00 := by rcases hpay with h | h <;> rw [h] <;> decide
      have h1 : p.frameType ≠ 0x01 := by rcases hpay with h | h <;> rw [h] <;> decide
      rw [if_neg h0, if_neg h1]
      apply Takes.cons (feed_command_payload hs hpay) rfl rfl
      exact takes_readLength (p := { p with command := c, state := .lengthLo }) rfl hpay hsrc rest

theorem takes_readTyped {p : FrameParser} (hs : p.state = .type)
    {src : Option UInt8} (hsrc : src.getD p.source = p.source) (bytes : List UInt8) :
    p.Takes bytes (readTyped src bytes) := by
  cases bytes with
  | nil => exact ⟨p, rfl, rfl, hsrc.symm, Or.inl rfl⟩
  | cons ty rest =>
    have hstep := feed_type (b := ty) hs
    rw [readTyped]
    by_cases hty : ty > 0x03
    · rw [if_pos hty] at hstep ⊢
      refine ⟨{ p with frameType := ty, state := .sync }, ?_, rfl, hsrc.symm, Or.inr rfl⟩
      rw [feedBytes, hstep]
    · rw [if_neg hty] at hstep ⊢
      apply Takes.cons hstep rfl rfl
      exact takes_readCommand (p := { p with frameType := ty, state := .command }) rfl hty hsrc
        rest

/-- Behind a sync byte the parser takes exactly the attempt `readFrame` reads. -/
theorem takes_readFrame {p : FrameParser} (hs : p.state = .sync) (bytes : List UInt8) :
    p.Takes (syncByte :: bytes) (readFrame p.addressing bytes) := by
  cases ha : p.addressing with
  | false =>
    have hstart : p.feed syncByte = ({ p with state := .type }, none) := by
      rw [feed_sync_start hs, ha]
      rfl
    apply Takes.cons hstart rfl rfl
    exact takes_readTyped rfl rfl bytes
  | true =>
    have hstart : p.feed syncByte = ({ p with state := .source }, none) := by
      rw [feed_sync_start hs, ha]
      rfl
    rcases bytes with _ | ⟨src, rest⟩
    · refine ⟨{ p with state := .source }, ?_, rfl, rfl, Or.inl rfl⟩
      rw [feedBytes, hstart]
      rfl
    · obtain ⟨p', hp', ha', hs', hend⟩ :=
        @takes_readTyped { p with source := src, state := .type } rfl (some src) rfl rest
      have hread : (readFrame true (src :: rest)) = readTyped (some src) rest := rfl
      have hkeep : (readTyped (some src) rest).1.source = some src := readTyped_source _ _
      rw [hread]
      refine ⟨p', ?_, ha', ?_, hend⟩
      · rw [feedBytes, hstart, feedBytes, feed_source rfl]
        simpa using hp'
      · rw [hs', hkeep]
        rfl

/-- **The parser computes `scan`**: from any `Sync` state the frames it emits are
those of the attempts, in order, and the source address it is left with is that
of the last attempt that had one. -/
theorem feedBytes_scan :
    ∀ (n : Nat) (bytes : List UInt8), bytes.length ≤ n → ∀ {p : FrameParser}, p.state = .sync →
      (p.feedBytes bytes).2 = (scan p.addressing bytes).filterMap (·.frame) ∧
      (p.feedBytes bytes).1.source = lastSource p.source (scan p.addressing bytes) := by
  -- on a bound for the length: an attempt takes an unknown number of bytes
  intro n
  induction n with
  | zero =>
    intro bytes hlen p _
    have hnil : bytes = [] := List.eq_nil_of_length_eq_zero (Nat.le_zero.mp hlen)
    subst hnil
    simp [feedBytes, scan, lastSource]
  | succ n ih =>
    intro bytes hlen p hs
    rcases bytes with _ | ⟨b, rest⟩
    · simp [feedBytes, scan, lastSource]
    have hrest : rest.length ≤ n := Nat.le_of_succ_le_succ hlen
    by_cases hb : b = syncByte
    · subst hb
      obtain ⟨p', hp', ha, hsrc, hend⟩ := takes_readFrame hs rest
      have hshort := readFrame_length p.addressing rest
      have hcons : ∀ t : Attempt, ∀ ts, (t :: ts).filterMap (·.frame)
          = t.frame.toList ++ ts.filterMap (·.frame) := by
        intro t ts
        cases h : t.frame <;> simp [h]
      rw [scan, if_pos rfl, hp', hcons, lastSource, List.foldl_cons, ← hsrc]
      rcases hend with hnil | hsync
      · rw [hnil]
        simp [feedBytes, scan]
      · obtain ⟨hframes, hsource⟩ := ih _ (Nat.le_trans hshort hrest) hsync
        rw [ha] at hframes hsource
        exact ⟨by rw [hframes], hsource⟩
    · obtain ⟨hframes, hsource⟩ := ih rest hrest hs
      rw [scan, if_neg hb, feedBytes, feed_sync_idle hs hb]
      exact ⟨hframes, hsource⟩

/-! ## What is left over does not matter -/

/-- A parser after any `feed` and `reset` calls. -/
inductive Reachable (addressing : Bool) : FrameParser → Prop where
  | create : Reachable addressing (create addressing)
  | feed {p : FrameParser} (b : UInt8) (h : Reachable addressing p) :
      Reachable addressing (p.feed b).1
  | reset {p : FrameParser} (h : Reachable addressing p) : Reachable addressing p.reset

/-- The steps that end a frame, well or badly. -/
inductive Exit (p : FrameParser) : FrameParser → Prop where
  | reset : Exit p p.reset
  | emitted (b : UInt8) {f : ParsedFrame} (h : (p.feed b).2 = some f) : Exit p (p.feed b).1
  | invalidType (b : UInt8) (hs : p.state = .type) (hb : b > 0x03) : Exit p (p.feed b).1
  | oversize (b : UInt8) (hs : p.state = .lengthHi)
      (hb : (p.dataLen ||| (b.toUInt16 <<< 8)).toNat > maxPayloadSize) : Exit p (p.feed b).1
  | badCrc (b : UInt8) (hs : p.state = .crc) (hb : b ≠ crc8 p.buf) : Exit p (p.feed b).1

theorem create_state (a : Bool) : (create a).state = .sync := by cases a <;> rfl

theorem create_addressing (a : Bool) : (create a).addressing = a := by cases a <;> rfl

/-- One byte keeps the parser's pending bytes accounted for. -/
theorem feed_keeps_pending {p : FrameParser} {seg : List UInt8} (b : UInt8) (h : p.Pending seg) :
    (p.feed b).1.addressing = p.addressing ∧ ∃ seg', (p.feed b).1.Pending seg' := by
  obtain ⟨ha, hout⟩ := feed_pending b h
  refine ⟨ha, ?_⟩
  split at hout
  · rcases hout with hpend | hsync
    · exact ⟨_, hpend⟩
    · exact ⟨[], pending_of_sync hsync⟩
  · exact ⟨[], pending_of_sync hout.2⟩

/-- Every reachable parser is working on some pending bytes, in its own mode. -/
theorem Reachable.pending {a : Bool} {p : FrameParser} (h : Reachable a p) :
    p.addressing = a ∧ ∃ seg, p.Pending seg := by
  induction h with
  | create => exact ⟨create_addressing a, [], pending_of_sync (create_state a)⟩
  | feed b _ ih =>
    obtain ⟨hmode, seg, hseg⟩ := ih
    obtain ⟨ha, hpend⟩ := feed_keeps_pending b hseg
    exact ⟨ha.trans hmode, hpend⟩
  | reset _ ih => exact ⟨ih.1, [], pending_of_sync rfl⟩

theorem Exit.sync {a : Bool} {p p' : FrameParser} (h : Reachable a p) (he : Exit p p') :
    p'.state = .sync := by
  cases he with
  | reset => rfl
  | emitted b hf =>
    obtain ⟨-, seg, hseg⟩ := h.pending
    have hout := (feed_pending b hseg).2
    rw [hf] at hout
    exact hout.2
  | invalidType b hs hb => rw [feed_type hs, if_pos hb]
  | oversize b hs hb =>
    have hne : p.dataLen ||| (b.toUInt16 <<< 8) ≠ 0 := by
      intro h0
      rw [h0] at hb
      exact absurd hb (by decide)
    simp only [FrameParser.feed, hs, if_neg hne, if_pos hb]
  | badCrc b hs hb => rw [feed_crc_bad hs hb]

/-- **No stale state.** A reachable parser in `Sync` emits, on every further
stream, what a new parser of its mode emits; and every way a frame can end
leaves the parser in `Sync`. -/
theorem sync_forgets (a : Bool) {p : FrameParser} (h : Reachable a p) :
    (p.state = .sync → ∀ chunks : List (List UInt8),
        (p.feedChunks chunks).2 = ((create a).feedChunks chunks).2) ∧
      ∀ p', Exit p p' → p'.state = .sync ∧ ∀ chunks : List (List UInt8),
        (p'.feedChunks chunks).2 = ((create a).feedChunks chunks).2 := by
  have hforget : ∀ {q : FrameParser}, q.addressing = a → q.state = .sync →
      ∀ chunks : List (List UInt8), (q.feedChunks chunks).2 = ((create a).feedChunks chunks).2 := by
    intro q hmode hs chunks
    rw [feedChunks_eq, feedChunks_eq, (feedBytes_scan _ _ (Nat.le_refl _) hs).1,
      (feedBytes_scan _ _ (Nat.le_refl _) (create_state a)).1, hmode, create_addressing]
  obtain ⟨hmode, seg, hseg⟩ := h.pending
  refine ⟨hforget hmode, ?_⟩
  intro p' he
  have hsync := he.sync h
  refine ⟨hsync, hforget ?_ hsync⟩
  cases he with
  | reset => exact hmode
  | emitted b _ | invalidType b _ _ | oversize b _ _ | badCrc b _ _ =>
    exact (feed_pending b hseg).1.trans hmode

/-- After a NACK the parser still holds its type and command bytes, and reads an
ACK as a new parser does. -/
theorem sync_forgets_nack :
    let p := ((create false).feedBytes [syncByte, 0x00, 0x07]).1
    p.command = 0x07 ∧ p.state = .sync ∧
      (p.feedChunks [[syncByte, 0x01], [0x09]]).2
        = ((create false).feedChunks [[syncByte, 0x01], [0x09]]).2 := by
  refine ⟨by decide, by decide, ?_⟩
  exact (sync_forgets false (.feed 0x07 (.feed 0x00 (.feed syncByte .create)))).1 (by decide) _

/-! ## Whose frame it was -/

/-- The frames of a stream on an addressed link, each with its source byte. -/
def sentFrames (bytes : List UInt8) : List (UInt8 × ParsedFrame) :=
  (scan true bytes).filterMap (fun t => t.frame.map (t.source.getD 0, ·))

/-- The source byte of the last frame of the stream, `0` before the first. -/
def lastSender (bytes : List UInt8) : UInt8 := ((sentFrames bytes).getLast?.map (·.1)).getD 0

/-- After these calls `source()` names the sender of the last emitted frame. -/
def NamesSender (calls : List (List UInt8)) : Prop :=
  (withAddressing.feedChunks calls).1.source = lastSender calls.flatten

/-- The last source byte of the stream belongs to a frame that came through, or
is the address of the last one that did. -/
def NoStrayAddress (bytes : List UInt8) : Prop :=
  ∀ t, ((scan true bytes).filter (·.source.isSome)).getLast? = some t →
    t.frame.isSome = true ∨ t.source = some (lastSender bytes)

/-- A frame that came through on an addressed link has its source byte. -/
theorem scan_source {bytes : List UInt8} :
    ∀ t ∈ scan true bytes, t.frame.isSome = true → t.source.isSome = true := by
  have hread : ∀ rest, (readFrame true rest).1.frame.isSome = true →
      (readFrame true rest).1.source.isSome = true := by
    intro rest hf
    cases rest with
    | nil => exact absurd hf (by simp [readFrame])
    | cons src rest =>
      show (readTyped (some src) rest).1.source.isSome = true
      rw [readTyped_source]
      rfl
  fun_induction scan true bytes with
  | case1 => intro t ht; exact absurd ht List.not_mem_nil
  | case2 rest ih =>
    intro t ht
    rcases List.mem_cons.mp ht with rfl | ht
    · exact hread rest
    · exact ih t ht
  | case3 b rest hb ih => exact ih

/-- The folded source address is that of the last attempt with one. -/
theorem lastSource_eq (d : UInt8) (ts : List Attempt) :
    lastSource d ts = (((ts.filter (·.source.isSome)).getLast?).bind (·.source)).getD d := by
  induction ts generalizing d with
  | nil => rfl
  | cons t ts ih =>
    rw [lastSource, List.foldl_cons, ← lastSource, ih]
    cases hsrc : t.source with
    | none => simp [hsrc]
    | some x =>
      simp only [List.filter_cons, hsrc, Option.isSome_some, if_true, List.getLast?_cons,
        Option.getD_some]
      cases hlast : (ts.filter (·.source.isSome)).getLast? with
      | none => simp [hsrc]
      | some t' =>
        have hmem := List.mem_of_getLast? hlast
        obtain ⟨y, hy⟩ := Option.isSome_iff_exists.mp (List.mem_filter.mp hmem).2
        simp [hy]

/-- When the last attempt with a source byte came through, it is the last frame. -/
theorem lastSender_of_frame {bytes : List UInt8} {t : Attempt} {x : UInt8}
    (hlast : ((scan true bytes).filter (·.source.isSome)).getLast? = some t)
    (hsrc : t.source = some x) (hframe : t.frame.isSome = true) : lastSender bytes = x := by
  have hsent : sentFrames bytes = ((scan true bytes).filter (·.source.isSome)).filterMap
      (fun t => t.frame.map (t.source.getD 0, ·)) := by
    rw [sentFrames, List.filterMap_filter]
    apply List.filterMap_congr
    intro u hu
    cases hf : u.frame with
    | none => simp
    | some f => simp [scan_source u hu (by rw [hf]; rfl)]
  obtain ⟨f, hf⟩ := Option.isSome_iff_exists.mp hframe
  obtain ⟨ini, hini⟩ := List.getLast?_eq_some_iff.mp hlast
  rw [lastSender, hsent, hini, List.filterMap_append]
  simp [hf, hsrc]

/-- The parser's source address on an addressed link. -/
theorem feedChunks_source (calls : List (List UInt8)) :
    (withAddressing.feedChunks calls).1.source = lastSource 0 (scan true calls.flatten) := by
  rw [feedChunks_eq]
  exact (feedBytes_scan _ _ (Nat.le_refl _) (p := withAddressing) rfl).2

theorem namesSender_iff (calls : List (List UInt8)) :
    NamesSender calls ↔ NoStrayAddress calls.flatten := by
  rw [NamesSender, feedChunks_source, lastSource_eq, NoStrayAddress]
  cases hlast : ((scan true calls.flatten).filter (·.source.isSome)).getLast? with
  | none =>
    have hnone : sentFrames calls.flatten = [] := by
      apply List.filterMap_eq_nil_iff.mpr
      intro u hu
      cases hf : u.frame with
      | none => rfl
      | some f =>
        have hmem : u ∈ (scan true calls.flatten).filter (·.source.isSome) :=
          List.mem_filter.mpr ⟨hu, scan_source u hu (by rw [hf]; rfl)⟩
        rw [List.getLast?_eq_none_iff.mp hlast] at hmem
        exact absurd hmem List.not_mem_nil
    simp [lastSender, hnone]
  | some t =>
    obtain ⟨x, hx⟩ := Option.isSome_iff_exists.mp
      (List.mem_filter.mp (List.mem_of_getLast? hlast)).2
    constructor
    · intro heq t' ht'
      obtain rfl := Option.some.inj ht'
      right
      simpa [hx] using heq
    · intro hstray
      rcases hstray t rfl with hframe | hsrc
      · simpa [hx] using (lastSender_of_frame hlast hx hframe).symm
      · simp [hsrc]

/-- **When `source()` names the sender.** The frames emitted on an addressed link
are those of `sentFrames`; and after every call `source()` is the source byte of
the last of them exactly when, at the end of every call, the last source byte
read is that of a frame that came through, or the same address again. A frame
that is cut off by the end of a call, or discarded, has already overwritten it. -/
theorem source_names_sender_iff (calls : List (List UInt8)) :
    (withAddressing.feedChunks calls).2 = (sentFrames calls.flatten).map (·.2) ∧
      ((∀ k ≤ calls.length, NamesSender (calls.take k)) ↔
        ∀ k ≤ calls.length, NoStrayAddress (calls.take k).flatten) := by
  constructor
  · rw [feedChunks_eq, (feedBytes_scan _ _ (Nat.le_refl _) (p := withAddressing) rfl).1,
      sentFrames, List.map_filterMap]
    apply List.filterMap_congr
    intro t _
    cases t.frame <;> rfl
  · constructor
    · intro h k hk
      exact (namesSender_iff _).mp (h k hk)
    · intro h k hk
      exact (namesSender_iff _).mpr (h k hk)

/-- An ACK from node 1, and then the first two bytes of a frame from node 2:
`source()` is 2, although the only frame emitted came from node 1. -/
theorem source_names_unparsed :
    ¬ ∀ calls : List (List UInt8), ∀ k ≤ calls.length, NamesSender (calls.take k) := by
  intro h
  have h2 := h [[syncByte, 0x01, 0x01, 0x10], [syncByte, 0x02]] 2 (by decide)
  have hparser : (withAddressing.feedChunks
      [[syncByte, 0x01, 0x01, 0x10], [syncByte, 0x02]]).1.source = 0x02 := by decide
  have hscan : scan true [syncByte, 0x01, 0x01, 0x10, syncByte, 0x02]
      = [⟨some 0x01, some (.ack 0x10)⟩, ⟨some 0x02, none⟩] := by
    simp [scan, readFrame, readTyped, readCommand]
  have hsender : lastSender [syncByte, 0x01, 0x01, 0x10, syncByte, 0x02] = 0x01 := by
    rw [lastSender, sentFrames, hscan]
    rfl
  have heq : (0x02 : UInt8) = 0x01 := hparser.symm.trans (h2.trans hsender)
  exact absurd heq (by decide)

end FrameParser

end ProtoEmb.Framing
