import ProtoEmb.Client.Queue
import ProtoEmb.Device.Requests

/-!
# Payloads longer than the device's buffer

`Client::write` and `Client::query` of `client.rs` send a payload of any length, and announce its
length modulo `2 ^ 16`. A device that finds the announced length too large, or that
finds the wrong byte where it expects the CRC, goes back to SYNC and reads the rest
of the payload as new frames. Whether one of those is a request is a property of
the bytes alone, `HasRequest`; `dispatches_iff_hasRequest` shows the state machine
computes it, and `run_write_frame_iff` says exactly which payloads stay data.
-/

namespace ProtoEmb.Device

open ProtoEmb.Lib ProtoEmb.Framing ProtoEmb.Client

/-- Reading `bs` from SYNC comes to a complete, valid request: at once, or after
idle bytes, a bad type byte, an oversized header or a body with a wrong CRC. -/
inductive HasRequest (maxPayload : Nat) : List UInt8 → Prop where
  | read (c : UInt8) (rest : List UInt8) : HasRequest maxPayload (syncByte :: 0x00 :: c :: rest)
  | write (c lo hi : UInt8) (payload rest : List UInt8)
      (hlen : (u16OfLe lo hi).toNat = payload.length) (hle : payload.length ≤ maxPayload) :
      HasRequest maxPayload
        (syncByte :: 0x01 :: c :: lo :: hi :: (payload ++ crc8 payload :: rest))
  | idle (b : UInt8) (rest : List UInt8) (hb : b ≠ syncByte) (h : HasRequest maxPayload rest) :
      HasRequest maxPayload (b :: rest)
  | badType (ty : UInt8) (rest : List UInt8) (hty : ¬ (ty = 0x00 ∨ ty = 0x01))
      (h : HasRequest maxPayload rest) : HasRequest maxPayload (syncByte :: ty :: rest)
  | oversize (c lo hi : UInt8) (rest : List UInt8) (hbig : maxPayload < (u16OfLe lo hi).toNat)
      (h : HasRequest maxPayload rest) :
      HasRequest maxPayload (syncByte :: 0x01 :: c :: lo :: hi :: rest)
  | badCrc (c lo hi crc : UInt8) (payload rest : List UInt8)
      (hlen : (u16OfLe lo hi).toNat = payload.length) (hle : payload.length ≤ maxPayload)
      (hcrc : crc ≠ crc8 payload) (h : HasRequest maxPayload rest) :
      HasRequest maxPayload (syncByte :: 0x01 :: c :: lo :: hi :: (payload ++ crc :: rest))

/-- A handler is called, as opposed to the CRC-failure NACK. -/
def Action.isDispatch : Action → Bool
  | .dispatchRead _ => true
  | .dispatchWrite _ _ => true
  | .sendNack _ => false

/-- A dispatch that some part of `bs`, shorter than `bs` by a frame's overhead, could
have caused. -/
def Action.Within (bs : List UInt8) : Action → Prop
  | .dispatchRead _ => True
  | .dispatchWrite _ payload => payload.length + 6 ≤ bs.length
  | .sendNack _ => False

theorem Action.Within.mono {as bs : List UInt8} (h : as.length ≤ bs.length) {a : Action}
    (ha : a.Within as) : a.Within bs := by
  cases a with
  | dispatchRead c => exact trivial
  | dispatchWrite c payload => exact Nat.le_trans ha h
  | sendNack c => exact ha

namespace Runtime

variable {cfg : RuntimeConfig}

/-- A whole WRITE frame with an arbitrary CRC byte, from SYNC to SYNC. -/
theorem feedBytes_writeFrame {rt : Runtime cfg} (hs : rt.state = .sync) (c : UInt8)
    {lo hi : UInt8} (crc : UInt8) {payload : List UInt8}
    (hlen : (u16OfLe lo hi).toNat = payload.length)
    (hle : payload.length ≤ cfg.maxPayload) (rest : List UInt8) :
    ∃ rt' : Runtime cfg, rt'.state = .sync ∧
      (rt.feedBytes (syncByte :: 0x01 :: c :: lo :: hi :: (payload ++ crc :: rest))).2
        = (if crc = crc8 payload then Action.dispatchWrite c payload else .sendNack c)
          :: (rt'.feedBytes rest).2 := by
  obtain ⟨rt₁, hfeed₁, hst₁, hc₁⟩ := feedBytes_writeHeader hs c
  obtain ⟨rt₂, hfeed₂, hst₂⟩ := feedBytes_body hst₁ crc hlen hle
  refine ⟨rt₂, hst₂, ?_⟩
  rw [show syncByte :: 0x01 :: c :: lo :: hi :: (payload ++ crc :: rest)
      = [syncByte, 0x01, c] ++ ((lo :: hi :: (payload ++ [crc])) ++ rest) by simp,
    feedBytes_append, hfeed₁, feedBytes_append, hfeed₂, hc₁]
  rfl

/-- An oversized WRITE header is skipped: the rest is read from SYNC. -/
theorem feedBytes_oversizeFrame {rt : Runtime cfg} (hs : rt.state = .sync) (c : UInt8)
    {lo hi : UInt8} (hbig : cfg.maxPayload < (u16OfLe lo hi).toNat) (rest : List UInt8) :
    ∃ rt' : Runtime cfg, rt'.state = .sync ∧
      (rt.feedBytes (syncByte :: 0x01 :: c :: lo :: hi :: rest)).2 = (rt'.feedBytes rest).2 := by
  obtain ⟨rt₁, hfeed₁, hst₁, -⟩ := feedBytes_writeHeader hs c
  obtain ⟨rt₂, hfeed₂, hst₂⟩ := feedBytes_oversize hst₁ hbig
  refine ⟨rt₂, hst₂, ?_⟩
  rw [show syncByte :: 0x01 :: c :: lo :: hi :: rest
      = [syncByte, 0x01, c] ++ ([lo, hi] ++ rest) from rfl,
    feedBytes_append, hfeed₁, feedBytes_append, hfeed₂]
  rfl

/-- A bad type byte is skipped together with its sync byte. -/
theorem feedBytes_badTypeFrame {rt : Runtime cfg} (hs : rt.state = .sync) {ty : UInt8}
    (hty : ¬ (ty = 0x00 ∨ ty = 0x01)) (rest : List UInt8) :
    ∃ rt' : Runtime cfg, rt'.state = .sync ∧
      (rt.feedBytes (syncByte :: ty :: rest)).2 = (rt'.feedBytes rest).2 := by
  obtain ⟨rt₁, hfeed₁, hst₁⟩ := feedBytes_badType hs hty
  refine ⟨rt₁, hst₁, ?_⟩
  rw [show syncByte :: ty :: rest = [syncByte, ty] ++ rest from rfl, feedBytes_append, hfeed₁]
  rfl

/-- A request in the bytes is executed. -/
theorem dispatch_of_hasRequest {bs : List UInt8} (h : HasRequest cfg.maxPayload bs) :
    ∀ {rt : Runtime cfg}, rt.state = .sync → ∃ a ∈ (rt.feedBytes bs).2, a.Within bs := by
  induction h with
  | read c rest =>
    intro rt hs
    obtain ⟨rt₁, hfeed, -⟩ := feedBytes_read hs c
    rw [show syncByte :: 0x00 :: c :: rest = [syncByte, 0x00, c] ++ rest from rfl,
      feedBytes_append, hfeed]
    exact ⟨.dispatchRead c, List.mem_cons_self .., trivial⟩
  | write c lo hi payload rest hlen hle =>
    intro rt hs
    obtain ⟨rt₁, -, hact⟩ := feedBytes_writeFrame hs c (crc8 payload) hlen hle rest
    rw [hact, if_pos rfl]
    refine ⟨.dispatchWrite c payload, List.mem_cons_self .., ?_⟩
    simp only [Action.Within, List.length_cons, List.length_append]
    omega
  | idle b rest hb _ ih =>
    intro rt hs
    obtain ⟨a, ha, hin⟩ := ih hs
    refine ⟨a, ?_, hin.mono (by simp)⟩
    simpa only [feedBytes, feedByte_sync_idle hs hb, List.nil_append] using ha
  | badType ty rest hty _ ih =>
    intro rt hs
    obtain ⟨rt₁, hs₁, hact⟩ := feedBytes_badTypeFrame hs hty rest
    obtain ⟨a, ha, hin⟩ := ih hs₁
    exact ⟨a, by rw [hact]; exact ha, hin.mono (by simp; omega)⟩
  | oversize c lo hi rest hbig _ ih =>
    intro rt hs
    obtain ⟨rt₁, hs₁, hact⟩ := feedBytes_oversizeFrame hs c hbig rest
    obtain ⟨a, ha, hin⟩ := ih hs₁
    exact ⟨a, by rw [hact]; exact ha, hin.mono (by simp; omega)⟩
  | badCrc c lo hi crc payload rest hlen hle _ _ ih =>
    intro rt hs
    obtain ⟨rt₁, hs₁, hact⟩ := feedBytes_writeFrame hs c crc hlen hle rest
    obtain ⟨a, ha, hin⟩ := ih hs₁
    refine ⟨a, by rw [hact]; exact List.mem_cons_of_mem _ ha, hin.mono ?_⟩
    simp only [List.length_cons, List.length_append]
    omega

/-- A frame that ends inside its header is not executed. -/
theorem feedBytes_cutHeader {rt : Runtime cfg} (hs : rt.state = .sync) (c lo : UInt8) :
    (rt.feedBytes [syncByte]).2 = [] ∧ (rt.feedBytes [syncByte, 0x00]).2 = [] ∧
      (rt.feedBytes [syncByte, 0x01]).2 = [] ∧ (rt.feedBytes [syncByte, 0x01, c]).2 = [] ∧
      (rt.feedBytes [syncByte, 0x01, c, lo]).2 = [] := by
  have ht : ∀ ty : UInt8, ty = 0x00 ∨ ty = 0x01 → (rt.feedBytes [syncByte, ty]).2 = [] := by
    intro ty hty
    simp only [feedBytes, feedByte_sync_start hs,
      feedByte_type_ok (r := { rt with state := .type, startMs := 0 }) rfl hty, List.append_nil]
  obtain ⟨rt₁, hfeed₁, hst₁, -⟩ := feedBytes_writeHeader hs c
  refine ⟨?_, ht _ (Or.inl rfl), ht _ (Or.inr rfl), by rw [hfeed₁], ?_⟩
  · simp only [feedBytes, feedByte_sync_start hs, List.append_nil]
  · rw [show [syncByte, 0x01, c, lo] = [syncByte, 0x01, c] ++ [lo] from rfl, feedBytes_append,
      hfeed₁]
    simp only [feedBytes, feedByte_lengthLo hst₁, List.append_nil]

/-- Whatever is executed is a request in the bytes. The induction is on their
number, since a dropped frame is skipped as a whole. -/
theorem hasRequest_of_dispatch (n : Nat) :
    ∀ {bs : List UInt8} {r : Runtime cfg}, bs.length ≤ n → r.state = .sync →
      (∃ a ∈ (r.feedBytes bs).2, a.isDispatch = true) → HasRequest cfg.maxPayload bs := by
  induction n with
  | zero =>
    intro bs r hn _ h
    obtain ⟨a, ha, -⟩ := h
    rw [List.eq_nil_of_length_eq_zero (Nat.eq_zero_of_le_zero hn)] at ha
    exact absurd ha List.not_mem_nil
  | succ n ih =>
    intro bs r hn hs h
    obtain ⟨a, ha, hdisp⟩ := h
    rcases bs with _ | ⟨b, bs⟩
    · exact absurd ha List.not_mem_nil
    by_cases hb : b = syncByte
    case neg =>
      refine .idle b bs hb (ih (r := r) (by simpa using hn) hs ⟨a, ?_, hdisp⟩)
      simpa only [feedBytes, feedByte_sync_idle hs hb, List.nil_append] using ha
    subst hb
    have hcut := feedBytes_cutHeader hs
    rcases bs with _ | ⟨ty, bs⟩
    · rw [(hcut 0 0).1] at ha
      exact absurd ha List.not_mem_nil
    simp only [List.length_cons] at hn
    by_cases hty : ty = 0x00 ∨ ty = 0x01
    case neg =>
      obtain ⟨rt₁, hs₁, hact⟩ := feedBytes_badTypeFrame hs hty bs
      rw [hact] at ha
      exact .badType ty bs hty (ih (by omega) hs₁ ⟨a, ha, hdisp⟩)
    rcases hty with rfl | rfl
    · rcases bs with _ | ⟨c, bs⟩
      · rw [(hcut 0 0).2.1] at ha
        exact absurd ha List.not_mem_nil
      · exact .read c bs
    rcases bs with _ | ⟨c, _ | ⟨lo, _ | ⟨hi, bs⟩⟩⟩
    · rw [(hcut 0 0).2.2.1] at ha
      exact absurd ha List.not_mem_nil
    · rw [(hcut c 0).2.2.2.1] at ha
      exact absurd ha List.not_mem_nil
    · rw [(hcut c lo).2.2.2.2] at ha
      exact absurd ha List.not_mem_nil
    simp only [List.length_cons] at hn
    by_cases hbig : cfg.maxPayload < (u16OfLe lo hi).toNat
    · obtain ⟨rt₁, hs₁, hact⟩ := feedBytes_oversizeFrame hs c hbig bs
      rw [hact] at ha
      exact .oversize c lo hi bs hbig (ih (by omega) hs₁ ⟨a, ha, hdisp⟩)
    have hle : (u16OfLe lo hi).toNat ≤ cfg.maxPayload := Nat.not_lt.mp hbig
    by_cases hlong : bs.length ≤ (u16OfLe lo hi).toNat
    · -- the body is cut short: nothing can have been dispatched
      obtain ⟨rt₁, hfeed₁, hst₁, -⟩ := feedBytes_writeHeader hs c
      rw [show syncByte :: 0x01 :: c :: lo :: hi :: bs = [syncByte, 0x01, c] ++ lo :: hi :: bs
        from rfl, feedBytes_append, hfeed₁, feedBytes_cutBody hst₁ hle hlong] at ha
      exact absurd ha List.not_mem_nil
    have hsplit : bs = bs.take (u16OfLe lo hi).toNat
        ++ bs[(u16OfLe lo hi).toNat] :: bs.drop ((u16OfLe lo hi).toNat + 1) := by
      rw [List.getElem_cons_drop, List.take_append_drop]
    have hlen : (u16OfLe lo hi).toNat = (bs.take (u16OfLe lo hi).toNat).length := by
      rw [List.length_take]
      omega
    generalize bs.take (u16OfLe lo hi).toNat = payload at hsplit hlen
    generalize bs[(u16OfLe lo hi).toNat] = crc at hsplit
    generalize bs.drop ((u16OfLe lo hi).toNat + 1) = rest at hsplit
    subst hsplit
    by_cases hcrc : crc = crc8 payload
    · rw [hcrc]
      exact .write c lo hi payload rest hlen (hlen ▸ hle)
    · obtain ⟨rt₁, hs₁, hact⟩ := feedBytes_writeFrame hs c crc hlen (hlen ▸ hle) rest
      rw [hact, if_neg hcrc] at ha
      simp only [List.length_append, List.length_cons] at hn
      refine .badCrc c lo hi crc payload rest hlen (hlen ▸ hle) hcrc
        (ih (r := rt₁) (by omega) hs₁ ⟨a, ?_, hdisp⟩)
      rcases List.mem_cons.mp ha with rfl | hmem
      · exact absurd hdisp (by simp [Action.isDispatch])
      · exact hmem

/-- From SYNC, bytes cause a dispatch exactly if they hold a request. -/
theorem dispatches_iff_hasRequest {bs : List UInt8} {rt : Runtime cfg} (hs : rt.state = .sync) :
    (∃ a ∈ (rt.feedBytes bs).2, a.isDispatch = true) ↔ HasRequest cfg.maxPayload bs := by
  constructor
  · exact hasRequest_of_dispatch bs.length (Nat.le_refl _) hs
  · intro h
    obtain ⟨a, ha, hin⟩ := dispatch_of_hasRequest h hs
    refine ⟨a, ha, ?_⟩
    cases a with
    | dispatchRead c => rfl
    | dispatchWrite c payload => rfl
    | sendNack c => exact absurd hin id

end Runtime

/-! ## Which payloads stay data -/

/-- The only dispatch among the actions is that of the WRITE itself. -/
def OnlyDispatches (command : UInt8) (data : List UInt8) (actions : List Action) : Prop :=
  ∀ a ∈ actions, a.isDispatch = true → a = .dispatchWrite command data

/-- The payload fits the receive buffer and its length field; or its announced
length is too large and the payload with its CRC holds no request; or the announced
length, wrapped to `n`, is accepted, byte `n` is not the CRC of the `n` bytes before
it, and what follows holds no request. -/
def StaysData (maxPayload : Nat) (data : List UInt8) : Prop :=
  (data.length ≤ maxPayload ∧ data.length < 65536) ∨
  (maxPayload < data.length % 65536 ∧ ¬ HasRequest maxPayload (data ++ [crc8 data])) ∨
  (data.length % 65536 ≤ maxPayload ∧ 65536 ≤ data.length ∧
    data[data.length % 65536]? ≠ some (crc8 (data.take (data.length % 65536))) ∧
    ¬ HasRequest maxPayload (data.drop (data.length % 65536 + 1) ++ [crc8 data]))

namespace Runtime

variable {cfg : RuntimeConfig}

/-- A part of the frame no longer than `data` and one byte is read from SYNC: only
the WRITE is dispatched if and only if that part holds no request. A request in it
carries a payload shorter than `data`, so it cannot be the WRITE itself. -/
theorem onlyDispatches_rest {rt : Runtime cfg} (hs : rt.state = .sync) (c : UInt8)
    {data rest : List UInt8} (hlen : rest.length ≤ data.length + 1) :
    OnlyDispatches c data (rt.feedBytes rest).2 ↔ ¬ HasRequest cfg.maxPayload rest := by
  constructor
  · intro honly hreq
    obtain ⟨a, ha, hin⟩ := dispatch_of_hasRequest hreq hs
    cases a with
    | dispatchRead c' => exact absurd (honly _ ha rfl) (by simp)
    | dispatchWrite c' payload =>
      have heq := honly _ ha rfl
      simp only [Action.dispatchWrite.injEq] at heq
      rw [heq.2] at hin
      simp only [Action.Within] at hin
      omega
    | sendNack c' => exact hin
  · intro hno a ha hdisp
    exact absurd ((dispatches_iff_hasRequest hs).mp ⟨a, ha, hdisp⟩) hno

theorem onlyDispatches_cons {c : UInt8} {data : List UInt8} {a : Action} {as : List Action} :
    OnlyDispatches c data (a :: as) ↔
      (a.isDispatch = true → a = .dispatchWrite c data) ∧ OnlyDispatches c data as := by
  simp only [OnlyDispatches, List.forall_mem_cons]

/-- An announced length above the buffer: the whole payload is read from SYNC. -/
theorem feedBytes_announcedBig_iff {rt : Runtime cfg} (hs : rt.state = .sync) (c : UInt8)
    {data : List UInt8} (hbig : cfg.maxPayload < data.length % 65536) :
    OnlyDispatches c data (rt.feedBytes (buildWriteFrame c data)).2
      ↔ ¬ HasRequest cfg.maxPayload (data ++ [crc8 data]) := by
  have hn : cfg.maxPayload < (u16OfLe (loByte (lenU16 data)) (hiByte (lenU16 data))).toNat := by
    rw [u16OfLe_lenU16, lenU16_toNat]
    exact hbig
  obtain ⟨rt', hs', hact⟩ := feedBytes_oversizeFrame hs c hn (data ++ [crc8 data])
  rw [show buildWriteFrame c data = syncByte :: 0x01 :: c :: loByte (lenU16 data)
      :: hiByte (lenU16 data) :: (data ++ [crc8 data]) from rfl, hact]
  exact onlyDispatches_rest hs' c (by simp)

/-- A length that wrapped: the first `n` bytes are the payload, byte `n` is taken for
the CRC and the bytes after it are read from SYNC. -/
theorem feedBytes_wrapped_iff {rt : Runtime cfg} (hs : rt.state = .sync) (c : UInt8)
    {data : List UInt8} (hle : data.length % 65536 ≤ cfg.maxPayload)
    (hlong : 65536 ≤ data.length) :
    OnlyDispatches c data (rt.feedBytes (buildWriteFrame c data)).2
      ↔ data[data.length % 65536]? ≠ some (crc8 (data.take (data.length % 65536))) ∧
        ¬ HasRequest cfg.maxPayload (data.drop (data.length % 65536 + 1) ++ [crc8 data]) := by
  have hlt : data.length % 65536 < data.length := by omega
  have htake : (data.take (data.length % 65536)).length = data.length % 65536 := by
    rw [List.length_take]
    omega
  have hbytes : data ++ [crc8 data] = data.take (data.length % 65536)
      ++ data[data.length % 65536] :: (data.drop (data.length % 65536 + 1) ++ [crc8 data]) := by
    rw [← List.cons_append, List.getElem_cons_drop, ← List.append_assoc, List.take_append_drop]
  have hn : (u16OfLe (loByte (lenU16 data)) (hiByte (lenU16 data))).toNat
      = (data.take (data.length % 65536)).length := by
    rw [u16OfLe_lenU16, lenU16_toNat, htake]
  obtain ⟨rt', hs', hact⟩ := feedBytes_writeFrame hs c data[data.length % 65536] hn
    (by rw [htake]; exact hle)
    (data.drop (data.length % 65536 + 1) ++ [crc8 data])
  rw [show buildWriteFrame c data = syncByte :: 0x01 :: c :: loByte (lenU16 data)
      :: hiByte (lenU16 data) :: (data ++ [crc8 data]) from rfl, hbytes, hact,
    onlyDispatches_cons, onlyDispatches_rest hs' c (by simp), List.getElem?_eq_getElem hlt]
  apply and_congr_left'
  -- the shortened payload is not `data`, so a matching CRC byte breaks the property
  have hne : Action.dispatchWrite c (data.take (data.length % 65536)) ≠ .dispatchWrite c data := by
    intro heq
    simp only [Action.dispatchWrite.injEq, true_and] at heq
    rw [heq] at htake
    omega
  by_cases hcrc : data[data.length % 65536] = crc8 (data.take (data.length % 65536))
  · rw [if_pos hcrc]
    exact iff_of_false (fun h => hne (h rfl)) (fun h => h (by rw [hcrc]))
  · rw [if_neg hcrc]
    exact iff_of_true (fun h => absurd h (by simp [Action.isDispatch]))
      (fun h => hcrc (Option.some.inj h))

/-- The three cases together. -/
theorem feedBytes_writeFrame_iff {rt : Runtime cfg} (hs : rt.state = .sync) (c : UInt8)
    (data : List UInt8) :
    OnlyDispatches c data (rt.feedBytes (buildWriteFrame c data)).2
      ↔ StaysData cfg.maxPayload data := by
  unfold StaysData
  by_cases hfit : data.length ≤ cfg.maxPayload ∧ data.length < 65536
  · obtain ⟨rt', hfeed, -⟩ := feedBytes_buildWriteFrame hs c hfit.1 hfit.2
    rw [hfeed]
    refine iff_of_true ?_ (Or.inl hfit)
    simp [OnlyDispatches]
  by_cases hbig : cfg.maxPayload < data.length % 65536
  · rw [feedBytes_announcedBig_iff hs c hbig]
    constructor
    · intro hno
      exact Or.inr (Or.inl ⟨hbig, hno⟩)
    · rintro (h | h | h)
      · exact absurd h hfit
      · exact h.2
      · omega
  · have hlong : 65536 ≤ data.length := by omega
    rw [feedBytes_wrapped_iff hs c (Nat.not_lt.mp hbig) hlong]
    constructor
    · intro h
      exact Or.inr (Or.inr ⟨Nat.not_lt.mp hbig, hlong, h⟩)
    · rintro (h | h | h)
      · exact absurd h hfit
      · exact absurd h.1 hbig
      · exact h.2.2

/-- **When payload bytes stay data.** The frame of a `write` or a `query`, fed to a
runtime in SYNC with any ticks inside the frame timeout, causes no dispatch but its
own exactly if the payload `StaysData`. -/
theorem run_write_frame_iff {rt : Runtime cfg} {c : UInt8} {data : List UInt8}
    {msg : QueuedMessage} {inputs : List Input} (hs : rt.state = .sync)
    (hmsg : msg = Client.write c data ∨ msg = Client.query c data)
    (hbytes : inputs.filterMap Input.byte? = msg.frame) (htime : rt.InTime inputs) :
    OnlyDispatches c data (rt.run inputs).2 ↔ StaysData cfg.maxPayload data := by
  have hframe : msg.frame = buildWriteFrame c data := by
    rcases hmsg with h | h
    · rw [h]; rfl
    · rw [h]; rfl
  rw [(run_inTime htime).1, hbytes, hframe]
  exact feedBytes_writeFrame_iff hs c data

/-- The hypotheses are met: a payload of two bytes with a sync byte in it, sent to a
device with a four-byte buffer, stays data. -/
theorem run_write_frame_iff_short :
    OnlyDispatches 0x01 [0x55, 0x09]
      ((init ⟨4, 10⟩ 0).run ((Client.write 0x01 [0x55, 0x09]).frame.map (Input.byte 0))).2 :=
  (@run_write_frame_iff _ _ _ _ (Client.write 0x01 [0x55, 0x09]) _ rfl (Or.inl rfl)
    (by decide +kernel) (by decide +kernel)).mpr (Or.inl (by decide))

/-- One byte too many for the device's buffer: the header is dropped, and the READ
spelled by the payload's first three bytes is executed. -/
theorem run_write_frame_executes :
    ((init ⟨4, 10⟩ 0).run
        ((Client.write 0x01 [0x55, 0x00, 0x07, 0x00, 0x00]).frame.map (Input.byte 0))).2
        = [.dispatchRead 0x07] ∧
      ¬ OnlyDispatches 0x01 [0x55, 0x00, 0x07, 0x00, 0x00] [.dispatchRead 0x07] := by
  refine ⟨by decide +kernel, ?_⟩
  intro h
  exact absurd (h _ (List.mem_cons_self ..) rfl) (by simp)

end Runtime

end ProtoEmb.Device
