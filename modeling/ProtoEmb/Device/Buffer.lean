import ProtoEmb.Device.Receive

/-!
# The receive buffer

Whatever is called, in any order, the runtime of `protocol_runtime.c.j2` keeps to its buffer. The
invariant is `Receiving`: from the command byte on the frame is a READ or a WRITE; while there are
payload bytes to come, the index is below the length, and that is at most `RUNTIME_MAX_PAYLOAD`;
at the CRC byte the two are equal. What has been collected is what was received last. The type is
kept, so `state` cannot be anything else; `Object` is the C struct without these bounds, where
`state` is a number and the array ends where it ends. Nothing that happens to it is undefined, and
neither of the two branches is taken that are there in case (`buffer_safe`).
-/

namespace ProtoEmb.Device

open ProtoEmb.Lib ProtoEmb.Framing

/-- The calls of an application. `init` may come at any time. -/
inductive Call where
  | init (now : UInt32)
  | feedByte (now : UInt32) (b : UInt8)
  | tick (now : UInt32)
  deriving DecidableEq, Repr

/-- The bytes of a run. -/
def Call.bytes (calls : List Call) : List UInt8 :=
  calls.filterMap fun
    | .feedByte _ b => some b
    | .init _ | .tick _ => none

namespace Runtime

variable {cfg : RuntimeConfig}

def call (rt : Runtime cfg) : Call → Runtime cfg
  | .init now => init cfg now
  | .feedByte now b => (rt.feedByte now b).1
  | .tick now => rt.tick now

/-! ## The invariant -/

/-- The command byte is expected, or has been read. -/
def pastType : RuntimeState → Bool
  | .command | .lengthLo | .lengthHi | .data | .crc => true
  | .sync | .type => false

/-- What holds of a runtime that has received these bytes. -/
structure Receiving (history : List UInt8) (rt : Runtime cfg) : Prop where
  type : pastType rt.state = true → rt.frameType = 0x00 ∨ rt.frameType = 0x01
  data : rt.state = .data → rt.payloadIndex.toNat < rt.payloadLength.toNat ∧
    rt.payloadLength.toNat ≤ cfg.maxPayload
  crc : rt.state = .crc → rt.payloadIndex = rt.payloadLength ∧
    rt.payloadLength.toNat ≤ cfg.maxPayload
  collected : rt.state = .data ∨ rt.state = .crc → rt.collected <:+ history

variable {history : List UInt8} {rt : Runtime cfg}

/-- Outside of a frame nothing is to be shown. -/
theorem receiving_of_sync (hs : rt.state = .sync) : rt.Receiving history :=
  ⟨fun h => by simp [hs, pastType] at h, fun h => by simp [hs] at h, fun h => by simp [hs] at h,
    fun h => by simp [hs] at h⟩

/-- Between the type and the length only the type counts. -/
theorem receiving_of_header (hs : rt.state = .command ∨ rt.state = .lengthLo ∨ rt.state = .lengthHi)
    (ht : rt.frameType = 0x00 ∨ rt.frameType = 0x01) : rt.Receiving history := by
  refine ⟨fun _ => ht, fun h => ?_, fun h => ?_, fun h => ?_⟩
  all_goals rcases hs with hs | hs | hs <;> simp [hs] at h

theorem Receiving.index_succ (h : rt.Receiving history) (hs : rt.state = .data) :
    (rt.payloadIndex + 1).toNat = rt.payloadIndex.toNat + 1 := by
  have hlt := (h.data hs).1
  have hmax : rt.payloadLength.toNat < 65536 := rt.payloadLength.toNat_lt
  rw [UInt16.toNat_add, UInt16.toNat_one]
  omega

/-- **The step lemma**: a byte. -/
theorem Receiving.feedByte (h : rt.Receiving history) (now : UInt32) (b : UInt8) :
    (rt.feedByte now b).1.Receiving (history ++ [b]) := by
  cases hs : rt.state with
  | sync =>
    by_cases hb : b = syncByte
    · rw [hb, feedByte_sync_start hs]
      exact ⟨fun h => by simp [pastType] at h, fun h => by simp at h, fun h => by simp at h,
        fun h => by simp at h⟩
    · rw [feedByte_sync_idle hs hb]
      exact receiving_of_sync hs
  | type =>
    by_cases hb : b = 0x00 ∨ b = 0x01
    · rw [feedByte_type_ok hs hb]
      exact receiving_of_header (Or.inl rfl) hb
    · rw [feedByte_type_bad hs hb]
      exact receiving_of_sync rfl
  | command =>
    have ht := h.type (by rw [hs]; rfl)
    by_cases hread : rt.frameType = 0x00
    · rw [feedByte_command_read hs hread]
      exact receiving_of_sync rfl
    · rw [feedByte_command_write hs hread]
      exact receiving_of_header (Or.inr (Or.inl rfl)) ht
  | lengthLo =>
    have ht := h.type (by rw [hs]; rfl)
    rw [feedByte_lengthLo hs]
    exact receiving_of_header (Or.inr (Or.inr rfl)) ht
  | lengthHi =>
    have ht := h.type (by rw [hs]; rfl)
    -- nothing is collected yet
    have hnil : ∀ r : Runtime cfg, r.payloadIndex = 0 → r.collected <:+ history ++ [b] := by
      intro r hr
      rw [Runtime.collected, hr]
      exact List.nil_suffix
    simp only [Runtime.feedByte, hs]
    split
    next => exact receiving_of_sync rfl
    next hle =>
      split
      next hzero =>
        exact ⟨fun _ => ht, fun h => by simp at h, fun _ => ⟨hzero.symm, Nat.not_lt.mp hle⟩,
          fun _ => hnil _ rfl⟩
      next hne =>
        refine ⟨fun _ => ht, fun _ => ⟨?_, Nat.not_lt.mp hle⟩, fun h => by simp at h,
          fun _ => hnil _ rfl⟩
        show (0 : UInt16).toNat < _
        rw [UInt16.toNat_zero]
        exact Nat.pos_of_ne_zero fun h0 => hne (UInt16.toNat_inj.mp h0)
  | data =>
    have ht := h.type (by rw [hs]; rfl)
    obtain ⟨hlt, hmax⟩ := h.data hs
    have hsucc := h.index_succ hs
    have hin : rt.payloadIndex.toNat < cfg.maxPayload := by omega
    -- the byte goes behind what is collected
    have hcol := collected_set rt b hin
    have hsuffix : rt.collected ++ [b] <:+ history ++ [b] := by
      obtain ⟨pre, hpre⟩ := h.collected (Or.inl hs)
      exact ⟨pre, by rw [← List.append_assoc, hpre]⟩
    rw [feedByte_data hs hin]
    have hsuffix' : ∀ st, Runtime.collected { rt with
        payload := rt.payload.set rt.payloadIndex.toNat b hin, payloadIndex := rt.payloadIndex + 1,
        state := st } <:+ history ++ [b] := by
      intro st
      rw [Runtime.collected, hsucc, hcol]
      exact hsuffix
    by_cases hlast : rt.payloadIndex + 1 ≥ rt.payloadLength
    · simp only [if_pos hlast]
      refine ⟨fun _ => ht, fun h => by simp at h, fun _ => ⟨?_, hmax⟩, fun _ => hsuffix' .crc⟩
      rw [ge_iff_le, UInt16.le_iff_toNat_le, hsucc] at hlast
      apply UInt16.toNat_inj.mp
      show (rt.payloadIndex + 1).toNat = rt.payloadLength.toNat
      omega
    · simp only [if_neg hlast]
      refine ⟨fun _ => ht, fun _ => ⟨?_, hmax⟩, fun h => by simp at h, fun _ => hsuffix' .data⟩
      rw [ge_iff_le, UInt16.le_iff_toNat_le, hsucc] at hlast
      show (rt.payloadIndex + 1).toNat < rt.payloadLength.toNat
      omega
  | crc =>
    rw [feedByte_crc hs (h.crc hs).2]
    exact receiving_of_sync rfl

theorem Receiving.call (h : rt.Receiving history) (c : Call) :
    (rt.call c).Receiving (history ++ Call.bytes [c]) := by
  cases c with
  | init now => exact receiving_of_sync rfl
  | feedByte now b => exact h.feedByte now b
  | tick now =>
    rw [show history ++ Call.bytes [.tick now] = history from List.append_nil history]
    show (rt.tick now).Receiving history
    unfold tick
    split
    · exact h
    · split
      · exact receiving_of_sync rfl
      · exact h

/-- **The run lemma.** -/
theorem Receiving.calls (calls : List Call) :
    ∀ {history : List UInt8} {rt : Runtime cfg}, rt.Receiving history →
      (calls.foldl Runtime.call rt).Receiving (history ++ Call.bytes calls) := by
  induction calls with
  | nil =>
    intro history rt h
    rw [show Call.bytes [] = [] from rfl, List.append_nil]
    exact h
  | cons c calls ih =>
    intro history rt h
    have hsplit : Call.bytes (c :: calls) = Call.bytes [c] ++ Call.bytes calls := by
      rw [show c :: calls = [c] ++ calls from rfl, Call.bytes, List.filterMap_append]
      rfl
    rw [List.foldl_cons, hsplit, ← List.append_assoc]
    exact ih (h.call c)

end Runtime

/-! ## The C struct -/

/-- `Runtime_t` without its bounds. `state` holds the number of an enumerator, and `payload`
has its bytes and nothing behind them. -/
structure Object where
  state : Nat
  startMs : UInt32
  frameType : UInt8
  command : UInt8
  payloadLength : UInt16
  payloadIndex : UInt16
  payload : List UInt8
  deriving DecidableEq, Repr

/-- The numbers of `RuntimeState_E`. -/
def RuntimeState.code : RuntimeState → Nat
  | sync => 0
  | type => 1
  | command => 2
  | lengthLo => 3
  | lengthHi => 4
  | data => 5
  | crc => 6

namespace Object

/-- `Runtime_reset`. -/
def reset (o : Object) : Object :=
  { o with state := RuntimeState.sync.code, payloadLength := 0, payloadIndex := 0 }

/-- `Runtime_crc8`; a read behind the array is undefined. -/
def crc8 (payload : List UInt8) (len : Nat) : Option UInt8 :=
  (List.range len).foldlM (fun crc i => (payload[i]?).map (crcByte 0x8C crc)) 0

/-- The bytes that `dispatchWrite` may read. -/
def argument (payload : List UInt8) (len : Nat) : Option (List UInt8) :=
  if len ≤ payload.length then some (payload.take len) else none

/-- `Runtime_feedByte`. Besides the actions it says whether one of the defensive branches was
taken: the `else` of DATA, or the `default` of the `switch`. -/
def feedByte (cfg : RuntimeConfig) (o : Object) (now : UInt32) (byte : UInt8) :
    Option (Object × List Action × Bool) :=
  match o.state with
  | 0 =>
    if byte = syncByte then
      some ({ o with state := RuntimeState.type.code, startMs := now }, [], false)
    else some (o, [], false)
  | 1 =>
    if byte = 0x00 ∨ byte = 0x01 then
      some ({ o with frameType := byte, state := RuntimeState.command.code }, [], false)
    else some (reset { o with frameType := byte }, [], false)
  | 2 =>
    if o.frameType = 0x00 then some (reset { o with command := byte }, [.dispatchRead byte], false)
    else some ({ o with command := byte, state := RuntimeState.lengthLo.code }, [], false)
  | 3 =>
    some ({ o with payloadLength := byte.toUInt16, state := RuntimeState.lengthHi.code }, [], false)
  | 4 =>
    let len := o.payloadLength ||| (byte.toUInt16 <<< 8)
    if len.toNat > cfg.maxPayload then
      some (reset { o with payloadLength := len, payloadIndex := 0 }, [], false)
    else if len = 0 then
      some ({ o with payloadLength := len, payloadIndex := 0, state := RuntimeState.crc.code }, [],
        false)
    else
      some ({ o with payloadLength := len, payloadIndex := 0, state := RuntimeState.data.code }, [],
        false)
  | 5 =>
    if o.payloadIndex.toNat < cfg.maxPayload then
      -- the write is undefined behind the array
      if o.payloadIndex.toNat < o.payload.length then
        let index := o.payloadIndex + 1
        some ({ o with payload := o.payload.set o.payloadIndex.toNat byte, payloadIndex := index,
                       state := if index ≥ o.payloadLength then RuntimeState.crc.code
                         else RuntimeState.data.code }, [], false)
      else none
    else some (reset o, [], true)
  | 6 => do
    let crc ← crc8 o.payload o.payloadLength.toNat
    if crc = byte then do
      let payload ← argument o.payload o.payloadLength.toNat
      return (reset o, [.dispatchWrite o.command payload], false)
    else return (reset o, [.sendNack o.command], false)
  | _ => some (reset o, [], true)

def tick (cfg : RuntimeConfig) (o : Object) (now : UInt32) : Object :=
  if o.state = RuntimeState.sync.code then o
  else if now - o.startMs > cfg.timeoutMs then reset o
  else o

/-- The C struct of a runtime. -/
def ofRuntime {cfg : RuntimeConfig} (rt : Runtime cfg) : Object :=
  { state := rt.state.code, startMs := rt.startMs, frameType := rt.frameType,
    command := rt.command, payloadLength := rt.payloadLength, payloadIndex := rt.payloadIndex,
    payload := rt.payload.toList }

/-- A call, with what it does to the outside. `init` overwrites the whole struct. -/
def call (cfg : RuntimeConfig) (o : Object) : Call → Option (Object × List Action × Bool)
  | .init now => some (ofRuntime (Runtime.init cfg now), [], false)
  | .feedByte now b => o.feedByte cfg now b
  | .tick now => some (o.tick cfg now, [], false)

/-- The calls of a run; `none` if one of them is undefined. The flag says whether a defensive
branch was taken. -/
def run (cfg : RuntimeConfig) (o : Object) : List Call → Option (Object × List Action × Bool)
  | [] => some (o, [], false)
  | c :: calls => do
    let (o, actions, defensive) ← o.call cfg c
    let (o, more, defensive') ← run cfg o calls
    return (o, actions ++ more, defensive || defensive')

variable {cfg : RuntimeConfig} {rt : Runtime cfg} {history : List UInt8}

theorem crc8_eq (payload : List UInt8) (len : Nat) (h : len ≤ payload.length) :
    crc8 payload len = some (runtimeCrc8 payload len) := by
  have hloop : ∀ (is : List Nat) (crc : UInt8), (∀ i ∈ is, i < payload.length) →
      is.foldlM (fun crc i => (payload[i]?).map (crcByte 0x8C crc)) crc
        = some (is.foldl (fun crc i => crcByte 0x8C crc (payload.getD i 0)) crc) := by
    intro is
    induction is with
    | nil => intro crc _; rfl
    | cons i is ih =>
      intro crc hin
      have hi := hin i (List.mem_cons_self ..)
      rw [List.foldlM_cons, List.foldl_cons, List.getElem?_eq_getElem hi, Option.map_some,
        Option.bind_eq_bind, Option.bind_some, ih _ fun j hj => hin j (List.mem_cons_of_mem _ hj),
        List.getD_eq_getElem _ _ hi]
  exact hloop _ 0 fun i hi => Nat.lt_of_lt_of_le (List.mem_range.mp hi) h

/-- **The step lemma**: a byte fed to the struct is defined, takes no defensive branch, and is
the step of the runtime. -/
theorem feedByte_eq (h : rt.Receiving history) (now : UInt32) (b : UInt8) :
    (ofRuntime rt).feedByte cfg now b
      = some (ofRuntime (rt.feedByte now b).1, (rt.feedByte now b).2, false) := by
  have hlen : rt.payload.toList.length = cfg.maxPayload := Vector.length_toList
  cases hs : rt.state with
  | sync =>
    simp only [feedByte, ofRuntime, Runtime.feedByte, hs, RuntimeState.code]
    split <;> simp [hs]
  | type =>
    simp only [feedByte, ofRuntime, Runtime.feedByte, hs, RuntimeState.code]
    split <;> simp [reset, Runtime.reset, RuntimeState.code]
  | command =>
    simp only [feedByte, ofRuntime, Runtime.feedByte, hs, RuntimeState.code]
    split <;> simp [reset, Runtime.reset, RuntimeState.code]
  | lengthLo =>
    simp only [feedByte, ofRuntime, Runtime.feedByte, hs, RuntimeState.code]
  | lengthHi =>
    simp only [feedByte, ofRuntime, Runtime.feedByte, hs, RuntimeState.code]
    split_ifs <;> simp [reset, Runtime.reset, RuntimeState.code]
  | data =>
    obtain ⟨hlt, hmax⟩ := h.data hs
    have hin : rt.payloadIndex.toNat < cfg.maxPayload := by omega
    rw [Runtime.feedByte_data hs hin]
    simp only [feedByte, ofRuntime, hs, RuntimeState.code, if_pos hin, hlen, Vector.toList_set]
    split <;> rfl
  | crc =>
    have hmax := (h.crc hs).2
    have hcrc := crc8_eq rt.payload.toList rt.payloadLength.toNat (by rw [hlen]; exact hmax)
    simp only [feedByte, ofRuntime, Runtime.feedByte, hs, RuntimeState.code, hcrc,
      Option.bind_eq_bind, Option.bind_some]
    split
    · rw [argument, if_pos (by rw [hlen]; exact hmax)]
      rfl
    · rfl

theorem call_eq (h : rt.Receiving history) (c : Call) :
    ∃ actions, (ofRuntime rt).call cfg c = some (ofRuntime (rt.call c), actions, false) := by
  cases c with
  | init now => exact ⟨[], rfl⟩
  | feedByte now b => exact ⟨_, feedByte_eq h now b⟩
  | tick now =>
    refine ⟨[], ?_⟩
    have hsync : (ofRuntime rt).state = RuntimeState.sync.code ↔ rt.state = .sync := by
      show rt.state.code = _ ↔ _
      cases rt.state <;> simp [RuntimeState.code]
    have hsame : (ofRuntime rt).tick cfg now = ofRuntime (rt.tick now) := by
      unfold tick Runtime.tick
      by_cases hs : rt.state = .sync
      · rw [if_pos hs, if_pos (hsync.mpr hs)]
      · rw [if_neg hs, if_neg fun h => hs (hsync.mp h)]
        show (if now - rt.startMs > cfg.timeoutMs then _ else _) = _
        split <;> rfl
    show some ((ofRuntime rt).tick cfg now, [], false) = some (ofRuntime (rt.tick now), [], false)
    rw [hsame]

/-- **The run lemma.** -/
theorem run_eq (calls : List Call) :
    ∀ {history : List UInt8} {rt : Runtime cfg}, rt.Receiving history →
      ∃ actions, (ofRuntime rt).run cfg calls
        = some (ofRuntime (calls.foldl Runtime.call rt), actions, false) := by
  induction calls with
  | nil => intro history rt _; exact ⟨[], rfl⟩
  | cons c calls ih =>
    intro history rt h
    obtain ⟨actions, hcall⟩ := call_eq h c
    obtain ⟨more, hrest⟩ := ih (h.call c)
    refine ⟨actions ++ more, ?_⟩
    simp only [run, hcall, Option.bind_eq_bind, Option.bind_some, hrest, List.foldl_cons]
    rfl

end Object

/-- **The receive buffer.** After any calls: the frame is a READ or a WRITE once the command is
expected; in DATA the index is below the length and can be counted up, in CRC it is the length,
both within the buffer, and the payload is what was received last. Nothing in the C code is
undefined on the way, and the defensive branches are not taken. -/
theorem buffer_safe (cfg : RuntimeConfig) (start : UInt32) (calls : List Call) :
    let rt := calls.foldl Runtime.call (Runtime.init cfg start)
    let history := Call.bytes calls
    (Runtime.pastType rt.state = true → rt.frameType = 0x00 ∨ rt.frameType = 0x01) ∧
      (rt.state = .data → rt.payloadIndex.toNat < rt.payloadLength.toNat ∧
        rt.payloadLength.toNat ≤ cfg.maxPayload ∧
        (rt.payloadIndex + 1).toNat = rt.payloadIndex.toNat + 1) ∧
      (rt.state = .crc → rt.payloadIndex = rt.payloadLength ∧
        rt.payloadLength.toNat ≤ cfg.maxPayload ∧ rt.received.length = rt.payloadLength.toNat ∧
        rt.received = history.drop (history.length - rt.payloadLength.toNat)) ∧
      ∃ actions, (Object.ofRuntime (Runtime.init cfg start)).run cfg calls
        = some (Object.ofRuntime rt, actions, false) := by
  have hinit : (Runtime.init cfg start).Receiving [] := Runtime.receiving_of_sync rfl
  have h := Runtime.Receiving.calls calls hinit
  rw [List.nil_append] at h
  refine ⟨h.type, fun hs => ⟨(h.data hs).1, (h.data hs).2, h.index_succ hs⟩, fun hs => ?_,
    Object.run_eq calls hinit⟩
  obtain ⟨heq, hmax⟩ := h.crc hs
  have hcol := h.collected (Or.inr hs)
  rw [Runtime.collected, heq] at hcol
  have hlen : (Runtime.received (calls.foldl Runtime.call (Runtime.init cfg start))).length
      = (calls.foldl Runtime.call (Runtime.init cfg start)).payloadLength.toNat := by
    rw [Runtime.received, List.length_take, Vector.length_toList]
    omega
  refine ⟨heq, hmax, hlen, ?_⟩
  have hdrop := List.suffix_iff_eq_drop.mp hcol
  rw [show (List.take _ _).length = _ from hlen] at hdrop
  exact hdrop

end ProtoEmb.Device
