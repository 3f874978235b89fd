import Mathlib.Logic.Function.Basic
import ProtoEmb.Lib.Ring

/-!
# Ring-buffer storage of responses

`storage.rs`: a ring buffer of payloads per command. A panic (an index outside the
vector, a `usize` below zero, the assertion of `RingBuffer::new`) is `none`; the counters
are natural numbers. No line of the file looks into a payload, so the entries are of any
type with an empty value; the client's are `Payload`s.

What a store means is said by `Log`: the entries since a command was registered or
cleared, and how many of them are kept. `DataStore.Mirrors` relates the two; every
operation keeps it, and the readers return parts of the log (`readAll_eq`,
`readSince_eq`).
-/

namespace ProtoEmb.Client

open ProtoEmb.Lib

abbrev Payload := List UInt8

variable {α : Type}

/-- `a - b` on `usize`. -/
def usizeSub (a b : Nat) : Option Nat := if b ≤ a then some (a - b) else none

/-- `RingBuffer`: `head` is the slot written next, `seq` counts the pushes. -/
structure RingBuffer (α : Type) where
  buf : List α
  head : Nat
  len : Nat
  capacity : Nat
  seq : Nat
  deriving DecidableEq, Repr

namespace RingBuffer

/-- `RingBuffer::new`, which asserts that there is room for one entry. -/
def new [Inhabited α] (capacity : Nat) : Option (RingBuffer α) :=
  if 0 < capacity then
    some { buf := List.replicate capacity default, head := 0, len := 0, capacity, seq := 0 }
  else none

/-- The slot at `head` is overwritten and the head moves on around the ring. -/
def push (rb : RingBuffer α) (payload : α) : Option (RingBuffer α) :=
  if rb.head < rb.buf.length then
    some { rb with buf := rb.buf.set rb.head payload, head := (rb.head + 1) % rb.capacity
                   len := if rb.len < rb.capacity then rb.len + 1 else rb.len
                   seq := rb.seq + 1 }
  else none

/-- Oldest first. -/
def readAll (rb : RingBuffer α) : Option (List α) :=
  let start := if rb.len < rb.capacity then 0 else rb.head
  (List.range rb.len).mapM fun i => (some ((start + i) % rb.capacity)).bind fun j => rb.buf[j]?

/-- The slot of entry `i` among the last `count`. -/
def sinceIndex (rb : RingBuffer α) (count i : Nat) : Option Nat := do
  let back ← usizeSub count i
  if rb.head ≥ back then usizeSub rb.head back
  else do
    let past ← usizeSub back rb.head
    usizeSub rb.capacity past

/-- The entries since a sequence number, and the current one. -/
def readSince (rb : RingBuffer α) (sinceSeq : Nat) : Option (List α × Nat) :=
  if rb.len = 0 ∨ sinceSeq ≥ rb.seq then some ([], rb.seq)
  else do
    let count := min (rb.seq - sinceSeq) rb.len
    let entries ← (List.range count).mapM fun i =>
      (rb.sinceIndex count i).bind fun j => rb.buf[j]?
    return (entries, rb.seq)

/-- `clear` empties the slots and restarts the count. -/
def clear [Inhabited α] (rb : RingBuffer α) : RingBuffer α :=
  { rb with head := 0, len := 0, seq := 0, buf := rb.buf.map fun _ => default }

/-! ## The log of a ring buffer -/

/-- The buffer has been pushed the log since it was created or cleared. -/
structure Logs (rb : RingBuffer α) (log : List α) : Prop where
  ring : RingHolds rb.capacity rb.buf log
  head_eq : rb.head = log.length % rb.capacity
  len_eq : rb.len = min log.length rb.capacity
  seq_eq : rb.seq = log.length

variable {rb : RingBuffer α} {log : List α}

/-- A new buffer has logged nothing. -/
theorem logs_new [Inhabited α] {capacity : Nat} (h : new capacity = some rb) :
    rb.capacity = capacity ∧ rb.Logs [] := by
  unfold new at h
  split at h
  next hpos =>
    cases h
    exact ⟨rfl, ⟨hpos, List.length_replicate, fun i _ hi => absurd hi (Nat.not_lt_zero i)⟩,
      (Nat.zero_mod capacity).symm, (Nat.zero_min capacity).symm, rfl⟩
  next => cases h

/-- A push never panics on a buffer that logs, and appends to the log. -/
theorem logs_push (h : rb.Logs log) (payload : α) :
    ∃ rb', rb.push payload = some rb' ∧ rb'.capacity = rb.capacity ∧
      rb'.Logs (log ++ [payload]) := by
  have hpos := h.ring.cap_pos
  have hhead : rb.head < rb.buf.length := by
    rw [h.ring.length_eq, h.head_eq]
    exact Nat.mod_lt _ hpos
  refine ⟨_, if_pos hhead, rfl, ?_, ?_, ?_, ?_⟩
  · show RingHolds rb.capacity (rb.buf.set rb.head payload) (log ++ [payload])
    rw [h.head_eq]
    exact h.ring.push payload
  · show (rb.head + 1) % rb.capacity = (log ++ [payload]).length % rb.capacity
    rw [h.head_eq, List.length_append, List.length_singleton, Nat.mod_add_mod]
  · show (if rb.len < rb.capacity then rb.len + 1 else rb.len)
      = min (log ++ [payload]).length rb.capacity
    rw [h.len_eq, List.length_append, List.length_singleton]
    split <;> omega
  · show rb.seq + 1 = _
    rw [h.seq_eq, List.length_append, List.length_singleton]

/-- A cleared buffer has logged nothing. -/
theorem logs_clear [Inhabited α] (h : rb.Logs log) : rb.clear.Logs [] :=
  ⟨⟨h.ring.cap_pos, by rw [clear, List.length_map, h.ring.length_eq],
    fun i _ hi => absurd hi (Nat.not_lt_zero i)⟩, (Nat.zero_mod _).symm, (Nat.zero_min _).symm, rfl⟩

/-- **All that is kept**, oldest first. -/
theorem readAll_eq (h : rb.Logs log) : rb.readAll = some (log.drop (log.length - rb.len)) := by
  have hlen := h.len_eq
  have hpos := h.ring.cap_pos
  refine h.ring.read (by omega) (by omega) fun i hi => ?_
  congr 1
  split
  next hpart =>
    have hall : log.length - rb.len = 0 := by omega
    rw [hall]
  next hfull =>
    -- a full ring starts with the entry of one turn ago
    have hturn : log.length + i = log.length - rb.len + i + rb.capacity := by omega
    rw [h.head_eq, Nat.mod_add_mod, hturn, Nat.add_mod_right]

/-- The slots of the last `count` entries. -/
theorem sinceIndex_eq (h : rb.Logs log) {count i : Nat} (hcount : count ≤ rb.len)
    (hi : i < count) : rb.sinceIndex count i = some ((log.length - count + i) % rb.capacity) := by
  have hlen := h.len_eq
  have hpos := h.ring.cap_pos
  have hhead := h.head_eq
  have hlt : rb.head < rb.capacity := by rw [hhead]; exact Nat.mod_lt _ hpos
  -- the log is some whole turns and the slots up to the head
  obtain ⟨turns, hturns⟩ : ∃ turns, rb.capacity * turns + rb.head = log.length :=
    ⟨log.length / rb.capacity, by rw [hhead, Nat.div_add_mod]⟩
  have hback : usizeSub count i = some (count - i) := if_pos (by omega)
  unfold sinceIndex
  rw [hback, Option.bind_eq_bind, Option.bind_some]
  clear hhead
  by_cases hge : rb.head ≥ count - i
  · have hslot : log.length - count + i = rb.head - (count - i) + rb.capacity * turns := by omega
    rw [if_pos hge, usizeSub, if_pos hge, hslot, Nat.add_mul_mod_self_left,
      Nat.mod_eq_of_lt (by omega)]
  · -- the entry is before the start of the vector, so at its end
    have hpast : usizeSub (count - i) rb.head = some (count - i - rb.head) := if_pos (by omega)
    obtain ⟨t, rfl⟩ : ∃ t, turns = t + 1 := by
      refine Nat.exists_eq_succ_of_ne_zero fun hzero => ?_
      rw [hzero, Nat.mul_zero] at hturns
      omega
    rw [Nat.mul_succ] at hturns
    have hslot : log.length - count + i
        = rb.capacity - (count - i - rb.head) + rb.capacity * t := by omega
    rw [if_neg hge, hpast, Option.bind_some, usizeSub, if_pos (by omega), hslot,
      Nat.add_mul_mod_self_left, Nat.mod_eq_of_lt (by omega)]

/-- **What is kept of the entries since a sequence number.** -/
theorem readSince_eq (h : rb.Logs log) (since : Nat) :
    rb.readSince since
      = some (log.drop (log.length - min (log.length - since) rb.len), log.length) := by
  have hlen := h.len_eq
  unfold readSince
  rw [h.seq_eq]
  split
  next hnone =>
    have hcount : log.length - min (log.length - since) rb.len = log.length := by omega
    rw [hcount, List.drop_length]
  next =>
    obtain ⟨count, hcount⟩ : ∃ count, min (log.length - since) rb.len = count := ⟨_, rfl⟩
    have hend : log.length - count + count = log.length := by omega
    have hread := h.ring.read hend (by omega) fun i hi =>
      sinceIndex_eq h (by omega) hi
    simp only [hcount, hread]
    rfl

end RingBuffer

/-! ## The store -/

/-- The map from commands to their buffers. -/
structure DataStore (α : Type) where
  buffers : UInt8 → Option (RingBuffer α)

namespace DataStore

/-- No command is registered. -/
def new : DataStore α := ⟨fun _ => none⟩

/-- A buffer that was there is replaced. -/
def register [Inhabited α] (s : DataStore α) (command : UInt8) (capacity : Nat) :
    Option (DataStore α) := do
  let rb ← RingBuffer.new capacity
  return ⟨Function.update s.buffers command (some rb)⟩

def isRegistered (s : DataStore α) (command : UInt8) : Bool := (s.buffers command).isSome

/-- Without a buffer the payload is dropped. -/
def store (s : DataStore α) (command : UInt8) (payload : α) : Option (DataStore α) :=
  match s.buffers command with
  | some rb => do
    let rb ← rb.push payload
    return ⟨Function.update s.buffers command (some rb)⟩
  | none => some s

/-- What comes for a command without storage is not kept. -/
theorem store_unregistered {s : DataStore α} {command : UInt8}
    (h : s.isRegistered command = false) (payload : α) : s.store command payload = some s := by
  unfold isRegistered at h
  unfold store
  cases hb : s.buffers command with
  | none => rfl
  | some rb => rw [hb] at h; cases h

/-- Nothing for a command that is not registered. -/
def readAll (s : DataStore α) (command : UInt8) : Option (List α) :=
  match s.buffers command with
  | some rb => rb.readAll
  | none => some []

/-- For a command that is not registered nothing, and the number 0. -/
def readSince (s : DataStore α) (command : UInt8) (sinceSeq : Nat) : Option (List α × Nat) :=
  match s.buffers command with
  | some rb => rb.readSince sinceSeq
  | none => some ([], 0)

def seq (s : DataStore α) (command : UInt8) : Nat := ((s.buffers command).map RingBuffer.seq).getD 0

/-- The registrations stay. -/
def clearAll [Inhabited α] (s : DataStore α) : DataStore α :=
  ⟨fun c => (s.buffers c).map RingBuffer.clear⟩

end DataStore

/-! ## The logs of a store -/

/-- What a command was sent, and how much of it is to be kept. -/
structure Log (α : Type) where
  capacity : Nat
  entries : List α

/-- The last entries, as many as there is room for. -/
def Log.kept (log : Log α) : List α := log.entries.drop (log.entries.length - log.capacity)

/-- The logs of all registered commands. -/
abbrev Logs (α : Type) := UInt8 → Option (Log α)

namespace Logs

/-- A registration starts a log, whether or not there was one. -/
def register (l : Logs α) (command : UInt8) (capacity : Nat) : Logs α :=
  Function.update l command (some ⟨capacity, []⟩)

/-- A payload is appended where there is a log. -/
def store (l : Logs α) (command : UInt8) (payload : α) : Logs α :=
  Function.update l command ((l command).map fun log =>
    { log with entries := log.entries ++ [payload] })

/-- The commands stay registered. -/
def clearAll (l : Logs α) : Logs α := fun c => (l c).map fun log => { log with entries := [] }

end Logs

/-- The buffers hold what the logs say. -/
def DataStore.Mirrors (s : DataStore α) (l : Logs α) : Prop :=
  ∀ c, Option.Rel (fun rb log => rb.capacity = log.capacity ∧ rb.Logs log.entries)
    (s.buffers c) (l c)

namespace DataStore

variable {s s' : DataStore α} {l : Logs α} {c : UInt8}

theorem mirrors_new : Mirrors (new : DataStore α) fun _ => none := fun _ => .none

/-- One command changes, in the store and in the logs. -/
theorem Mirrors.update (h : s.Mirrors l) (c : UInt8) {rb : Option (RingBuffer α)}
    {log : Option (Log α)}
    (hc : Option.Rel (fun rb log => rb.capacity = log.capacity ∧ RingBuffer.Logs rb log.entries)
      rb log) :
    Mirrors ⟨Function.update s.buffers c rb⟩ (Function.update l c log) := by
  intro d
  by_cases hd : d = c
  · subst hd
    simp only [Function.update_self]
    exact hc
  · simp only [Function.update_of_ne hd]
    exact h d

/-- Registering keeps the two together. -/
theorem Mirrors.register [Inhabited α] (h : s.Mirrors l) {capacity : Nat}
    (hreg : s.register c capacity = some s') : s'.Mirrors (l.register c capacity) := by
  simp only [DataStore.register, Option.bind_eq_bind, Option.bind_eq_some_iff, Option.pure_def,
    Option.some.injEq] at hreg
  obtain ⟨rb, hnew, rfl⟩ := hreg
  exact h.update c (.some (RingBuffer.logs_new hnew))

/-- **A store appends to the log**, and never panics. -/
theorem Mirrors.store (h : s.Mirrors l) (c : UInt8) (payload : α) :
    ∃ s', s.store c payload = some s' ∧ s'.Mirrors (l.store c payload) := by
  have hc := h c
  unfold DataStore.store Logs.store
  cases hb : s.buffers c with
  | none =>
    rw [hb] at hc
    cases hl : l c with
    | none =>
      refine ⟨s, rfl, ?_⟩
      have hsame : Function.update l c none = l := by rw [← hl, Function.update_eq_self]
      rw [Option.map_none, hsame]
      exact h
    | some log => rw [hl] at hc; cases hc
  | some rb =>
    rw [hb] at hc
    cases hl : l c with
    | none => rw [hl] at hc; cases hc
    | some log =>
      rw [hl] at hc
      cases hc with
      | some hrb =>
        obtain ⟨rb', hpush, hcap, hlogs⟩ := RingBuffer.logs_push hrb.2 payload
        simp only [hpush, Option.bind_eq_bind, Option.bind_some, Option.pure_def]
        exact ⟨_, rfl, h.update c (.some ⟨hcap.trans hrb.1, hlogs⟩)⟩

/-- So does clearing. -/
theorem Mirrors.clearAll [Inhabited α] (h : s.Mirrors l) : s.clearAll.Mirrors l.clearAll := by
  intro c
  have hc := h c
  unfold DataStore.clearAll Logs.clearAll
  cases hb : s.buffers c with
  | none =>
    cases hl : l c with
    | none => simp only [hb, Option.map_none]; exact .none
    | some log => rw [hb, hl] at hc; cases hc
  | some rb =>
    cases hl : l c with
    | none => rw [hb, hl] at hc; cases hc
    | some log =>
      rw [hb, hl] at hc
      simp only [hb, Option.map_some]
      cases hc with
      | some hrb => exact .some ⟨hrb.1, RingBuffer.logs_clear hrb.2⟩

/-- A command is registered exactly if it has a log. -/
theorem Mirrors.isRegistered (h : s.Mirrors l) (c : UInt8) : s.isRegistered c = (l c).isSome := by
  have hc := h c
  unfold DataStore.isRegistered
  cases hb : s.buffers c with
  | none => rw [hb] at hc; cases hl : l c with
    | none => rfl
    | some log => rw [hl] at hc; cases hc
  | some rb => rw [hb] at hc; cases hl : l c with
    | none => rw [hl] at hc; cases hc
    | some log => rfl

/-- The buffer of a command with a log. -/
theorem Mirrors.buffer (h : s.Mirrors l) {log : Log α} (hl : l c = some log) :
    ∃ rb, s.buffers c = some rb ∧ rb.capacity = log.capacity ∧ rb.Logs log.entries := by
  have hc := h c
  rw [hl] at hc
  cases hb : s.buffers c with
  | none => rw [hb] at hc; cases hc
  | some rb =>
    rw [hb] at hc
    cases hc with
    | some hrb => exact ⟨rb, rfl, hrb⟩

/-- A command without a log has no buffer. -/
theorem Mirrors.buffer_none (h : s.Mirrors l) (hl : l c = none) : s.buffers c = none := by
  have hc := h c
  rw [hl] at hc
  cases hb : s.buffers c with
  | none => rfl
  | some rb => rw [hb] at hc; cases hc

/-- The sequence number counts the log. -/
theorem Mirrors.seq (h : s.Mirrors l) (c : UInt8) :
    s.seq c = (l c).elim 0 fun log => log.entries.length := by
  unfold DataStore.seq
  cases hl : l c with
  | none => rw [h.buffer_none hl]; rfl
  | some log =>
    obtain ⟨rb, hb, _, hlogs⟩ := h.buffer hl
    rw [hb]
    exact hlogs.seq_eq

/-- **All that is kept of a command.** -/
theorem Mirrors.readAll (h : s.Mirrors l) (c : UInt8) :
    s.readAll c = some ((l c).elim [] Log.kept) := by
  unfold DataStore.readAll
  cases hl : l c with
  | none => rw [h.buffer_none hl]; rfl
  | some log =>
    obtain ⟨rb, hb, hcap, hlogs⟩ := h.buffer hl
    have hlen := hlogs.len_eq
    have hkept : log.entries.length - rb.len = log.entries.length - log.capacity := by omega
    simp only [hb, RingBuffer.readAll_eq hlogs, hkept]
    rfl

/-- **What is kept of the entries since a sequence number.** -/
theorem Mirrors.readSince (h : s.Mirrors l) (c : UInt8) (since : Nat) :
    s.readSince c since = some ((l c).elim ([], 0) fun log =>
      (log.entries.drop (max since (log.entries.length - log.capacity)), log.entries.length)) := by
  unfold DataStore.readSince
  cases hl : l c with
  | none => rw [h.buffer_none hl]; rfl
  | some log =>
    obtain ⟨rb, hb, hcap, hlogs⟩ := h.buffer hl
    have hlen := hlogs.len_eq
    simp only [hb, RingBuffer.readSince_eq hlogs, Option.elim_some]
    by_cases hnew : since < log.entries.length
    · have hcount : log.entries.length - min (log.entries.length - since) rb.len
          = max since (log.entries.length - log.capacity) := by omega
      rw [hcount]
    · rw [List.drop_of_length_le (by omega), List.drop_of_length_le (by omega)]

end DataStore

/-! ## Entries in place of payloads

A store of entries holds at each moment the payloads that the store of their payloads
holds. -/

section Map

variable {β : Type} (f : α → β)

/-- The same buffer with other entries. -/
def RingBuffer.map (rb : RingBuffer α) : RingBuffer β := { rb with buf := rb.buf.map f }

def DataStore.map (s : DataStore α) : DataStore β := ⟨fun c => (s.buffers c).map (·.map f)⟩

namespace RingBuffer

theorem map_new [Inhabited α] [Inhabited β] (hf : f default = default) (capacity : Nat) :
    (new capacity : Option (RingBuffer β)) = (new capacity).map (·.map f) := by
  unfold new
  split
  · simp [map, hf]
  · rfl

/-- No line looks into an entry, so operations commute with changing them. -/
theorem map_push (rb : RingBuffer α) (payload : α) :
    (rb.map f).push (f payload) = (rb.push payload).map (·.map f) := by
  unfold push
  by_cases hlt : rb.head < rb.buf.length
  · rw [if_pos hlt, if_pos (show (rb.map f).head < (rb.map f).buf.length by simpa [map] using hlt)]
    simp only [map, List.map_set, Option.map_some]
    rfl
  · rw [if_neg hlt,
      if_neg (show ¬ (rb.map f).head < (rb.map f).buf.length by simpa [map] using hlt)]
    rfl

theorem map_clear [Inhabited α] [Inhabited β] (hf : f default = default) (rb : RingBuffer α) :
    (rb.map f).clear = rb.clear.map f := by
  simp [clear, map, hf, Function.comp_def]

/-- Reading slots one by one. -/
theorem mapM_slots (buf : List α) (idx : Nat → Option Nat) (is : List Nat) :
    is.mapM (fun i => (idx i).bind fun j => (buf.map f)[j]?)
      = (is.mapM fun i => (idx i).bind fun j => buf[j]?).map (List.map f) := by
  induction is with
  | nil => rfl
  | cons i is ih =>
    have hhead : ((idx i).bind fun j => (buf.map f)[j]?)
        = ((idx i).bind fun j => buf[j]?).map f := by
      simp only [List.getElem?_map, Option.map_bind]
      rfl
    rw [List.mapM_cons, List.mapM_cons, ih, hhead]
    cases (idx i).bind fun j => buf[j]? with
    | none => rfl
    | some a => cases is.mapM fun i => (idx i).bind fun j => buf[j]? <;> rfl

theorem map_readSince (rb : RingBuffer α) (since : Nat) :
    (rb.map f).readSince since = (rb.readSince since).map (Prod.map (List.map f) id) := by
  have hidx : (rb.map f).sinceIndex = rb.sinceIndex := rfl
  unfold readSince
  by_cases hnone : rb.len = 0 ∨ since ≥ rb.seq
  · rw [if_pos hnone, if_pos (show (rb.map f).len = 0 ∨ since ≥ (rb.map f).seq from hnone)]
    rfl
  · rw [if_neg hnone, if_neg (show ¬ ((rb.map f).len = 0 ∨ since ≥ (rb.map f).seq) from hnone)]
    simp only [hidx, show (rb.map f).buf = rb.buf.map f from rfl, mapM_slots]
    show (Option.map (List.map f) (List.mapM _ (List.range (min (rb.seq - since) rb.len)))).bind _
      = _
    rw [Option.bind_eq_bind, Option.map_bind, Option.bind_map]
    rfl

end RingBuffer

namespace DataStore

theorem map_update (s : DataStore α) (c : UInt8) (rb : RingBuffer α) :
    map f ⟨Function.update s.buffers c (some rb)⟩
      = ⟨Function.update (s.map f).buffers c (some (rb.map f))⟩ := by
  have hbuf : (fun d => (Function.update s.buffers c (some rb) d).map (·.map f))
      = Function.update (s.map f).buffers c (some (rb.map f)) := by
    funext d
    by_cases hd : d = c
    · subst hd
      rw [Function.update_self, Function.update_self]
      rfl
    · rw [Function.update_of_ne hd, Function.update_of_ne hd]
      rfl
  rw [map, hbuf]

/-- A registration makes an empty buffer in either store. -/
theorem map_register [Inhabited α] [Inhabited β] (hf : f default = default) (s : DataStore α)
    (c : UInt8) (capacity : Nat) :
    (s.map f).register c capacity = (s.register c capacity).map (·.map f) := by
  unfold register
  rw [RingBuffer.map_new f hf]
  cases (RingBuffer.new capacity : Option (RingBuffer α)) with
  | none => rfl
  | some rb => exact congrArg some (map_update f s c rb).symm

/-- Storing an entry and changing it may be done in either order. -/
theorem map_store (s : DataStore α) (c : UInt8) (payload : α) :
    (s.map f).store c (f payload) = (s.store c payload).map (·.map f) := by
  unfold store
  have hb : (s.map f).buffers c = (s.buffers c).map (·.map f) := rfl
  rw [hb]
  cases s.buffers c with
  | none => rfl
  | some rb =>
    simp only [Option.map_some, RingBuffer.map_push]
    cases rb.push payload with
    | none => rfl
    | some rb' => exact congrArg some (map_update f s c rb').symm

theorem map_clearAll [Inhabited α] [Inhabited β] (hf : f default = default) (s : DataStore α) :
    (s.map f).clearAll = s.clearAll.map f := by
  have hbuf : ∀ c, ((s.map f).buffers c).map RingBuffer.clear
      = (s.clearAll.buffers c).map (·.map f) := by
    intro c
    simp only [map, clearAll]
    cases s.buffers c with
    | none => rfl
    | some rb => exact congrArg some (RingBuffer.map_clear f hf rb)
  rw [clearAll, funext hbuf]
  rfl

/-- A reader gets the changed entries and the same number. -/
theorem map_readSince (s : DataStore α) (c : UInt8) (since : Nat) :
    (s.map f).readSince c since = (s.readSince c since).map (Prod.map (List.map f) id) := by
  unfold readSince
  have hb : (s.map f).buffers c = (s.buffers c).map (·.map f) := rfl
  rw [hb]
  cases s.buffers c with
  | none => rfl
  | some rb => exact RingBuffer.map_readSince f rb since

end DataStore

end Map

end ProtoEmb.Client
