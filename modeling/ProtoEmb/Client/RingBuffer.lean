import Mathlib.Algebra.Ring.Nat
import ProtoEmb.Client.Storage

/-!
# The ring buffer in machine integers

`RingBuffer` of `storage.rs` once more, now with every `+`, `-` and `%` on `usize` and `u64`
checked: a sum past the word, a remainder by zero, an index outside the vector is `none`,
and so is a `Vec` of more than `isize::MAX` bytes. While the buffer logs fewer than `2 ^ 64`
entries none of it happens and the functions are those of `Storage`, so what a buffer
answers after any pushes and clears is said by the log alone.
-/

namespace ProtoEmb.Client

open ProtoEmb.Lib

variable {α : Type}

/-- One more than a `usize` or `u64` can hold. -/
def wordLimit : Nat := 2 ^ 64

/-- `isize::MAX`, the most bytes a `Vec` can have. -/
def maxAlloc : Nat := 2 ^ 63 - 1

/-- The size of a `Vec<u8>`. -/
def vecSize : Nat := 24

/-- The size of a `&Vec<u8>`. -/
def refSize : Nat := 8

/-- `a + b` on `usize` or `u64`. -/
def wordAdd (a b : Nat) : Option Nat := if a + b < wordLimit then some (a + b) else none

/-- `a % b`. -/
def wordRem (a b : Nat) : Option Nat := if 0 < b then some (a % b) else none

/-- The slot, if it is in the vector. -/
def index (buf : List α) (i : Nat) : Option α := buf[i]?

/-- Room for `n` elements: "capacity overflow" past `isize::MAX` bytes. -/
def withCapacity (size n : Nat) : Option Unit := if n * size ≤ maxAlloc then some () else none

namespace RingBuffer.Checked

def new [Inhabited α] (capacity : Nat) : Option (RingBuffer α) :=
  if 0 < capacity then do
    withCapacity vecSize capacity
    return { buf := List.replicate capacity default, head := 0, len := 0, capacity, seq := 0 }
  else none

/-- The number of entries after a push. -/
def grow (rb : RingBuffer α) : Option Nat :=
  if rb.len < rb.capacity then wordAdd rb.len 1 else some rb.len

def push (rb : RingBuffer α) (payload : α) : Option (RingBuffer α) :=
  if rb.head < rb.buf.length then do
    let past ← wordAdd rb.head 1
    let head ← wordRem past rb.capacity
    let len ← grow rb
    let seq ← wordAdd rb.seq 1
    return { rb with buf := rb.buf.set rb.head payload, head, len, seq }
  else none

/-- The slot before the head. -/
def lastIndex (rb : RingBuffer α) : Option Nat :=
  if rb.head = 0 then usizeSub rb.capacity 1 else usizeSub rb.head 1

def latest (rb : RingBuffer α) : Option (Option α) :=
  if rb.len = 0 then some none
  else do
    let idx ← lastIndex rb
    let payload ← index rb.buf idx
    return some payload

/-- The slot `i` after the oldest entry, which is at the head once the buffer is full. -/
def allIndex (rb : RingBuffer α) (i : Nat) : Option Nat := do
  let start := if rb.len < rb.capacity then 0 else rb.head
  let past ← wordAdd start i
  wordRem past rb.capacity

/-- Oldest first. -/
def readAll (rb : RingBuffer α) : Option (List α) :=
  if rb.len = 0 then some []
  else do
    withCapacity refSize rb.len
    (List.range rb.len).mapM fun i => do
      let idx ← allIndex rb i
      index rb.buf idx

/-- On 64 bits the cast of `new_count` to `usize` keeps the value. -/
def readSince (rb : RingBuffer α) (sinceSeq : Nat) : Option (List α × Nat) :=
  if rb.len = 0 ∨ sinceSeq ≥ rb.seq then some ([], rb.seq)
  else do
    let newCount ← usizeSub rb.seq sinceSeq
    let count := min newCount rb.len
    withCapacity refSize count
    let entries ← (List.range count).mapM fun i => do
      let idx ← rb.sinceIndex count i
      index rb.buf idx
    return (entries, rb.seq)

end RingBuffer.Checked

/-- The two ways to change a ring buffer. -/
inductive RingOp (α : Type) where
  | push (payload : α)
  | clear
  deriving Repr

namespace RingOp

def isPush : RingOp α → Bool
  | .push _ => true
  | .clear => false

/-- What has been pushed since the last clear. -/
def log : List (RingOp α) → List α → List α
  | [], pushed => pushed
  | .push payload :: ops, pushed => log ops (pushed ++ [payload])
  | .clear :: ops, _ => log ops []

def run [Inhabited α] : List (RingOp α) → RingBuffer α → Option (RingBuffer α)
  | [], rb => some rb
  | .push payload :: ops, rb => do
    let rb ← RingBuffer.Checked.push rb payload
    run ops rb
  | .clear :: ops, rb => run ops rb.clear

end RingOp

namespace RingBuffer.Checked

variable {rb : RingBuffer α} {log : List α}

/-! ## No check fails -/

/-- The buffer logs what was pushed and is one that fits in memory. -/
structure Fits (rb : RingBuffer α) (log : List α) : Prop where
  logs : rb.Logs log
  room : rb.capacity * vecSize ≤ maxAlloc

theorem wordAdd_eq {a b : Nat} (h : a + b < wordLimit) : wordAdd a b = some (a + b) := if_pos h

theorem wordRem_eq {a b : Nat} (h : 0 < b) : wordRem a b = some (a % b) := if_pos h

theorem withCapacity_eq {size n : Nat} (h : n * size ≤ maxAlloc) :
    withCapacity size n = some () := if_pos h

/-- A capacity fits in a word four times over. -/
theorem Fits.capacity_lt (h : Fits rb log) : rb.capacity * 2 < wordLimit := by
  have hroom := h.room
  unfold maxAlloc vecSize at hroom
  unfold wordLimit
  omega

theorem Fits.head_lt (h : Fits rb log) : rb.head < rb.capacity := by
  rw [h.logs.head_eq]
  exact Nat.mod_lt _ h.logs.ring.cap_pos

theorem Fits.len_le (h : Fits rb log) : rb.len ≤ rb.capacity := by
  rw [h.logs.len_eq]
  exact Nat.min_le_right _ _

theorem Fits.refs (h : Fits rb log) {n : Nat} (hn : n ≤ rb.len) :
    withCapacity refSize n = some () := by
  have hlen := h.len_le
  have hroom := h.room
  refine withCapacity_eq ?_
  unfold maxAlloc vecSize at hroom
  unfold maxAlloc refSize
  omega

theorem new_eq [Inhabited α] {capacity : Nat} (h : new capacity = some rb) :
    rb.capacity = capacity ∧ Fits rb [] := by
  unfold new at h
  split at h
  next hpos =>
    simp only [withCapacity, Option.bind_eq_bind, Option.bind_eq_some_iff, Option.pure_def] at h
    obtain ⟨_, hroom, hnew⟩ := h
    split at hroom
    next hfits =>
      have hsame : RingBuffer.new capacity = some rb := by rw [RingBuffer.new, if_pos hpos, hnew]
      obtain ⟨hcap, hlogs⟩ := logs_new hsame
      exact ⟨hcap, hlogs, by rw [hcap]; exact hfits⟩
    next => cases hroom
  next => cases h

/-- A buffer is created for every capacity that is not zero and fits. -/
theorem new_isSome [Inhabited α] (capacity : Nat) :
    (new capacity : Option (RingBuffer α)).isSome ↔
      0 < capacity ∧ capacity * vecSize ≤ maxAlloc := by
  unfold new withCapacity
  by_cases hpos : 0 < capacity <;> by_cases hroom : capacity * vecSize ≤ maxAlloc <;>
    simp [hpos, hroom]

theorem Fits.grow (h : Fits rb log) :
    grow rb = some (if rb.len < rb.capacity then rb.len + 1 else rb.len) := by
  have hword := h.capacity_lt
  unfold Checked.grow
  split
  · exact wordAdd_eq (by omega)
  · rfl

/-- As long as the sequence number has room nothing overflows. -/
theorem push_same (h : Fits rb log) (hseq : log.length + 1 < wordLimit) (payload : α) :
    push rb payload = rb.push payload := by
  have hhead := h.head_lt
  have hword := h.capacity_lt
  have hslot : rb.head < rb.buf.length := by rw [h.logs.ring.length_eq]; exact hhead
  have hpast : wordAdd rb.head 1 = some (rb.head + 1) := wordAdd_eq (by omega)
  have hnext : wordAdd rb.seq 1 = some (rb.seq + 1) :=
    wordAdd_eq (by rw [h.logs.seq_eq]; exact hseq)
  rw [RingBuffer.push, if_pos hslot]
  simp only [push, if_pos hslot, hpast, hnext, h.grow, wordRem_eq h.logs.ring.cap_pos,
    Option.bind_eq_bind, Option.bind_some, Option.pure_def]

/-- The sequence number is the last thing that a push adds to. -/
theorem push_full (h : Fits rb log) (hseq : ¬ log.length + 1 < wordLimit) (payload : α) :
    push rb payload = none := by
  have hnext : wordAdd rb.seq 1 = none := if_neg (by rw [h.logs.seq_eq]; exact hseq)
  unfold push
  split
  next =>
    simp only [hnext, Option.bind_eq_bind, Option.bind_none]
    cases wordAdd rb.head 1 with
    | none => rfl
    | some past =>
      cases hrem : wordRem past rb.capacity with
      | none => simp only [Option.bind_some, hrem, Option.bind_none]
      | some head => simp only [Option.bind_some, hrem, h.grow]
  next => rfl

/-- **A push without overflow**, as long as the sequence number has room. -/
theorem push_eq (h : Fits rb log) (hseq : log.length + 1 < wordLimit) (payload : α) :
    ∃ rb', push rb payload = some rb' ∧ rb'.capacity = rb.capacity ∧
      Fits rb' (log ++ [payload]) := by
  obtain ⟨rb', hpush, hcap, hlogs⟩ := logs_push h.logs payload
  exact ⟨rb', (push_same h hseq payload).trans hpush, hcap, hlogs, by rw [hcap]; exact h.room⟩

theorem Fits.clear [Inhabited α] (h : Fits rb log) : Fits rb.clear [] := ⟨logs_clear h.logs, h.room⟩

/-- The slot before the head is that of the entry pushed last. -/
theorem Fits.lastIndex (h : Fits rb log) (hsome : log ≠ []) :
    lastIndex rb = some ((log.length - 1) % rb.capacity) := by
  have hpos := h.logs.ring.cap_pos
  have hlen := List.length_pos_iff.mpr hsome
  have hlast := Nat.mod_lt (log.length - 1) hpos
  have hhead := h.logs.head_eq
  rw [← Nat.sub_add_cancel hlen, Nat.succ_eq_add_one, Nat.zero_add, ← Nat.mod_add_mod] at hhead
  unfold Checked.lastIndex usizeSub
  by_cases hend : (log.length - 1) % rb.capacity + 1 = rb.capacity
  · -- the last slot of the vector, and the head is back at the first
    rw [hend, Nat.mod_self] at hhead
    rw [if_pos hhead, if_pos (by omega)]
    congr 1
    omega
  · rw [Nat.mod_eq_of_lt (by omega)] at hhead
    rw [if_neg (by omega), if_pos (by omega), hhead, Nat.add_sub_cancel]

/-- **The latest entry is the last of the log.** -/
theorem latest_eq (h : Fits rb log) : latest rb = some log.getLast? := by
  have hlen := h.logs.len_eq
  have hpos := h.logs.ring.cap_pos
  unfold latest
  split
  next hempty =>
    have hnil : log = [] := List.eq_nil_of_length_eq_zero (by omega)
    rw [hnil, List.getLast?_nil]
  next hsome =>
    have hne : log ≠ [] := fun hnil => hsome (by rw [hlen, hnil]; exact Nat.zero_min _)
    have hlt := List.length_pos_iff.mpr hne
    have hentry : index rb.buf ((log.length - 1) % rb.capacity) = some (log.getLast hne) := by
      rw [index, h.logs.ring.get _ (by omega) (by omega), ← List.getLast?_eq_getElem?,
        List.getLast?_eq_some_getLast hne]
    rw [h.lastIndex hne, Option.bind_eq_bind, Option.bind_some, hentry,
      List.getLast?_eq_some_getLast hne]
    rfl

theorem Fits.allIndex (h : Fits rb log) {i : Nat} (hi : i < rb.len) :
    allIndex rb i = some ((log.length - rb.len + i) % rb.capacity) := by
  have hword := h.capacity_lt
  have hlen := h.logs.len_eq
  have hhead := h.head_lt
  have hpos := h.logs.ring.cap_pos
  have hpast : wordAdd (if rb.len < rb.capacity then 0 else rb.head) i = some _ :=
    wordAdd_eq (by split <;> omega)
  simp only [Checked.allIndex, hpast, Option.bind_eq_bind, Option.bind_some, wordRem_eq hpos]
  split
  next hpart =>
    have hall : log.length - rb.len = 0 := by omega
    rw [hall]
  next hfull =>
    -- a full ring starts with the entry of one turn ago
    have hturn : log.length + i = log.length - rb.len + i + rb.capacity := by omega
    rw [h.logs.head_eq, Nat.mod_add_mod, hturn, Nat.add_mod_right]

/-- **All that is kept**, oldest first. -/
theorem readAll_eq (h : Fits rb log) :
    readAll rb = some (log.drop (log.length - rb.len)) := by
  have hlen := h.logs.len_eq
  have hle := h.len_le
  unfold readAll
  split
  next hempty =>
    rw [hempty, Nat.sub_zero, List.drop_length]
  next =>
    rw [h.refs (Nat.le_refl _)]
    exact h.logs.ring.read (by omega) hle fun i hi => h.allIndex hi

/-- **What is kept of the entries since a sequence number.** -/
theorem readSince_eq (h : Fits rb log) (since : Nat) :
    readSince rb since
      = some (log.drop (log.length - min (log.length - since) rb.len), log.length) := by
  have hlen := h.logs.len_eq
  rw [← RingBuffer.readSince_eq h.logs]
  unfold readSince RingBuffer.readSince
  split
  next => rfl
  next hnew =>
    have hcount : usizeSub rb.seq since = some (rb.seq - since) := if_pos (by omega)
    simp only [hcount, Option.bind_eq_bind, Option.bind_some, h.refs (Nat.min_le_right _ _)]
    rfl

/-! ## Any pushes and clears -/

/-- **A run of a ring buffer logs what it is pushed.** -/
theorem run_fits [Inhabited α] : ∀ (ops : List (RingOp α)) {rb : RingBuffer α} {log : List α},
    Fits rb log → log.length + ops.countP RingOp.isPush < wordLimit →
    ∃ rb', RingOp.run ops rb = some rb' ∧ rb'.capacity = rb.capacity ∧
      Fits rb' (RingOp.log ops log) := by
  intro ops
  induction ops with
  | nil =>
    intro rb log h _
    exact ⟨rb, rfl, rfl, h⟩
  | cons op ops ih =>
    intro rb log h hroom
    cases op with
    | push payload =>
      rw [List.countP_cons_of_pos rfl] at hroom
      obtain ⟨rb₁, hpush, hcap₁, h₁⟩ := push_eq h (by omega) payload
      obtain ⟨rb', hrun, hcap, h'⟩ := ih h₁ (by
        rw [List.length_append, List.length_singleton]
        omega)
      refine ⟨rb', ?_, hcap.trans hcap₁, h'⟩
      rw [RingOp.run, hpush, Option.bind_eq_bind, Option.bind_some, hrun]
    | clear =>
      rw [List.countP_cons_of_neg Bool.false_ne_true] at hroom
      obtain ⟨rb', hrun, hcap, h'⟩ := ih h.clear (by
        rw [List.length_nil]
        omega)
      exact ⟨rb', hrun, hcap, h'⟩

/-- **A ring buffer is the end of a log.** Whatever is pushed into a new buffer and however
often it is cleared, no operation panics and every reader answers from the entries pushed
since the last clear. -/
theorem refines_log [Inhabited α] {capacity : Nat} {rb : RingBuffer α}
    (hnew : new capacity = some rb) (ops : List (RingOp α))
    (hpushes : ops.countP RingOp.isPush < wordLimit) :
    ∃ rb', RingOp.run ops rb = some rb' ∧
      let log := RingOp.log ops []
      let len := min log.length capacity
      rb'.len = len ∧ rb'.seq = log.length ∧ latest rb' = some log.getLast? ∧
        readAll rb' = some (log.drop (log.length - len)) ∧
        ∀ since, readSince rb' since = some
          (if since < log.length then
            (log.drop (log.length - min (log.length - since) len), log.length)
          else ([], log.length)) := by
  obtain ⟨hcap, hfits⟩ := new_eq hnew
  obtain ⟨rb', hrun, hcap', h⟩ := run_fits ops hfits (by rw [List.length_nil]; omega)
  have hlen : rb'.len = min (RingOp.log ops []).length capacity := by
    rw [h.logs.len_eq, hcap', hcap]
  refine ⟨rb', hrun, hlen, h.logs.seq_eq, latest_eq h, ?_, fun since => ?_⟩
  · rw [readAll_eq h, hlen]
  · rw [readSince_eq h, hlen]
    split
    next => rfl
    next hold =>
      have hnone : (RingOp.log ops []).length - since = 0 := by omega
      rw [hnone, Nat.zero_min, Nat.sub_zero, List.drop_length]

/-- Four pushes into three slots, after a clear. -/
theorem refines_log_three :
    ∃ rb', RingOp.run [.push [9], .clear, .push [1], .push [2], .push [3], .push [4]]
        (⟨[[], [], []], 0, 0, 3, 0⟩ : RingBuffer Payload) = some rb' ∧
      rb'.seq = 4 ∧ readAll rb' = some [[2], [3], [4]] ∧
        readSince rb' 3 = some ([[4]], 4) := by
  obtain ⟨rb', hrun, _, hseq, _, hall, hsince⟩ :=
    @refines_log Payload _ 3 ⟨[[], [], []], 0, 0, 3, 0⟩ rfl
      [.push [9], .clear, .push [1], .push [2], .push [3], .push [4]] (by decide)
  exact ⟨rb', hrun, hseq, hall, hsince 3⟩

end RingBuffer.Checked

end ProtoEmb.Client
