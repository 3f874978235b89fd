import ProtoEmb.Client.Storage

/-!
# Readers with a cursor

A consumer of one command reads with `read_since` of `storage.rs`, starting at 0 and passing back
the sequence number of its last read. To say which entry is which, each stored payload is numbered
(`Entry`); `Reader.step_erase` says that the numbers change nothing.

`RingBuffer::clear` and a new registration restart the sequence numbers, which a cursor
does not notice. A read is complete when that did not happen since the last read, or when
it does not matter (`Reader.Current`), and only then.
-/

namespace ProtoEmb.Client

/-- What happens to a store that one consumer reads. -/
inductive StoreOp where
  | register (command : UInt8) (capacity : Nat)
  | store (command : UInt8) (payload : Payload)
  | clearAll
  | read
  deriving DecidableEq, Repr

/-! ## The consumer -/

structure Consumer where
  store : DataStore Payload
  cursor : Nat

namespace Consumer

def new : Consumer := ⟨.new, 0⟩

/-- One operation; `c` is the command that is read. -/
def step (c : UInt8) (r : Consumer) : StoreOp → Option Consumer
  | .register d capacity => do
    let store ← r.store.register d capacity
    return { r with store }
  | .store d payload => do
    let store ← r.store.store d payload
    return { r with store }
  | .clearAll => some { r with store := r.store.clearAll }
  | .read => do
    let got ← r.store.readSince c r.cursor
    return { r with cursor := got.2 }

end Consumer

/-! ## The consumer with numbered entries -/

/-- A payload and how many were stored before it. -/
abbrev Entry := Nat × Payload

structure Reader where
  store : DataStore Entry
  next : Nat
  cursor : Nat
  /-- All that the reads so far have returned. -/
  earlier : List Entry
  /-- The sequence numbers were restarted since the last read. -/
  restarted : Bool

namespace Reader

def new : Reader := ⟨.new, 0, 0, [], false⟩

def step (c : UInt8) (r : Reader) : StoreOp → Option Reader
  | .register d capacity => do
    let store ← r.store.register d capacity
    return { r with store, restarted := r.restarted || d == c }
  | .store d payload => do
    let store ← r.store.store d (r.next, payload)
    return { r with store, next := r.next + 1 }
  | .clearAll => some { r with store := r.store.clearAll, restarted := true }
  | .read => do
    let got ← r.store.readSince c r.cursor
    return { r with cursor := got.2, earlier := r.earlier ++ got.1, restarted := false }

/-- The states in which a run reads. -/
def readStates (c : UInt8) (r : Reader) : List StoreOp → Option (List Reader)
  | [] => some []
  | op :: ops => do
    let r' ← r.step c op
    let rest ← r'.readStates c ops
    return if op = .read then r :: rest else rest

def erase (r : Reader) : Consumer := ⟨r.store.map Prod.snd, r.cursor⟩

/-- **The numbers change nothing.** -/
theorem step_erase (c : UInt8) (r : Reader) (op : StoreOp) :
    r.erase.step c op = (r.step c op).map erase := by
  have hempty : (default : Entry).2 = default := rfl
  cases op with
  | register d capacity =>
    simp only [Consumer.step, step, erase, DataStore.map_register Prod.snd hempty]
    cases r.store.register d capacity <;> rfl
  | store d payload =>
    simp only [Consumer.step, step, erase]
    rw [show payload = Prod.snd (r.next, payload) from rfl, DataStore.map_store]
    cases r.store.store d (r.next, payload) <;> rfl
  | clearAll =>
    simp only [Consumer.step, step, erase, DataStore.map_clearAll Prod.snd hempty]
    rfl
  | read =>
    simp only [Consumer.step, step, erase, DataStore.map_readSince]
    cases r.store.readSince c r.cursor <;> rfl

/-- A read now returns what is kept and was not returned before, oldest first, each entry
once. -/
def Complete (c : UInt8) (r : Reader) : Prop :=
  ∃ kept got seq, r.store.readAll c = some kept ∧ r.store.readSince c r.cursor = some (got, seq) ∧
    got = kept.filter (· ∉ r.earlier) ∧ got.Nodup

/-- The cursor does not reach past a restart into what is kept. -/
def Current (c : UInt8) (r : Reader) : Prop :=
  r.restarted = true → ∀ rb ∈ r.store.buffers c, rb.len = 0 ∨ r.cursor + rb.len ≤ rb.seq

instance (c : UInt8) (r : Reader) : Decidable (r.Current c) :=
  inferInstanceAs (Decidable (r.restarted = true → _))

/-! ## Complete reads -/

/-- The entries of a command since its last restart. -/
def entriesOf (l : Logs Entry) (c : UInt8) : List Entry := (l c).elim [] Log.entries

/-- How many of them have been overwritten. -/
def lost (l : Logs Entry) (c : UInt8) : Nat :=
  (l c).elim 0 fun log => log.entries.length - log.capacity

/-- Where the entries begin that no read has seen. -/
def unread (r : Reader) : Nat := if r.restarted then 0 else r.cursor

/-- What holds along a run whose reads are complete. -/
structure Inv (c : UInt8) (r : Reader) (l : Logs Entry) : Prop where
  mirrors : r.store.Mirrors l
  numbered : (entriesOf l c).Pairwise fun d e => d.1 < e.1
  entries_lt : ∀ e ∈ entriesOf l c, e.1 < r.next
  earlier_lt : ∀ e ∈ r.earlier, e.1 < r.next
  unread_le : r.unread ≤ (entriesOf l c).length
  unread_new : ∀ e ∈ (entriesOf l c).drop r.unread, e ∉ r.earlier
  read_kept : ∀ e ∈ ((entriesOf l c).take r.unread).drop (lost l c), e ∈ r.earlier

variable {c : UInt8} {r r' : Reader} {l : Logs Entry}

theorem readAll_entries (h : r.store.Mirrors l) (c : UInt8) :
    r.store.readAll c = some ((entriesOf l c).drop (lost l c)) := by
  rw [h.readAll]
  cases hl : l c <;> simp [entriesOf, lost, hl, Log.kept]

theorem readSince_entries (h : r.store.Mirrors l) (c : UInt8) (since : Nat) :
    r.store.readSince c since
      = some ((entriesOf l c).drop (max since (lost l c)), (entriesOf l c).length) := by
  rw [h.readSince]
  cases hl : l c <;> simp [entriesOf, lost, hl]

/-- What is kept and new starts where the unread entries do, or where the kept ones do. -/
theorem Inv.filter_kept (h : r.Inv c l) :
    ((entriesOf l c).drop (lost l c)).filter (· ∉ r.earlier)
      = (entriesOf l c).drop (max r.unread (lost l c)) := by
  have hnew : ∀ e ∈ (entriesOf l c).drop (max r.unread (lost l c)), e ∉ r.earlier := fun e he =>
    h.unread_new e ((List.drop_suffix_drop_left _ (Nat.le_max_left _ _)).subset he)
  have hsplit : (entriesOf l c).drop (lost l c)
      = ((entriesOf l c).take r.unread).drop (lost l c)
        ++ (entriesOf l c).drop (max r.unread (lost l c)) := by
    have hend : r.unread + (lost l c - r.unread) = max r.unread (lost l c) := by omega
    conv_lhs => rw [← List.take_append_drop r.unread (entriesOf l c)]
    rw [List.drop_append, List.length_take, Nat.min_eq_left h.unread_le, List.drop_drop, hend]
  rw [hsplit, List.filter_append, List.filter_eq_nil_iff.mpr, List.filter_eq_self.mpr,
    List.nil_append]
  · intro e he
    simpa using hnew e he
  · intro e he
    simpa using h.read_kept e he

/-- The cursor does not reach past a restart, in terms of the log. -/
theorem current_iff (h : r.store.Mirrors l) :
    r.Current c ↔ (r.restarted = true →
      (entriesOf l c).length = lost l c ∨ r.cursor ≤ lost l c) := by
  unfold Current
  refine imp_congr_right fun _ => ?_
  cases hl : l c with
  | none => simp [h.buffer_none hl, entriesOf, lost, hl]
  | some log =>
    obtain ⟨rb, hb, hcap, hlogs⟩ := h.buffer hl
    have hlen := hlogs.len_eq
    have hseq := hlogs.seq_eq
    have hpos := hlogs.ring.cap_pos
    simp only [hb, Option.mem_some_iff, forall_eq', entriesOf, lost, hl, Option.elim_some]
    omega

/-- **A read is complete exactly when the cursor is current.** -/
theorem Inv.complete_iff (h : r.Inv c l) : r.Complete c ↔ r.Current c := by
  have hnodup : ((entriesOf l c).drop (max r.cursor (lost l c))).Nodup :=
    (h.numbered.sublist (List.drop_sublist _ _)).imp fun hlt heq => by
      rw [heq] at hlt
      exact Nat.lt_irrefl _ hlt
  have hread : r.Complete c ↔ (entriesOf l c).drop (max r.cursor (lost l c))
      = (entriesOf l c).drop (max r.unread (lost l c)) := by
    unfold Complete
    rw [readAll_entries h.mirrors, readSince_entries h.mirrors]
    constructor
    · rintro ⟨kept, got, seq, hkept, hgot, heq, _⟩
      cases hkept
      cases hgot
      rw [heq, h.filter_kept]
    · intro heq
      exact ⟨_, _, _, rfl, rfl, by rw [h.filter_kept]; exact heq, hnodup⟩
  rw [hread, current_iff h.mirrors, List.drop_eq_drop_iff]
  have hle := h.unread_le
  have hlost : lost l c ≤ (entriesOf l c).length := by
    cases hl : l c <;> simp [entriesOf, lost, hl]
  unfold unread at hle ⊢
  cases hre : r.restarted
  · simp
  · simp only [if_true, Nat.zero_max, forall_const]
    omega

/-! ## Along a run -/

theorem inv_new (c : UInt8) : new.Inv c fun _ => none where
  mirrors := DataStore.mirrors_new
  numbered := .nil
  entries_lt _ he := absurd he List.not_mem_nil
  earlier_lt _ he := absurd he List.not_mem_nil
  unread_le := Nat.le_refl _
  unread_new _ he := absurd he List.not_mem_nil
  read_kept _ he := absurd he List.not_mem_nil

/-- A restart of the sequence numbers: nothing is left that a read has seen. -/
theorem Inv.restart (h : r.Inv c l) {store : DataStore Entry} {l' : Logs Entry}
    (hstore : store.Mirrors l') (hnone : entriesOf l' c = []) :
    Inv c { r with store, restarted := true } l' where
  mirrors := hstore
  numbered := by rw [hnone]; exact .nil
  entries_lt := by rw [hnone]; exact fun _ he => absurd he List.not_mem_nil
  earlier_lt := h.earlier_lt
  unread_le := Nat.zero_le _
  unread_new := by rw [hnone, List.drop_nil]; exact fun _ he => absurd he List.not_mem_nil
  read_kept := by
    rw [hnone, List.take_nil, List.drop_nil]
    exact fun _ he => absurd he List.not_mem_nil

/-- Another command changes. -/
theorem Inv.other (h : r.Inv c l) {store : DataStore Entry} {l' : Logs Entry} {next : Nat}
    (hstore : store.Mirrors l') (hnext : r.next ≤ next) (hsame : l' c = l c) :
    Inv c { r with store, next } l' := by
  have hentries : entriesOf l' c = entriesOf l c := by rw [entriesOf, hsame]; rfl
  have hlost : lost l' c = lost l c := by rw [lost, hsame]; rfl
  refine ⟨hstore, ?_, ?_, fun e he => Nat.lt_of_lt_of_le (h.earlier_lt e he) hnext, ?_, ?_, ?_⟩
  · rw [hentries]
    exact h.numbered
  · rw [hentries]
    exact fun e he => Nat.lt_of_lt_of_le (h.entries_lt e he) hnext
  · rw [hentries]
    exact h.unread_le
  · rw [hentries]
    exact h.unread_new
  · rw [hentries, hlost]
    exact h.read_kept

/-- A new entry for a registered command. -/
theorem Inv.append (h : r.Inv c l) {store : DataStore Entry} {l' : Logs Entry} {payload : Payload}
    (hstore : store.Mirrors l') (hentries : entriesOf l' c = entriesOf l c ++ [(r.next, payload)])
    (hlost : lost l c ≤ lost l' c) : Inv c { r with store, next := r.next + 1 } l' where
  mirrors := hstore
  numbered := by
    rw [hentries, List.pairwise_append]
    refine ⟨h.numbered, List.pairwise_singleton _ _, fun d hd e he => ?_⟩
    rw [List.mem_singleton] at he
    rw [he]
    exact h.entries_lt d hd
  entries_lt e he := by
    rw [hentries, List.mem_append, List.mem_singleton] at he
    obtain he | rfl := he
    · exact Nat.lt_succ_of_lt (h.entries_lt e he)
    · exact Nat.lt_succ_self _
  earlier_lt e he := Nat.lt_succ_of_lt (h.earlier_lt e he)
  unread_le := by
    rw [hentries, List.length_append]
    exact Nat.le_add_right_of_le h.unread_le
  unread_new e he := by
    rw [hentries] at he
    change e ∈ List.drop r.unread _ at he
    rw [List.drop_append_of_le_length h.unread_le, List.mem_append, List.mem_singleton] at he
    obtain he | rfl := he
    · exact h.unread_new e he
    · exact fun hmem => Nat.lt_irrefl _ (h.earlier_lt _ hmem)
  read_kept e he := by
    rw [hentries] at he
    change e ∈ List.drop _ (List.take r.unread _) at he
    rw [List.take_append_of_le_length h.unread_le] at he
    exact h.read_kept e ((List.drop_suffix_drop_left _ hlost).subset he)

/-- A read with a current cursor. -/
theorem Inv.read (h : r.Inv c l) (hcur : r.Current c) {got : List Entry × Nat}
    (hgot : r.store.readSince c r.cursor = some got) :
    Inv c { r with cursor := got.2, earlier := r.earlier ++ got.1, restarted := false } l := by
  have hsince := readSince_entries h.mirrors c r.cursor
  obtain ⟨kept, _, _, hkept, hread, hfilter, _⟩ := h.complete_iff.mpr hcur
  rw [hgot] at hsince hread
  cases hsince
  cases hread
  rw [readAll_entries h.mirrors] at hkept
  cases hkept
  refine ⟨h.mirrors, h.numbered, h.entries_lt, fun e he => ?_, Nat.le_refl _, fun e he => ?_,
    fun e he => ?_⟩
  · rw [List.mem_append] at he
    obtain he | he := he
    · exact h.earlier_lt e he
    · exact h.entries_lt e (List.mem_of_mem_drop he)
  · change e ∈ (entriesOf l c).drop (entriesOf l c).length at he
    rw [List.drop_length] at he
    exact absurd he List.not_mem_nil
  · change e ∈ ((entriesOf l c).take (entriesOf l c).length).drop (lost l c) at he
    rw [List.take_length] at he
    by_cases hmem : e ∈ r.earlier
    · exact List.mem_append_left _ hmem
    · refine List.mem_append_right _ ?_
      rw [hfilter, List.mem_filter]
      exact ⟨he, by simpa using hmem⟩

/-- **One operation**: whatever it is, unless it reads with a cursor that is not current. -/
theorem Inv.step (h : r.Inv c l) {op : StoreOp} (hcur : op = .read → r.Current c)
    (hstep : r.step c op = some r') : ∃ l', r'.Inv c l' := by
  cases op with
  | register d capacity =>
    simp only [Reader.step, Option.bind_eq_bind, Option.bind_eq_some_iff, Option.pure_def,
      Option.some.injEq] at hstep
    obtain ⟨store, hreg, rfl⟩ := hstep
    have hstore := h.mirrors.register hreg
    -- the log of `c` starts again; the log of another command is not the reader's
    by_cases hd : d = c
    · subst hd
      rw [beq_self_eq_true, Bool.or_true]
      exact ⟨_, h.restart hstore (by simp [entriesOf, Logs.register])⟩
    · rw [beq_eq_false_iff_ne.mpr hd, Bool.or_false]
      exact ⟨_, h.other hstore (Nat.le_refl _) (Function.update_of_ne (Ne.symm hd) _ _)⟩
  | store d payload =>
    simp only [Reader.step, Option.bind_eq_bind, Option.bind_eq_some_iff, Option.pure_def,
      Option.some.injEq] at hstep
    obtain ⟨store, hpush, rfl⟩ := hstep
    obtain ⟨store', hpush', hstore⟩ := h.mirrors.store d (r.next, payload)
    rw [hpush] at hpush'
    cases hpush'
    by_cases hd : d = c
    · subst hd
      -- a command without a buffer stores nothing
      cases hl : l d with
      | none =>
        refine ⟨_, h.other hstore (Nat.le_succ _) ?_⟩
        rw [Logs.store, Function.update_self, hl]
        rfl
      | some log =>
        have hentries : entriesOf (l.store d (r.next, payload)) d
            = entriesOf l d ++ [(r.next, payload)] := by simp [entriesOf, Logs.store, hl]
        refine ⟨_, h.append hstore hentries ?_⟩
        simp only [lost, Logs.store, Function.update_self, hl, Option.map_some, Option.elim_some,
          List.length_append]
        omega
    · exact ⟨_, h.other hstore (Nat.le_succ _) (Function.update_of_ne (Ne.symm hd) _ _)⟩
  | clearAll =>
    cases hstep
    refine ⟨_, h.restart h.mirrors.clearAll ?_⟩
    cases hl : l c <;> simp [entriesOf, Logs.clearAll, hl]
  | read =>
    simp only [Reader.step, Option.bind_eq_bind, Option.bind_eq_some_iff, Option.pure_def,
      Option.some.injEq] at hstep
    obtain ⟨got, hgot, rfl⟩ := hstep
    exact ⟨l, h.read (hcur rfl) hgot⟩

/-- A run from a state in which all reads so far were complete. -/
theorem Inv.readStates (c : UInt8) :
    ∀ (ops : List StoreOp) {r : Reader} {l : Logs Entry} {rs : List Reader}, r.Inv c l →
      r.readStates c ops = some rs → ((∀ r ∈ rs, r.Complete c) ↔ ∀ r ∈ rs, r.Current c) := by
  intro ops
  induction ops with
  | nil =>
    intro r l rs _ hrun
    cases hrun
    simp
  | cons op ops ih =>
    intro r l rs h hrun
    simp only [Reader.readStates, Option.bind_eq_bind, Option.bind_eq_some_iff, Option.pure_def,
      Option.some.injEq] at hrun
    obtain ⟨r', hstep, rest, hrest, rfl⟩ := hrun
    by_cases hop : op = .read
    · -- a read is complete or the run stops meeting the condition here
      rw [if_pos hop, List.forall_mem_cons, List.forall_mem_cons, h.complete_iff]
      refine and_congr_right fun hcur => ?_
      obtain ⟨l', h'⟩ := h.step (fun _ => hcur) hstep
      exact ih h' hrest
    · rw [if_neg hop]
      obtain ⟨l', h'⟩ := h.step (fun heq => absurd heq hop) hstep
      exact ih h' hrest

/-- **Cursor readers and restarts.** In every run from an empty store, all reads are
complete exactly when at each of them the cursor is current. -/
theorem reads_complete_iff {c : UInt8} {ops : List StoreOp} {rs : List Reader}
    (hrun : new.readStates c ops = some rs) :
    (∀ r ∈ rs, r.Complete c) ↔ ∀ r ∈ rs, r.Current c :=
  Inv.readStates c ops (inv_new c) hrun

/-- A smaller ring is registered between two reads. -/
def shrunk : List StoreOp :=
  [.register 1 2, .store 1 [7], .read, .register 1 1, .store 1 [8], .store 1 [9], .read]

/-- By the second read as much has been overwritten as the cursor has passed. -/
theorem reads_complete_iff_shrunk :
    ∃ rs, new.readStates 1 shrunk = some rs ∧ rs.length = 2 ∧ ∀ r ∈ rs, r.Complete 1 :=
  ⟨_, rfl, rfl, (@reads_complete_iff 1 shrunk _ rfl).mpr (by decide)⟩

/-- The same ring is registered again between two reads. -/
def renewed : List StoreOp :=
  [.register 1 4, .store 1 [7], .read, .register 1 4, .store 1 [8], .read]

/-- The cursor is ahead of the first entry after the restart, which is not returned. -/
theorem read_misses_entry :
    ∃ rs, new.readStates 1 renewed = some rs ∧ ¬ ∀ r ∈ rs, r.Complete 1 :=
  ⟨_, rfl, fun hall => absurd ((Inv.readStates 1 renewed (inv_new 1) rfl).mp hall) (by decide)⟩

end Reader

end ProtoEmb.Client
