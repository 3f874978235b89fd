import ProtoEmb.Client.Schedule
import ProtoEmb.Lib.Line

/-!
# The order of the queue

A `History` runs beside the priority queue of `queue.rs` and numbers the pushes: each of its two
lines says which push opened a slot, which push the message in it is from, and what became of
every message. `History.Kept` holds after any operations, and forgetting the numbers gives the
queue back (`historyOf_queue`), so what it says of the order and the losses it says of `queue.rs`.
`InOrder` puts it in terms of the operations.
-/

namespace ProtoEmb.Client

open ProtoEmb.Lib

/-- The operations of a queue. -/
inductive QueueOp where
  | push (msg : QueuedMessage)
  | pop
  | clear
  deriving DecidableEq, Repr

/-- The messages pushed, in order. -/
def pushedBy (ops : List QueueOp) : List QueuedMessage :=
  ops.filterMap fun op =>
    match op with
    | .push msg => some msg
    | _ => none

namespace PriorityQueue

/-- The messages that wait at one level. -/
def level (q : PriorityQueue) : Priority → List QueuedMessage
  | .high => q.high
  | .low => q.low

/-- The queue after the operations, and what its pops returned. -/
def exec : PriorityQueue → List QueueOp → PriorityQueue × List QueuedMessage
  | q, [] => (q, [])
  | q, .push msg :: ops => exec (q.push msg) ops
  | q, .pop :: ops =>
    match q.pop with
    | some (msg, q) =>
      let (q, popped) := exec q ops
      (q, msg :: popped)
    | none => exec q ops
  | q, .clear :: ops => exec q.clear ops

/-- A message with the key of another one takes its place. -/
theorem pushLevel_split {before after : List QueuedMessage} {old msg : QueuedMessage}
    (hsame : Line.SameKey QueuedMessage.coalesceKey msg old)
    (hbefore : ∀ m ∈ before, ¬ Line.SameKey QueuedMessage.coalesceKey msg m) :
    pushLevel (before ++ old :: after) msg = before ++ msg :: after := by
  obtain ⟨key, hkey⟩ := Option.ne_none_iff_exists'.mp hsame.1
  have hnone : before.findIdx? (fun m => m.coalesceKey == some key) = none := by
    refine List.findIdx?_eq_none_iff.mpr fun m hm => ?_
    refine beq_eq_false_iff_ne.mpr fun hmk => hbefore m hm ⟨hsame.1, hmk.trans hkey.symm⟩
  have hold : old.coalesceKey = some key := hsame.2.trans hkey
  have hpos : (before ++ old :: after).findIdx? (fun m => m.coalesceKey == some key)
      = some before.length := by
    rw [List.findIdx?_append, hnone, List.findIdx?_cons, hold]
    simp
  simp [pushLevel, hkey, hpos]

/-- Any other message goes to the end. -/
theorem pushLevel_end {queue : List QueuedMessage} {msg : QueuedMessage}
    (h : ∀ m ∈ queue, ¬ Line.SameKey QueuedMessage.coalesceKey msg m) :
    pushLevel queue msg = queue ++ [msg] := by
  unfold pushLevel
  split
  next key hkey =>
    have hnone : queue.findIdx? (fun m => m.coalesceKey == some key) = none := by
      refine List.findIdx?_eq_none_iff.mpr fun m hm => ?_
      refine beq_eq_false_iff_ne.mpr fun hmk => h m hm ⟨?_, hmk.trans hkey.symm⟩
      rw [hkey]
      exact Option.some_ne_none key
    rw [hnone]
  next => rfl

end PriorityQueue

/-! ## The history of a queue -/

structure History where
  high : Line QueuedMessage
  low : Line QueuedMessage
  pushed : List QueuedMessage
  popped : List (Place QueuedMessage)
  deriving Repr

namespace History

/-- Nothing has been pushed. -/
def empty : History := ⟨.empty, .empty, [], []⟩

def line (h : History) : Priority → Line QueuedMessage
  | .high => h.high
  | .low => h.low

/-- Without the numbers. -/
def queue (h : History) : PriorityQueue :=
  ⟨h.high.waiting.map Place.item, h.low.waiting.map Place.item⟩

/-- The history with another line at one level. -/
def setLine (h : History) (l : Line QueuedMessage) : Priority → History
  | .high => { h with high := l }
  | .low => { h with low := l }

/-- The message joins the line of its level, under the number of its push. -/
def push (h : History) (msg : QueuedMessage) : History :=
  { h.setLine ((h.line msg.priority).join QueuedMessage.coalesceKey h.pushed.length msg)
      msg.priority with pushed := h.pushed ++ [msg] }

/-- The first place of a line leaves it, if there is one. -/
def leave (h : History) (level : Priority) : Option History :=
  (h.line level).leave.map fun r => { h.setLine r.2 level with popped := h.popped ++ [r.1] }

/-- High before low, as `pop` of `queue.rs`. -/
def pop (h : History) : History := ((h.leave .high).or (h.leave .low)).getD h

/-- What waits at either level is cleared away. -/
def clear (h : History) : History := { h with high := h.high.clear, low := h.low.clear }

def step (h : History) : QueueOp → History
  | .push msg => h.push msg
  | .pop => h.pop
  | .clear => h.clear

/-- The history of some operations, from any other history on. -/
def record (h : History) (ops : List QueueOp) : History := ops.foldl step h

/-! ## The history is that of the queue -/

/-- A line takes a message as the level of the queue does. -/
theorem join_waiting (l : Line QueuedMessage) (n : Nat) (msg : QueuedMessage) :
    (l.join QueuedMessage.coalesceKey n msg).waiting.map Place.item
      = PriorityQueue.pushLevel (l.waiting.map Place.item) msg := by
  rcases @Line.join_cases _ _ QueuedMessage.coalesceKey _ l n msg with
    ⟨before, old, after, hold, hsame, hbefore, hjoin⟩ | ⟨hfree, hjoin⟩
  · rw [hjoin, hold]
    simp only [List.map_append, List.map_cons]
    exact (PriorityQueue.pushLevel_split hsame (List.forall_mem_map.mpr hbefore)).symm
  · rw [hjoin, PriorityQueue.pushLevel_end (List.forall_mem_map.mpr hfree), List.map_append]
    rfl

/-- Without the numbers a push is the push of the queue. -/
theorem push_queue (h : History) (msg : QueuedMessage) : (h.push msg).queue = h.queue.push msg := by
  unfold push PriorityQueue.push
  cases msg.priority <;> simp only [queue, setLine, line, join_waiting]

/-- A pop takes the first of the high line, or of the low line when nothing is high. -/
theorem pop_cases (h : History) :
    (∃ level p l, (h.line level).leave = some (p, l) ∧
      h.pop = { h.setLine l level with popped := h.popped ++ [p] } ∧
      h.queue.pop = some (p.item, h.pop.queue)) ∨
    (h.pop = h ∧ h.queue.pop = none) := by
  cases hhigh : h.high.leave with
  | some r =>
    obtain ⟨p, high⟩ := r
    obtain ⟨waiting, hwaiting, rfl⟩ := Line.leave_eq_some hhigh
    refine .inl ⟨.high, p, _, hhigh, ?_⟩
    have hpop : h.leave .high = some _ := congrArg (Option.map _) hhigh
    simp only [pop, hpop, Option.some_or, Option.getD_some, queue, hwaiting, PriorityQueue.pop,
      List.map_cons, setLine]
    exact ⟨trivial, trivial⟩
  | none =>
    have hempty := Line.leave_eq_none hhigh
    have hskip : h.leave .high = none := congrArg (Option.map _) hhigh
    cases hlow : h.low.leave with
    | some r =>
      obtain ⟨p, low⟩ := r
      obtain ⟨waiting, hwaiting, rfl⟩ := Line.leave_eq_some hlow
      refine .inl ⟨.low, p, _, hlow, ?_⟩
      have hpop : h.leave .low = some _ := congrArg (Option.map _) hlow
      simp only [pop, hskip, hpop, Option.none_or, Option.getD_some, queue, hempty, hwaiting,
        PriorityQueue.pop, List.map_cons, List.map_nil, setLine]
      exact ⟨trivial, trivial⟩
    | none =>
      have hnone := Line.leave_eq_none hlow
      have hstop : h.leave .low = none := congrArg (Option.map _) hlow
      refine .inr ?_
      simp only [pop, hskip, hstop, Option.none_or, Option.getD_none, queue, hempty, hnone,
        PriorityQueue.pop, List.map_nil]
      exact ⟨trivial, trivial⟩

/-- **The history forgets to the queue**, and to what its pops return. -/
theorem record_exec : ∀ (ops : List QueueOp) (h : History),
    (h.record ops).queue = (h.queue.exec ops).1 ∧
      (h.record ops).popped.map Place.item = h.popped.map Place.item ++ (h.queue.exec ops).2 ∧
      (h.record ops).pushed = h.pushed ++ pushedBy ops := by
  intro ops
  induction ops with
  | nil =>
    intro h
    exact ⟨rfl, (List.append_nil _).symm, (List.append_nil _).symm⟩
  | cons op ops ih =>
    intro h
    obtain ⟨hqueue, hpopped, hpushed⟩ := ih (h.step op)
    cases op with
    | push msg =>
      change _ = ((h.push msg).queue.exec ops).1 at hqueue
      change _ = (h.push msg).popped.map Place.item ++ ((h.push msg).queue.exec ops).2 at hpopped
      have hsame : (h.push msg).popped = h.popped := by
        unfold push
        cases msg.priority <;> rfl
      have hpush : (h.push msg).pushed = h.pushed ++ [msg] := rfl
      change _ = (h.push msg).pushed ++ pushedBy ops at hpushed
      rw [push_queue] at hqueue hpopped
      rw [hsame] at hpopped
      rw [hpush, List.append_assoc] at hpushed
      exact ⟨hqueue, hpopped, hpushed⟩
    | pop =>
      -- a pop takes the first place of the upper level that is not empty
      change _ = (h.pop.queue.exec ops).1 at hqueue
      change _ = h.pop.popped.map Place.item ++ (h.pop.queue.exec ops).2 at hpopped
      change _ = h.pop.pushed ++ pushedBy ops at hpushed
      rw [PriorityQueue.exec]
      rcases pop_cases h with ⟨level, p, l, _, hpop, hq⟩ | ⟨hpop, hq⟩
      · have hsame : h.pop.popped = h.popped ++ [p] ∧ h.pop.pushed = h.pushed := by
          rw [hpop]
          cases level <;> exact ⟨rfl, rfl⟩
        rw [hsame.1, List.map_append, List.append_assoc] at hpopped
        rw [hsame.2] at hpushed
        rw [hq]
        exact ⟨hqueue, hpopped, hpushed⟩
      · rw [hpop] at hqueue hpopped hpushed
        rw [hq]
        exact ⟨hqueue, hpopped, hpushed⟩
    | clear => exact ⟨hqueue, hpopped, hpushed⟩

/-! ## What the history keeps -/

/-- The pushes of a level, with their numbers. -/
def arrivals (level : Priority) (pushed : List QueuedMessage) : List (Nat × QueuedMessage) :=
  (pushed.zipIdx.map Prod.swap).filter (·.2.priority = level)

/-- A push arrives at the level of its message. -/
theorem arrivals_same (pushed : List QueuedMessage) (msg : QueuedMessage) :
    arrivals msg.priority (pushed ++ [msg])
      = arrivals msg.priority pushed ++ [(pushed.length, msg)] := by
  simp [arrivals, List.zipIdx_append]

/-- It does not arrive at the other one. -/
theorem arrivals_other (pushed : List QueuedMessage) {msg : QueuedMessage} {level : Priority}
    (h : msg.priority ≠ level) : arrivals level (pushed ++ [msg]) = arrivals level pushed := by
  simp [arrivals, List.zipIdx_append, h]

/-- An arrival is a push, by its number. -/
theorem mem_arrivals {level : Priority} {pushed : List QueuedMessage} {n : Nat}
    {msg : QueuedMessage} :
    (n, msg) ∈ arrivals level pushed ↔ pushed[n]? = some msg ∧ msg.priority = level := by
  unfold arrivals
  rw [List.mem_filter, decide_eq_true_iff]
  refine and_congr_left fun _ => ?_
  rw [List.mem_map]
  refine ⟨?_, fun hmem => ⟨(msg, n), List.mem_zipIdx_iff_getElem?.mpr hmem, rfl⟩⟩
  rintro ⟨⟨m, i⟩, hmem, heq⟩
  cases heq
  exact List.mem_zipIdx_iff_getElem?.mp hmem

/-- No two pushes have the same number. -/
theorem arrivals_nodup (level : Priority) (pushed : List QueuedMessage) :
    ((arrivals level pushed).map Prod.fst).Nodup := by
  have hsub : ((arrivals level pushed).map Prod.fst).Sublist
      ((pushed.zipIdx.map Prod.swap).map Prod.fst) := List.filter_sublist.map _
  refine List.Nodup.sublist hsub ?_
  have hnumbers : (pushed.zipIdx.map Prod.swap).map Prod.fst = List.range' 0 pushed.length := by
    rw [List.map_map, ← List.zipIdx_map_snd 0 pushed]
    rfl
  rw [hnumbers]
  exact List.nodup_range'

/-- Both lines are kept, and what was popped is what left them, each level in its order. -/
structure Kept (h : History) : Prop where
  line : ∀ level, (h.line level).Kept QueuedMessage.coalesceKey h.pushed.length
    (arrivals level h.pushed)
  popped : ∀ level, h.popped.filter (·.item.priority = level) = (h.line level).left

theorem kept_empty : Kept empty :=
  ⟨fun level => by cases level <;> exact Line.kept_empty, fun level => by cases level <;> rfl⟩

/-- A message is in the line of its own level. -/
theorem Kept.priority {h : History} (hk : h.Kept) {level : Priority} {p : Place QueuedMessage}
    (hp : p ∈ (h.line level).all) : p.item.priority = level := by
  have hmem := (hk.line level).arrival_mem hp
  simpa using (List.mem_filter.mp hmem).2

theorem setLine_line (h : History) (l : Line QueuedMessage) (level level' : Priority) :
    (h.setLine l level).line level' = if level = level' then l else h.line level' := by
  cases level <;> cases level' <;> rfl

/-- A push changes the line of its level and no other. -/
theorem push_line (h : History) (msg : QueuedMessage) (level : Priority) :
    (h.push msg).line level = if msg.priority = level then
      (h.line msg.priority).join QueuedMessage.coalesceKey h.pushed.length msg
      else h.line level := by
  rw [← setLine_line]
  unfold push
  cases level <;> rfl

/-- A push keeps the lines. -/
theorem Kept.push {h : History} (hk : h.Kept) (msg : QueuedMessage) : (h.push msg).Kept := by
  have hleft : ∀ level, ((h.push msg).line level).left = (h.line level).left := by
    intro level
    rw [push_line]
    split
    next heq =>
      rw [heq]
      rcases @Line.join_cases _ _ QueuedMessage.coalesceKey _ (h.line level) h.pushed.length msg
        with ⟨_, _, _, _, _, _, hjoin⟩ | ⟨_, hjoin⟩ <;> rw [hjoin]
    next => rfl
  have hsame : (h.push msg).popped = h.popped := by
    unfold History.push
    cases msg.priority <;> rfl
  refine ⟨fun level => ?_, fun level => by rw [hsame, hleft, hk.popped]⟩
  have hlen : (h.push msg).pushed.length = h.pushed.length + 1 := List.length_append
  rw [push_line, hlen]
  show Line.Kept _ _ (arrivals level (h.pushed ++ [msg])) _
  split
  next heq =>
    rw [← heq, arrivals_same]
    exact (hk.line _).join msg
  next hother =>
    rw [arrivals_other _ hother]
    exact (hk.line level).skip

/-- A pop changes the line that it takes from. -/
theorem pop_line {h : History} {level : Priority} {p : Place QueuedMessage}
    {l : Line QueuedMessage} (hpop : h.pop = { h.setLine l level with popped := h.popped ++ [p] })
    (level' : Priority) : h.pop.line level' = if level = level' then l else h.line level' := by
  rw [hpop, ← setLine_line]
  cases level' <;> rfl

/-- A pop pushes nothing. -/
theorem pop_pushed (h : History) : h.pop.pushed = h.pushed := by
  rcases pop_cases h with ⟨level, p, l, _, hpop, _⟩ | ⟨hpop, _⟩
  · rw [hpop]
    cases level <;> rfl
  · rw [hpop]

/-- A pop keeps the lines. -/
theorem Kept.pop {h : History} (hk : h.Kept) : h.pop.Kept := by
  rcases pop_cases h with ⟨level, p, l, hleave, hpop, _⟩ | ⟨hpop, _⟩
  · obtain ⟨waiting, hwaiting, hl⟩ := Line.leave_eq_some hleave
    have hp : p.item.priority = level :=
      hk.priority (Line.waiting_sub_all (by rw [hwaiting]; exact List.mem_cons_self))
    have hpopped : h.pop.popped = h.popped ++ [p] := by rw [hpop]
    refine ⟨fun level' => ?_, fun level' => ?_⟩
    · rw [pop_line hpop, pop_pushed]
      split
      next heq =>
        rw [← heq]
        exact (hk.line level).leave hleave
      next => exact hk.line level'
    · rw [hpopped, List.filter_append, hk.popped, pop_line hpop]
      split
      next heq =>
        rw [← heq, hl]
        simp [hp]
      next hother => simp [hp, hother]
  · rw [hpop]
    exact hk

/-- Clearing keeps the lines. -/
theorem Kept.clear {h : History} (hk : h.Kept) : h.clear.Kept :=
  ⟨fun level => by cases level <;> exact (hk.line _).clear,
    fun level => by cases level <;> exact hk.popped _⟩

/-- Every operation keeps the lines. -/
theorem Kept.step {h : History} (hk : h.Kept) (op : QueueOp) : (h.step op).Kept := by
  cases op with
  | push msg => exact hk.push msg
  | pop => exact hk.pop
  | clear => exact hk.clear

/-- **Any operations keep the order.** -/
theorem Kept.record : ∀ (ops : List QueueOp) {h : History}, h.Kept → (h.record ops).Kept := by
  intro ops
  induction ops with
  | nil => exact fun hk => hk
  | cons op ops ih => exact fun hk => ih (hk.step op)

end History

/-! ## Any operations of a new queue -/

/-- The queue after some operations. -/
def queueAfter (ops : List QueueOp) : PriorityQueue := (PriorityQueue.new.exec ops).1

/-- What the pops returned, in order. -/
def poppedBy (ops : List QueueOp) : List QueuedMessage := (PriorityQueue.new.exec ops).2

/-- What happened in them. -/
def historyOf (ops : List QueueOp) : History := History.empty.record ops

/-- The slots of a level that were popped, in order. -/
def History.poppedAt (h : History) (level : Priority) : List (Place QueuedMessage) :=
  h.popped.filter (·.item.priority = level)

/-- What a push does to the level it is for. -/
def PushesOnto (msg : QueuedMessage) (queue queue' : List QueuedMessage) : Prop :=
  (∃ before old after, queue = before ++ old :: after ∧
    Line.SameKey QueuedMessage.coalesceKey msg old ∧ queue' = before ++ msg :: after) ∨
  ((∀ m ∈ queue, ¬ Line.SameKey QueuedMessage.coalesceKey msg m) ∧ queue' = queue ++ [msg])

/-- The order and the losses of a queue, told by its history. -/
structure InOrder (ops : List QueueOp) : Prop where
  /-- The history is one of these operations. -/
  queue : (historyOf ops).queue = queueAfter ops
  popped : (historyOf ops).popped.map Place.item = poppedBy ops
  pushed : (historyOf ops).pushed = pushedBy ops
  /-- A low message is popped only when no high one is queued. -/
  high_first : ∀ msg q, (queueAfter ops).pop = some (msg, q) → msg.priority = .low →
    (queueAfter ops).high = []
  /-- Slots are popped in the order of the pushes that opened them; the later ones wait. -/
  sorted : ∀ level, (((historyOf ops).poppedAt level ++ ((historyOf ops).line level).waiting).map
    Place.opened).Pairwise (· < ·)
  /-- A slot was opened by a push of its level and key. -/
  opened : ∀ level, ∀ p ∈ (historyOf ops).poppedAt level ++ ((historyOf ops).line level).waiting,
    ∃ msg, (p.opened, msg) ∈ History.arrivals level (pushedBy ops) ∧
      msg.coalesceKey = p.item.coalesceKey
  push : ∀ msg, PushesOnto msg ((queueAfter ops).level msg.priority)
    (((queueAfter ops).push msg).level msg.priority)
  /-- A push changes nothing at the other level. -/
  push_other : ∀ msg level, msg.priority ≠ level →
    ((queueAfter ops).push msg).level level = (queueAfter ops).level level
  distinct : ∀ level, (((queueAfter ops).level level).filterMap QueuedMessage.coalesceKey).Nodup
  /-- Every push was popped, replaced or cleared or waits, and only one of these. -/
  counted : ∀ level, (((historyOf ops).poppedAt level
    ++ ((historyOf ops).line level).replaced.map Prod.fst ++ ((historyOf ops).line level).cleared
    ++ ((historyOf ops).line level).waiting).map fun p => (p.arrival, p.item)).Perm
      (History.arrivals level (pushedBy ops))
  /-- What was replaced has a key, and gave its slot to a later push with the key. -/
  replaced : ∀ level, ∀ r ∈ ((historyOf ops).line level).replaced,
    Line.SameKey QueuedMessage.coalesceKey r.1.item r.2.item ∧ r.1.opened = r.2.opened ∧
      r.1.arrival < r.2.arrival
  once : ((historyOf ops).popped.map Place.arrival).Nodup

section

variable {ops : List QueueOp}

/-- So the lines are kept after any operations. -/
theorem historyOf_kept (ops : List QueueOp) : (historyOf ops).Kept :=
  History.kept_empty.record ops

/-- Without the numbers the history is the queue. -/
theorem historyOf_queue (ops : List QueueOp) : (historyOf ops).queue = queueAfter ops :=
  (History.record_exec ops .empty).1

theorem historyOf_pushed (ops : List QueueOp) : (historyOf ops).pushed = pushedBy ops :=
  (History.record_exec ops .empty).2.2

/-- What waits at a level is what waits in its line. -/
theorem queueAfter_level (ops : List QueueOp) (level : Priority) :
    (queueAfter ops).level level = ((historyOf ops).line level).waiting.map Place.item := by
  rw [← historyOf_queue]
  cases level <;> rfl

/-- A message waits at the level of its priority. -/
theorem level_priority {level : Priority} {msg : QueuedMessage}
    (h : msg ∈ (queueAfter ops).level level) : msg.priority = level := by
  rw [queueAfter_level] at h
  obtain ⟨p, hp, rfl⟩ := List.mem_map.mp h
  exact (historyOf_kept ops).priority (Line.waiting_sub_all hp)

/-- A push appends the message or replaces the one with its key. -/
theorem pushLevel_onto (queue : List QueuedMessage) (msg : QueuedMessage) :
    PushesOnto msg queue (PriorityQueue.pushLevel queue msg) := by
  cases hfind : queue.find? fun m => Line.SameKey QueuedMessage.coalesceKey msg m with
  | none =>
    have hfree : ∀ m ∈ queue, ¬ Line.SameKey QueuedMessage.coalesceKey msg m := by
      simpa using List.find?_eq_none.mp hfind
    exact .inr ⟨hfree, PriorityQueue.pushLevel_end hfree⟩
  | some old =>
    obtain ⟨hsame, before, after, rfl, hbefore⟩ := List.find?_eq_some_iff_append.mp hfind
    have hsame : Line.SameKey QueuedMessage.coalesceKey msg old := of_decide_eq_true hsame
    refine .inl ⟨before, old, after, rfl, hsame, PriorityQueue.pushLevel_split hsame ?_⟩
    simpa using hbefore

/-- Of one level every push is in one place of the books. -/
theorem all_nodup (ops : List QueueOp) (level : Priority) :
    (((historyOf ops).line level).all.map Place.arrival).Nodup := by
  have hperm := (((historyOf_kept ops).line level).counted.map Prod.fst)
  rw [List.map_map] at hperm
  exact hperm.nodup_iff.mpr (History.arrivals_nodup level _)

/-- **No push is popped twice.** -/
theorem popped_nodup (ops : List QueueOp) : ((historyOf ops).popped.map Place.arrival).Nodup := by
  have hk := historyOf_kept ops
  have hsub : ∀ level, ∀ p ∈ (historyOf ops).poppedAt level,
      (historyOf ops).pushed[p.arrival]? = some p.item ∧ p.item.priority = level := by
    intro level p hp
    rw [History.poppedAt, hk.popped] at hp
    refine History.mem_arrivals.mp ((hk.line level).arrival_mem ?_)
    simp only [Line.all, List.append_assoc]
    exact List.mem_append_left _ hp
  have hone : ∀ level, (((historyOf ops).poppedAt level).map Place.arrival).Nodup := by
    intro level
    rw [History.poppedAt, hk.popped]
    refine (all_nodup ops level).sublist (List.Sublist.map _ ?_)
    simp only [Line.all, List.append_assoc]
    exact List.sublist_append_left _ _
  -- the pops are those of the two levels
  have hlevels : ((historyOf ops).poppedAt .high ++ (historyOf ops).poppedAt .low).Perm
      (historyOf ops).popped := by
    have hlow : (historyOf ops).poppedAt .low
        = (historyOf ops).popped.filter fun p => !decide (p.item.priority = .high) := by
      refine List.filter_congr fun p _ => ?_
      cases p.item.priority <;> rfl
    rw [hlow]
    exact List.filter_append_perm _ _
  refine (hlevels.map Place.arrival).nodup_iff.mp ?_
  rw [List.map_append]
  refine List.Nodup.append (hone .high) (hone .low) fun n hhigh hlow => ?_
  obtain ⟨p, hp, rfl⟩ := List.mem_map.mp hhigh
  obtain ⟨p', hp', heq⟩ := List.mem_map.mp hlow
  obtain ⟨hitem, hprio⟩ := hsub .high p hp
  obtain ⟨hitem', hprio'⟩ := hsub .low p' hp'
  rw [heq, hitem] at hitem'
  rw [← Option.some.inj hitem', hprio] at hprio'
  cases hprio'

/-- **Any operations are in order.** -/
theorem inOrder (ops : List QueueOp) : InOrder ops := by
  have hk := historyOf_kept ops
  have hline : ∀ level, ((historyOf ops).line level).Kept QueuedMessage.coalesceKey
      (pushedBy ops).length (History.arrivals level (pushedBy ops)) := by
    rw [← historyOf_pushed]
    exact hk.line
  have hleft : ∀ level, (historyOf ops).poppedAt level = ((historyOf ops).line level).left :=
    hk.popped
  refine ⟨historyOf_queue ops, ?_, historyOf_pushed ops, ?_, ?_, ?_, ?_, ?_, ?_, ?_, ?_, ?_⟩
  · exact (History.record_exec ops .empty).2.1
  · intro msg q hpop hlow
    -- a low message comes out only when no high one waits
    cases hhigh : (queueAfter ops).high with
    | nil => rfl
    | cons first high =>
      simp only [PriorityQueue.pop, hhigh, Option.some.injEq, Prod.mk.injEq] at hpop
      have hmem : msg ∈ (queueAfter ops).level .high := by
        show msg ∈ (queueAfter ops).high
        rw [hhigh, hpop.1]
        exact List.mem_cons_self
      rw [level_priority hmem] at hlow
      cases hlow
  · intro level
    rw [hleft]
    exact (hline level).sorted
  · intro level
    rw [hleft]
    exact (hline level).opened
  · intro msg
    unfold PriorityQueue.push
    cases msg.priority <;> exact pushLevel_onto _ msg
  · intro msg level hother
    unfold PriorityQueue.push
    cases hmsg : msg.priority <;> cases level <;> first | rfl | exact absurd hmsg hother
  · intro level
    rw [queueAfter_level, List.filterMap_map]
    exact (hline level).distinct
  · intro level
    rw [hleft]
    exact (hline level).counted
  · exact fun level => (hline level).takeovers
  · exact popped_nodup ops

end

/-! ## The queue of a client -/

/-- Operations in a row. -/
theorem exec_append (q : PriorityQueue) (ops more : List QueueOp) :
    (q.exec (ops ++ more)).1 = ((q.exec ops).1.exec more).1 := by
  induction ops generalizing q with
  | nil => rfl
  | cons op ops ih =>
    cases op with
    | push msg => exact ih _
    | clear => exact ih _
    | pop =>
      simp only [List.cons_append, PriorityQueue.exec]
      cases q.pop with
      | none => exact ih _
      | some r => exact ih _

/-- The queue is that of some operations. -/
def Reaches (_ : List Action) (c : Client) : Prop := ∃ ops, c.queue = queueAfter ops

/-- A step of the client is some operations on its queue. -/
theorem Step.reaches {pre actions : List Action} {c c' : Client} (hc : Reaches pre c)
    (h : Step c actions c') : Reaches (pre ++ actions) c' := by
  obtain ⟨ops, hops⟩ := hc
  cases h with
  | frame hframe =>
    rw [(handleFrame_spec hframe).1]
    exact ⟨ops, hops⟩
  | push msg =>
    refine ⟨ops ++ [.push msg], ?_⟩
    rw [queueAfter, exec_append, ← queueAfter, ← hops]
    rfl
  | clear =>
    refine ⟨ops ++ [.clear], ?_⟩
    rw [queueAfter, exec_append]
    rfl
  | write now error hp hpop =>
    refine ⟨ops ++ [.pop], ?_⟩
    rw [queueAfter, exec_append, ← queueAfter, ← hops, PriorityQueue.exec, hpop]
    rfl
  | _ => exact ⟨ops, hops⟩

/-- The reads of a registration are keyed by its command. -/
def PeriodicEntry.Keyed (entry : PeriodicEntry) : Prop :=
  entry.coalesceKey = "periodic_" ++ toString entry.command

/-- Every registration keeps its own key. -/
theorem keyed_schedule (op : Call) (entries : List PeriodicEntry)
    (h : ∀ entry ∈ entries, entry.Keyed) : ∀ entry ∈ op.schedule entries, entry.Keyed := by
  cases op with
  | registerPeriodic command interval storageCount responseTimeout =>
    exact List.forall_mem_append.mpr ⟨fun entry hentry => h entry (List.mem_filter.mp hentry).1,
      List.forall_mem_singleton.mpr rfl⟩
  | unregisterPeriodic command => exact fun entry hentry => h entry (List.mem_filter.mp hentry).1
  | poll io => exact List.forall_mem_map.mpr h
  | _ => exact h

/-- Where no key is queued twice, at most one message has the key. -/
theorem filter_key_le_one {queue : List QueuedMessage}
    (h : (queue.filterMap QueuedMessage.coalesceKey).Nodup) (key : String) :
    (queue.filter (·.coalesceKey = some key)).length ≤ 1 := by
  have hcount := List.nodup_iff_count_le_one.mp h key
  rw [List.count_filterMap, List.countP_eq_length_filter] at hcount
  refine le_trans (Nat.le_of_eq ?_) hcount
  congr 1
  exact List.filter_congr fun m _ => by simp [beq_eq_decide]

/-- **The queue is in order**, after any operations, and the low level of a client holds at
most one periodic read of a command, however long the link takes. -/
theorem queue_in_order :
    (∀ ops, InOrder ops) ∧
      ∀ config lastInstant calls c actions,
        (withConfig config).run lastInstant calls = some (c, actions) →
        (∀ entry ∈ c.periodic, entry.message.coalesceKey
          = some ("periodic_" ++ toString entry.command)) ∧
        ∀ command : UInt8, (c.queue.low.filter
          (·.coalesceKey = some ("periodic_" ++ toString command))).length ≤ 1 := by
  refine ⟨inOrder, fun config lastInstant calls c actions hrun => ⟨fun entry hentry => ?_,
    fun command => ?_⟩⟩
  · exact congrArg some (run_periodic keyed_schedule hrun nofun entry hentry)
  · obtain ⟨ops, hops⟩ : Reaches ([] ++ actions) c :=
      Steps.invariant Reaches Step.reaches (run_steps hrun) ⟨[], rfl⟩
    rw [hops]
    exact filter_key_le_one ((inOrder ops).distinct .low) _

/-- The device is silent, and two more reads fall due. -/
theorem queue_in_order_silent :
    ∃ c actions, (withConfig ⟨2000⟩).run 100000 [.registerPeriodic 7 10 3 none,
        .poll ⟨[], 5, 5, 5, none⟩, .poll ⟨[], 16, 16, 16, none⟩, .poll ⟨[], 30, 30, 30, none⟩]
          = some (c, actions) ∧
      c.queue.low.length = 1 ∧ (c.queue.low.filter
        (·.coalesceKey = some ("periodic_" ++ toString (7 : UInt8)))).length ≤ 1 :=
  ⟨_, _, rfl, rfl, (queue_in_order.2 ⟨2000⟩ 100000 [.registerPeriodic 7 10 3 none,
    .poll ⟨[], 5, 5, 5, none⟩, .poll ⟨[], 16, 16, 16, none⟩, .poll ⟨[], 30, 30, 30, none⟩]
    _ _ rfl).2 7⟩

end ProtoEmb.Client
