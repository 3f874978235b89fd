import Mathlib.Data.List.Induction
import ProtoEmb.Client.Order

/-!
# One message per key

In `queue.rs` `coalesce_key` is documented as "only one message with this key can exist in the
queue at a time", but `push` looks for the key only at the level of the message it is given. So
the key is queued once, with the message pushed last, exactly as long as no message is pushed
while its key is queued at the other level (`keyedOnce_iff`).
-/

namespace ProtoEmb.Client

open ProtoEmb.Lib

/-- There are two levels. -/
def Priority.other : Priority → Priority
  | .high => .low
  | .low => .high

/-- Of each key the queue holds at most one message, and no later push carries the key. -/
structure KeyedOnce (ops : List QueueOp) : Prop where
  one : ∀ key : String, (((queueAfter ops).high ++ (queueAfter ops).low).filter
    (·.coalesceKey = some key)).length ≤ 1
  latest : ∀ level, ∀ p ∈ ((historyOf ops).line level).waiting, ∀ n msg,
    (pushedBy ops)[n]? = some msg → p.arrival < n →
      ¬ Line.SameKey QueuedMessage.coalesceKey p.item msg

/-- No message is pushed while its key is queued at the other level. -/
def KeysStay (ops : List QueueOp) : Prop :=
  ∀ before msg after, ops = before ++ .push msg :: after →
    ∀ m ∈ (queueAfter before).level msg.priority.other,
      ¬ Line.SameKey QueuedMessage.coalesceKey msg m

/-- What waits at a level is newer than the pushes of its key to the other level. -/
def History.Newest (h : History) : Prop :=
  ∀ level, ∀ p ∈ (h.line level).waiting, ∀ n msg, h.pushed[n]? = some msg →
    msg.priority = level.other → p.arrival < n →
      ¬ Line.SameKey QueuedMessage.coalesceKey p.item msg

namespace History

variable {h : History}

/-- After a push a place in the line was there before or holds the new message. -/
theorem join_waiting_mem {l : Line QueuedMessage} {n : Nat} {msg : QueuedMessage}
    {p : Place QueuedMessage}
    (hp : p ∈ (l.join QueuedMessage.coalesceKey n msg).waiting) :
    p ∈ l.waiting ∨ p.arrival = n := by
  rcases @Line.join_cases _ _ QueuedMessage.coalesceKey _ l n msg with
    ⟨before, old, after, hold, _, _, hjoin⟩ | ⟨_, hjoin⟩
  · rw [hjoin] at hp
    rw [hold]
    rcases List.mem_append.mp hp with hp | hp
    · exact .inl (List.mem_append_left _ hp)
    · rcases List.mem_cons.mp hp with rfl | hp
      · exact .inr rfl
      · exact .inl (List.mem_append_right _ (List.mem_cons_of_mem _ hp))
  · rw [hjoin] at hp
    rcases List.mem_append.mp hp with hp | hp
    · exact .inl hp
    · rw [List.mem_singleton.mp hp]
      exact .inr rfl

/-- A push whose key is not queued at the other level keeps the newest message of each key. -/
theorem Newest.push (hn : h.Newest) {msg : QueuedMessage}
    (hstay : ∀ m ∈ h.queue.level msg.priority.other,
      ¬ Line.SameKey QueuedMessage.coalesceKey msg m) : (h.push msg).Newest := by
  intro level p hp n m hm hlevel hlater hsame
  rw [show (h.push msg).pushed = h.pushed ++ [msg] from rfl] at hm
  rw [push_line] at hp
  rcases Nat.lt_or_ge n h.pushed.length with hold | hnew
  · -- an earlier push, so the place is no newer than it
    rw [List.getElem?_append_left hold] at hm
    have hwaits : p ∈ (h.line level).waiting := by
      split at hp
      next heq =>
        rw [heq] at hp
        rcases join_waiting_mem hp with hp | hp
        · exact hp
        · omega
      next => exact hp
    exact hn level p hwaits n m hm hlevel hlater hsame
  · -- this push, which is to the other level
    rw [List.getElem?_append_right hnew] at hm
    obtain rfl : msg = m := by
      have hmem := List.mem_of_getElem? hm
      exact (List.mem_singleton.mp hmem).symm
    have hother : msg.priority ≠ level := by
      rw [hlevel]
      cases level <;> intro heq <;> cases heq
    rw [if_neg hother] at hp
    refine hstay p.item ?_ hsame.symm
    have hback : msg.priority.other = level := by
      rw [hlevel]
      cases level <;> rfl
    rw [hback]
    cases level <;> exact List.mem_map_of_mem hp

/-- What waits after a pop waited before. -/
theorem pop_waiting {level : Priority} {p : Place QueuedMessage}
    (hp : p ∈ (h.pop.line level).waiting) : p ∈ (h.line level).waiting := by
  rcases pop_cases h with ⟨level', first, l, hleave, hpop, _⟩ | ⟨hpop, _⟩
  · obtain ⟨waiting, hwaiting, rfl⟩ := Line.leave_eq_some hleave
    rw [pop_line hpop] at hp
    split at hp
    next heq =>
      rw [← heq, hwaiting]
      exact List.mem_cons_of_mem _ hp
    next => exact hp
  · rw [hpop] at hp
    exact hp

/-- A pop keeps it. -/
theorem Newest.pop (hn : h.Newest) : h.pop.Newest := by
  intro level p hp
  rw [pop_pushed]
  exact hn level p (pop_waiting hp)

/-- An empty queue has nothing to keep. -/
theorem newest_clear : h.clear.Newest := by
  intro level p hp
  cases level <;> cases hp

end History

theorem historyOf_append (ops more : List QueueOp) :
    historyOf (ops ++ more) = (historyOf ops).record more := List.foldl_append

/-- **While keys stay at their level**, what waits is the newest of its key. -/
theorem historyOf_newest {ops : List QueueOp} (h : KeysStay ops) : (historyOf ops).Newest := by
  induction ops using List.reverseRecOn with
  | nil =>
    intro level p hp
    cases level <;> cases hp
  | append_singleton ops op ih =>
    have hbefore : KeysStay ops := by
      intro before msg after hcut
      exact h before msg (after ++ [op]) (by rw [hcut, List.append_assoc, List.cons_append])
    have hn := ih hbefore
    rw [historyOf_append]
    cases op with
    | push msg =>
      refine hn.push ?_
      rw [historyOf_queue]
      exact h ops msg [] rfl
    | pop => exact hn.pop
    | clear => exact History.newest_clear

/-- A key does not wait at both levels. -/
theorem disjoint_of_newest {ops : List QueueOp} (hn : (historyOf ops).Newest)
    {p p' : Place QueuedMessage} (hp : p ∈ ((historyOf ops).line .high).waiting)
    (hp' : p' ∈ ((historyOf ops).line .low).waiting) :
    ¬ Line.SameKey QueuedMessage.coalesceKey p.item p'.item := by
  intro hsame
  have hk := historyOf_kept ops
  obtain ⟨hpush, hhigh⟩ := History.mem_arrivals.mp
    ((hk.line .high).arrival_mem (Line.waiting_sub_all hp))
  obtain ⟨hpush', hlow⟩ := History.mem_arrivals.mp
    ((hk.line .low).arrival_mem (Line.waiting_sub_all hp'))
  -- the later of the two pushes is newer than what waits at the other level
  rcases Nat.lt_trichotomy p.arrival p'.arrival with hlt | heq | hgt
  · exact hn .high p hp _ _ hpush' hlow hlt hsame
  · rw [heq, hpush'] at hpush
    rw [Option.some.inj hpush, hhigh] at hlow
    cases hlow
  · exact hn .low p' hp' _ _ hpush hhigh hgt hsame.symm

/-- Then a key is queued once, with the message pushed last. -/
theorem keyedOnce_of_newest {ops : List QueueOp} (hn : (historyOf ops).Newest) :
    KeyedOnce ops where
  one key := by
    have horder := inOrder ops
    have hnodup : (((queueAfter ops).high ++ (queueAfter ops).low).filterMap
        QueuedMessage.coalesceKey).Nodup := by
      rw [List.filterMap_append]
      refine List.Nodup.append (horder.distinct .high) (horder.distinct .low) fun k hhigh hlow => ?_
      change k ∈ ((queueAfter ops).level .high).filterMap QueuedMessage.coalesceKey at hhigh
      change k ∈ ((queueAfter ops).level .low).filterMap QueuedMessage.coalesceKey at hlow
      rw [queueAfter_level, List.filterMap_map] at hhigh hlow
      obtain ⟨p, hp, hpk⟩ := List.mem_filterMap.mp hhigh
      obtain ⟨p', hp', hpk'⟩ := List.mem_filterMap.mp hlow
      change p.item.coalesceKey = some k at hpk
      change p'.item.coalesceKey = some k at hpk'
      refine disjoint_of_newest hn hp hp' ⟨?_, hpk'.trans hpk.symm⟩
      rw [hpk]
      exact Option.some_ne_none k
    exact filter_key_le_one hnodup key
  latest level p hp n msg hmsg hlater := by
    have hpushed := historyOf_pushed ops
    by_cases hlevel : msg.priority = level
    · have hmem : (n, msg) ∈ History.arrivals level (historyOf ops).pushed :=
        History.mem_arrivals.mpr ⟨by rw [hpushed]; exact hmsg, hlevel⟩
      exact ((historyOf_kept ops).line level).newest p hp _ hmem hlater
    · refine hn level p hp n msg (by rw [hpushed]; exact hmsg) ?_ hlater
      cases hmp : msg.priority <;> cases level <;> first | rfl | exact absurd hmp hlevel

/-- After a push the message is at its level. -/
theorem mem_push (q : PriorityQueue) (msg : QueuedMessage) :
    msg ∈ (q.push msg).level msg.priority := by
  have hmem : ∀ queue, msg ∈ PriorityQueue.pushLevel queue msg := by
    intro queue
    rcases pushLevel_onto queue msg with ⟨before, old, after, _, _, heq⟩ | ⟨_, heq⟩
    · rw [heq]
      exact List.mem_append_right _ List.mem_cons_self
    · rw [heq]
      exact List.mem_append_right _ (List.mem_singleton_self msg)
  unfold PriorityQueue.push
  cases msg.priority <;> exact hmem _

/-- A key that is at both levels is queued twice. -/
theorem two_le_filter {q : PriorityQueue} {level : Priority} {m m' : QueuedMessage}
    (hm : m ∈ q.level level) (hm' : m' ∈ q.level level.other) {key : String}
    (hkey : m.coalesceKey = some key) (hkey' : m'.coalesceKey = some key) :
    2 ≤ ((q.high ++ q.low).filter (·.coalesceKey = some key)).length := by
  have hone : ∀ level, ∀ m ∈ q.level level, m.coalesceKey = some key →
      1 ≤ ((q.level level).filter (·.coalesceKey = some key)).length := by
    intro level m hm hkey
    exact List.length_pos_of_mem (List.mem_filter.mpr ⟨hm, decide_eq_true hkey⟩)
  have h₁ := hone level m hm hkey
  have h₂ := hone level.other m' hm' hkey'
  rw [List.filter_append, List.length_append]
  cases level with
  | high => exact Nat.add_le_add h₁ h₂
  | low => exact Nat.add_le_add h₂ h₁

/-- **A key is queued once in every state, with its last message, if and only if no message
is pushed while its key is queued at the other level.** -/
theorem keyedOnce_iff (ops : List QueueOp) :
    (∀ before after, ops = before ++ after → KeyedOnce before) ↔ KeysStay ops := by
  refine ⟨fun honce before msg after hcut m hm hsame => ?_, fun hstay before after hcut => ?_⟩
  · have hpush := honce (before ++ [.push msg]) after (by
      rw [hcut, List.append_assoc, List.singleton_append])
    have hqueue : queueAfter (before ++ [.push msg]) = (queueAfter before).push msg :=
      exec_append .new before [.push msg]
    obtain ⟨key, hkey⟩ := Option.ne_none_iff_exists'.mp hsame.1
    have hother : msg.priority ≠ msg.priority.other := by cases msg.priority <;> exact nofun
    have htwo := two_le_filter (mem_push (queueAfter before) msg)
      (by rw [(inOrder before).push_other msg _ hother]; exact hm) hkey (hsame.2.trans hkey)
    rw [← hqueue] at htwo
    have hone := hpush.one key
    omega
  · refine keyedOnce_of_newest (historyOf_newest fun before' msg after' hcut' => ?_)
    exact hstay before' msg (after' ++ after) (by
      rw [hcut, hcut', List.append_assoc, List.cons_append])

/-- A periodic read waits at the low level when the same read is asked for at the high one. -/
theorem key_queued_twice :
    ¬ KeyedOnce
        [.push (read 7 .low (some "periodic_7")), .push (read 7 .high (some "periodic_7"))] := by
  intro h
  have hone := h.one "periodic_7"
  revert hone
  decide

end ProtoEmb.Client
