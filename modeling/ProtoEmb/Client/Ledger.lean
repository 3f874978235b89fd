import ProtoEmb.Client.Client
import Mathlib.Data.List.Perm.Basic

/-!
# The books of a client

`client.rs` forgets what it has done. The `Ledger` is kept from the actions of a client alone:
each message that was pushed has a `Ticket`, the message and how many were pushed before it, and a
ticket is in one place. It waits in one of the two queues, it is pending, or it is settled with
its `Fate`. `Ledger.Accounted` says so, and why each fate is what it is; every action that a
client can do keeps the books in order (`Accounted.push`, `Accounted.settlePending`, …).
-/

namespace ProtoEmb.Client

open ProtoEmb.Framing

/-- A message and how many were pushed before it. -/
abbrev Ticket := QueuedMessage × Nat

/-- How a message is done with. -/
inductive Fate where
  /-- By a later message with the same key and priority. -/
  | replaced (byId : Nat)
  | cleared
  /-- The write failed. -/
  | dropped (error : String)
  | ended (frame : ParsedFrame)
  | timedOut (sentAt now : Nat)
  deriving DecidableEq, Repr

/-- A ticket, its fate, and after how many actions it met it. -/
structure Settled where
  ticket : Ticket
  fate : Fate
  after : Nat
  deriving DecidableEq, Repr

structure Ledger where
  /-- The number of actions so far. -/
  seen : Nat
  /-- The number of messages pushed so far. -/
  next : Nat
  high : List Ticket
  low : List Ticket
  /-- With the time it was sent. -/
  pending : Option (Ticket × Nat)
  settled : List Settled
  /-- What was written, in the order of the writes. -/
  sent : List Ticket
  deriving DecidableEq, Repr

namespace Ledger

def empty : Ledger := ⟨0, 0, [], [], none, [], []⟩

/-- The ticket in a queue that a message with this key replaces. -/
def replaces (key : Option String) (queue : List Ticket) : Option Nat :=
  match key with
  | some key => queue.findIdx? fun t => t.1.coalesceKey == some key
  | none => none

def enter (queue : List Ticket) (t : Ticket) : List Ticket :=
  match replaces t.1.coalesceKey queue with
  | some pos => queue.set pos t
  | none => queue ++ [t]

/-- What `enter` takes out of the queue. -/
def displaced (queue : List Ticket) (t : Ticket) : Option Ticket :=
  (replaces t.1.coalesceKey queue).bind fun pos => queue[pos]?

def settle (l : Ledger) (t : Ticket) (fate : Fate) : Ledger :=
  { l with settled := l.settled ++ [⟨t, fate, l.seen⟩] }

/-- A ticket for a message, in one queue or the other. -/
def pushHigh (l : Ledger) (msg : QueuedMessage) : Ledger :=
  { l with next := l.next + 1, high := enter l.high (msg, l.next)
           settled := l.settled ++ (displaced l.high (msg, l.next)).toList.map fun old =>
            ⟨old, .replaced l.next, l.seen⟩ }

def pushLow (l : Ledger) (msg : QueuedMessage) : Ledger :=
  { l with next := l.next + 1, low := enter l.low (msg, l.next)
           settled := l.settled ++ (displaced l.low (msg, l.next)).toList.map fun old =>
            ⟨old, .replaced l.next, l.seen⟩ }

/-- A push, at the level of the message. -/
def push (l : Ledger) (msg : QueuedMessage) : Ledger :=
  match msg.priority with
  | .high => l.pushHigh msg
  | .low => l.pushLow msg

/-- What waits at either level is settled as cleared. -/
def clear (l : Ledger) : Ledger :=
  { l with high := [], low := []
           settled := l.settled ++ (l.high ++ l.low).map fun t => ⟨t, .cleared, l.seen⟩ }

/-- High before low. -/
def pop (l : Ledger) : Option (Ticket × Ledger) :=
  match l.high with
  | t :: high => some (t, { l with high })
  | [] =>
    match l.low with
    | t :: low => some (t, { l with low })
    | [] => none

/-- What an action does to the books. -/
def enact (l : Ledger) : Action → Ledger
  | .push msg => l.push msg
  | .clear => l.clear
  | .frame f _ =>
    match l.pending with
    | some (t, _) =>
      if ends (t.1.frame.getD 2 0) t.1.expect f then { l with pending := none }.settle t (.ended f)
      else l
    | none => l
  | .expire now _ =>
    match l.pending with
    | some (t, sentAt) => { l with pending := none }.settle t (.timedOut sentAt now)
    | none => l
  | .write _ now error =>
    match l.pop with
    | some (t, l) =>
      match error with
      | none => { l with pending := some (t, now), sent := l.sent ++ [t] }
      | some e => l.settle t (.dropped e)
    | none => l
  | _ => l

/-- Every action is counted, so that a fate can say when it was met. -/
def step (l : Ledger) (action : Action) : Ledger :=
  { l.enact action with seen := l.seen + 1 }

end Ledger

/-- The books after some actions. -/
def ledger (actions : List Action) : Ledger := actions.foldl Ledger.step .empty

/-- The messages pushed. -/
def pushes (actions : List Action) : List QueuedMessage :=
  actions.filterMap fun
    | .push msg => some msg
    | _ => none

/-- What was successfully written, write by write. -/
def requests (actions : List Action) : List (List UInt8) :=
  actions.filterMap fun
    | .write bytes _ none => some bytes
    | _ => none

/-- The bytes successfully written. -/
def written (actions : List Action) : List UInt8 := (requests actions).flatten

/-- The clock readings among the actions. -/
def times (actions : List Action) : List Nat := actions.filterMap Action.time?

/-- Why a ticket met its fate: the action at that place, and what was known of the
ticket. -/
def Fate.Justified (config : ClientConfig) (actions : List Action) (t : Ticket) (after : Nat) :
    Fate → Prop
  | .replaced byId => t.2 < byId ∧ ∃ msg, actions[after]? = some (.push msg) ∧
      (pushes actions)[byId]? = some msg ∧ msg.priority = t.1.priority ∧
      msg.coalesceKey = t.1.coalesceKey ∧ msg.coalesceKey ≠ none
  | .cleared => actions[after]? = some .clear
  | .dropped error => ∃ now, actions[after]? = some (.write t.1.frame now (some error))
  | .ended f => actions[after]? = some (.frame f (eventOf f)) ∧
      ends (t.1.frame.getD 2 0) t.1.expect f = true
  | .timedOut sentAt now => actions[after]? = some (.expire now t.1.frame) ∧
      (∃ sent < after, actions[sent]? = some (.write t.1.frame sentAt none)) ∧
      t.1.responseTimeout.getD config.responseTimeout ≤ now - sentAt

namespace Ledger

/-- All tickets, wherever they are. -/
def tickets (l : Ledger) : List Ticket :=
  l.high ++ l.low ++ (l.pending.map Prod.fst).toList ++ l.settled.map Settled.ticket

/-- The books are in order: every message pushed is in exactly one place, every fate has its
reason, and the writes are the frames that were sent, in the order they left the queue. -/
structure Accounted (config : ClientConfig) (actions : List Action) (l : Ledger) : Prop where
  seen_eq : l.seen = actions.length
  next_eq : l.next = (pushes actions).length
  perm : l.tickets.Perm (pushes actions).zipIdx
  high : ∀ t ∈ l.high, t.1.priority = .high
  low : ∀ t ∈ l.low, t.1.priority = .low
  pending : ∀ t sentAt, l.pending = some (t, sentAt) →
    ∃ sent : Nat, actions[sent]? = some (.write t.1.frame sentAt none)
  settled : ∀ s ∈ l.settled, s.fate.Justified config actions s.ticket s.after
  requests_eq : requests actions = l.sent.map fun t => t.1.frame
  sent : ∀ t ∈ l.sent, t ∈ (pushes actions).zipIdx

/-! ## Queues of tickets -/

variable {queue : List Ticket} {t old : Ticket}

theorem replaces_map (key : String) (queue : List Ticket) :
    (queue.map Prod.fst).findIdx? (fun m => m.coalesceKey == some key)
      = replaces (some key) queue := by
  rw [List.findIdx?_map]
  rfl

/-- Without the tickets this is the push of `queue.rs`. -/
theorem enter_map (queue : List Ticket) (t : Ticket) :
    (enter queue t).map Prod.fst = PriorityQueue.pushLevel (queue.map Prod.fst) t.1 := by
  unfold enter PriorityQueue.pushLevel
  cases hkey : t.1.coalesceKey with
  | none => simp [replaces]
  | some key =>
    simp only [replaces_map]
    cases replaces (some key) queue with
    | none => simp
    | some pos => simp [List.map_set]

theorem mem_enter {s : Ticket} (h : s ∈ enter queue t) : s ∈ queue ∨ s = t := by
  unfold enter at h
  split at h
  · exact List.mem_or_eq_of_mem_set h
  · simpa using h

/-- What `enter` takes out had the same key. -/
theorem displaced_spec (h : displaced queue t = some old) :
    old ∈ queue ∧ t.1.coalesceKey = old.1.coalesceKey ∧ t.1.coalesceKey ≠ none := by
  unfold displaced replaces at h
  cases hkey : t.1.coalesceKey with
  | none => simp [hkey] at h
  | some key =>
    simp only [hkey, Option.bind_eq_some_iff, List.findIdx?_eq_some_iff_getElem] at h
    obtain ⟨pos, ⟨hlt, hp, _⟩, hold⟩ := h
    rw [List.getElem?_eq_getElem hlt] at hold
    cases hold
    exact ⟨List.getElem_mem hlt, (eq_of_beq hp).symm, nofun⟩

/-- A push adds its ticket and displaces at most one. -/
theorem enter_perm (queue : List Ticket) (t : Ticket) :
    (enter queue t ++ (displaced queue t).toList).Perm (queue ++ [t]) := by
  unfold enter displaced
  cases hrep : replaces t.1.coalesceKey queue with
  | none => simp
  | some pos =>
    have hlt : pos < queue.length := by
      unfold replaces at hrep
      split at hrep
      · exact (List.findIdx?_eq_some_iff_getElem.mp hrep).1
      · cases hrep
    obtain ⟨a, b, old, hqueue, hset, hget⟩ : ∃ a b old, queue = a ++ old :: b ∧
        queue.set pos t = a ++ t :: b ∧ queue[pos]? = some old := by
      refine ⟨queue.take pos, queue.drop (pos + 1), queue[pos], ?_, ?_,
        List.getElem?_eq_getElem hlt⟩
      · rw [← List.drop_eq_getElem_cons hlt, List.take_append_drop]
      · rw [List.set_eq_take_append_cons_drop, if_pos hlt]
    show (queue.set pos t ++ (queue[pos]?).toList).Perm (queue ++ [t])
    rw [hget, hset, hqueue, Option.toList_some]
    refine List.perm_iff_count.mpr fun x => ?_
    simp only [List.count_append, List.count_cons, List.count_nil]
    omega

/-! ## One action -/

variable {config : ClientConfig} {pre : List Action} {l l' : Ledger} {a : Action}

theorem pushes_append (pre more : List Action) : pushes (pre ++ more) = pushes pre ++ pushes more :=
  List.filterMap_append

theorem requests_append (pre more : List Action) :
    requests (pre ++ more) = requests pre ++ requests more :=
  List.filterMap_append

/-- A fate stays justified. -/
theorem justified_append {fate : Fate} {after : Nat} (h : fate.Justified config pre t after)
    (more : List Action) : fate.Justified config (pre ++ more) t after := by
  have hmono : ∀ {i : Nat} {x : Action}, pre[i]? = some x → (pre ++ more)[i]? = some x :=
    fun hx => by
      rw [List.getElem?_append_left (List.getElem?_eq_some_iff.mp hx).1, hx]
  cases fate with
  | replaced byId =>
    obtain ⟨hlt, msg, hat, hpush, hrest⟩ := h
    refine ⟨hlt, msg, hmono hat, ?_, hrest⟩
    rw [pushes_append, List.getElem?_append_left (List.getElem?_eq_some_iff.mp hpush).1, hpush]
  | cleared => exact hmono h
  | dropped error =>
    obtain ⟨now, hat⟩ := h
    exact ⟨now, hmono hat⟩
  | ended f => exact ⟨hmono h.1, h.2⟩
  | timedOut sentAt now =>
    obtain ⟨hat, ⟨sent, hlt, hsent⟩, hlate⟩ := h
    exact ⟨hmono hat, ⟨sent, hlt, hmono hsent⟩, hlate⟩

/-- What an action may do to the books so that they stay in order. -/
theorem Accounted.advance (h : l.Accounted config pre)
    (hnext : l'.next = l.next + (pushes [a]).length)
    (hperm : l'.tickets.Perm (l.tickets ++ (pushes [a]).zipIdx l.next))
    (hhigh : ∀ t ∈ l'.high, t ∈ l.high ∨ t.1.priority = .high)
    (hlow : ∀ t ∈ l'.low, t ∈ l.low ∨ t.1.priority = .low)
    (hpending : ∀ t sentAt, l'.pending = some (t, sentAt) →
      l.pending = some (t, sentAt) ∨ a = .write t.1.frame sentAt none)
    (hsettled : ∀ s ∈ l'.settled, s ∈ l.settled ∨
      s.fate.Justified config (pre ++ [a]) s.ticket s.after)
    (hsent : (l.sent.map fun t => t.1.frame) ++ requests [a]
      = l'.sent.map fun t => t.1.frame)
    (hsource : ∀ t ∈ l'.sent, t ∈ l.sent ∨ t ∈ l.tickets) :
    Accounted config (pre ++ [a]) { l' with seen := l.seen + 1 } where
  seen_eq := by rw [h.seen_eq, List.length_append, List.length_singleton]
  next_eq := by rw [hnext, h.next_eq, pushes_append, List.length_append]
  perm := by
    refine hperm.trans ?_
    rw [pushes_append, List.zipIdx_append, Nat.zero_add, ← h.next_eq]
    exact h.perm.append_right _
  high t ht := (hhigh t ht).elim (h.high t) id
  low t ht := (hlow t ht).elim (h.low t) id
  pending t sentAt hp := by
    obtain hp | rfl := hpending t sentAt hp
    · obtain ⟨sent, hsent⟩ := h.pending t sentAt hp
      refine ⟨sent, ?_⟩
      rw [List.getElem?_append_left (List.getElem?_eq_some_iff.mp hsent).1, hsent]
    · exact ⟨pre.length, List.getElem?_concat_length⟩
  settled s hs := (hsettled s hs).elim (fun hold => justified_append (h.settled s hold) [a]) id
  requests_eq := by rw [requests_append, h.requests_eq, hsent]
  sent t ht := by
    rw [pushes_append, List.zipIdx_append]
    exact List.mem_append_left _ ((hsource t ht).elim (h.sent t) h.perm.mem_iff.mp)

/-- An action that concerns no ticket. -/
theorem Accounted.same (h : l.Accounted config pre) (hpush : pushes [a] = [])
    (hsent : requests [a] = []) :
    Accounted config (pre ++ [a]) { l with seen := l.seen + 1 } := by
  refine h.advance (by simp [hpush]) (by simp [hpush]) (fun t ht => .inl ht) (fun t ht => .inl ht)
    (fun t sentAt hp => .inl hp) (fun s hs => .inl hs) (by simp [hsent]) (fun t ht => .inl ht)

/-- The fate of the message that a push replaces. -/
theorem replaced_justified (h : l.Accounted config pre) {msg : QueuedMessage}
    (hold : old ∈ l.tickets) (hprio : msg.priority = old.1.priority)
    (hkey : msg.coalesceKey = old.1.coalesceKey ∧ msg.coalesceKey ≠ none) :
    (Fate.replaced l.next).Justified config (pre ++ [.push msg]) old l.seen := by
  have hmem := h.perm.mem_iff.mp hold
  rw [List.mem_zipIdx_iff_getElem?] at hmem
  obtain ⟨hlt, _⟩ := List.getElem?_eq_some_iff.mp hmem
  refine ⟨by rw [h.next_eq]; exact hlt, msg, ?_, ?_, hprio, hkey⟩
  · rw [h.seen_eq]
    exact List.getElem?_concat_length
  · rw [pushes_append, h.next_eq]
    exact List.getElem?_concat_length

/-- What a push takes out of a queue of its priority has its reason. -/
theorem displaced_justified (h : l.Accounted config pre) {msg : QueuedMessage}
    (hmem : ∀ t ∈ queue, t ∈ l.tickets) (hprio : ∀ t ∈ queue, t.1.priority = msg.priority) :
    ∀ s ∈ (displaced queue (msg, l.next)).toList.map fun old =>
      (⟨old, .replaced l.next, l.seen⟩ : Settled),
      s.fate.Justified config (pre ++ [.push msg]) s.ticket s.after := by
  intro s hs
  obtain ⟨old, hold, rfl⟩ := List.mem_map.mp hs
  obtain ⟨hq, hkey⟩ := displaced_spec (Option.mem_toList.mp hold)
  exact replaced_justified h (hmem old hq) (hprio old hq).symm hkey

/-- A push at the high level keeps the books in order. -/
theorem Accounted.pushHigh (h : l.Accounted config pre) {msg : QueuedMessage}
    (hp : msg.priority = .high) :
    Accounted config (pre ++ [.push msg]) { l.pushHigh msg with seen := l.seen + 1 } := by
  refine h.advance rfl ?_ (fun t ht => ?_) (fun t ht => .inl ht) (fun t sentAt hp => .inl hp)
    (fun s hs => ?_) (by simp [requests, Ledger.pushHigh]) (fun t ht => .inl ht)
  · have hperm := List.perm_iff_count.mp (enter_perm l.high (msg, l.next))
    refine List.perm_iff_count.mpr fun x => ?_
    have hx := hperm x
    simp only [List.count_append, List.count_singleton] at hx
    simp only [tickets, Ledger.pushHigh, pushes, List.filterMap_cons, List.filterMap_nil,
      List.zipIdx_singleton, List.map_append, List.map_map, Function.comp_def, List.map_id',
      List.count_append, List.count_singleton]
    omega
  · obtain ht | rfl := mem_enter ht
    · exact .inl ht
    · exact .inr hp
  · obtain hs | hs := List.mem_append.mp hs
    · exact .inl hs
    · refine .inr (displaced_justified h (fun t ht => ?_) (fun t ht => ?_) s hs)
      · simp [tickets, ht]
      · rw [h.high t ht, hp]

/-- So does one at the low level. -/
theorem Accounted.pushLow (h : l.Accounted config pre) {msg : QueuedMessage}
    (hp : msg.priority = .low) :
    Accounted config (pre ++ [.push msg]) { l.pushLow msg with seen := l.seen + 1 } := by
  refine h.advance rfl ?_ (fun t ht => .inl ht) (fun t ht => ?_) (fun t sentAt hp => .inl hp)
    (fun s hs => ?_) (by simp [requests, Ledger.pushLow]) (fun t ht => .inl ht)
  · have hperm := List.perm_iff_count.mp (enter_perm l.low (msg, l.next))
    refine List.perm_iff_count.mpr fun x => ?_
    have hx := hperm x
    simp only [List.count_append, List.count_singleton] at hx
    simp only [tickets, Ledger.pushLow, pushes, List.filterMap_cons, List.filterMap_nil,
      List.zipIdx_singleton, List.map_append, List.map_map, Function.comp_def, List.map_id',
      List.count_append, List.count_singleton]
    omega
  · obtain ht | rfl := mem_enter ht
    · exact .inl ht
    · exact .inr hp
  · obtain hs | hs := List.mem_append.mp hs
    · exact .inl hs
    · refine .inr (displaced_justified h (fun t ht => ?_) (fun t ht => ?_) s hs)
      · simp [tickets, ht]
      · rw [h.low t ht, hp]

/-- Any push is one of the two. -/
theorem Accounted.push (h : l.Accounted config pre) (msg : QueuedMessage) :
    Accounted config (pre ++ [.push msg]) (l.step (.push msg)) := by
  show Accounted config (pre ++ [.push msg]) { l.push msg with seen := l.seen + 1 }
  unfold Ledger.push
  cases hp : msg.priority with
  | high => exact h.pushHigh hp
  | low => exact h.pushLow hp

/-- Clearing keeps them in order. -/
theorem Accounted.clear (h : l.Accounted config pre) :
    Accounted config (pre ++ [.clear]) (l.step .clear) := by
  refine @advance _ _ _ l.clear _ h rfl ?_ (fun t ht => absurd ht List.not_mem_nil)
    (fun t ht => absurd ht List.not_mem_nil) (fun t sentAt hp => .inl hp) (fun s hs => ?_)
    (by simp [requests, Ledger.clear]) (fun t ht => .inl ht)
  · refine List.perm_iff_count.mpr fun x => ?_
    simp only [tickets, Ledger.clear, pushes, List.filterMap_cons, List.filterMap_nil,
      List.zipIdx_nil, List.map_append, List.map_map, Function.comp_def, List.map_id',
      List.count_append, List.count_nil]
    omega
  · obtain hs | hs := List.mem_append.mp hs
    · exact .inl hs
    · obtain ⟨t, _, rfl⟩ := List.mem_map.mp hs
      refine .inr ?_
      show (pre ++ [.clear])[l.seen]? = some .clear
      rw [h.seen_eq]
      exact List.getElem?_concat_length

/-- The pending ticket is settled. -/
theorem Accounted.settlePending (h : l.Accounted config pre) {sentAt : Nat} {fate : Fate}
    (hp : l.pending = some (t, sentAt)) (hpush : pushes [a] = []) (hsent : requests [a] = [])
    (hfate : fate.Justified config (pre ++ [a]) t l.seen) :
    Accounted config (pre ++ [a])
      { settle { l with pending := none } t fate with seen := l.seen + 1 } := by
  refine @advance _ _ _ (settle { l with pending := none } t fate) _ h (by simp [hpush, settle]) ?_
    (fun t ht => .inl ht) (fun t ht => .inl ht) nofun (fun s hs => ?_) (by simp [hsent, settle])
    (fun t ht => .inl ht)
  · refine List.perm_iff_count.mpr fun x => ?_
    simp only [tickets, settle, hpush, hp, List.zipIdx_nil, List.map_append, List.map_cons,
      List.map_nil, Option.map_none, Option.map_some, Option.toList_none, Option.toList_some,
      List.count_append, List.count_nil]
    omega
  · obtain hs | hs := List.mem_append.mp hs
    · exact .inl hs
    · rw [List.mem_singleton] at hs
      subst hs
      exact .inr hfate

/-- What `pop` takes out. -/
theorem pop_spec (h : l.pop = some (t, l')) :
    l' = { l with high := l'.high, low := l'.low } ∧
      (l.high ++ l.low).Perm (t :: (l'.high ++ l'.low)) ∧
      (∀ s ∈ l'.high, s ∈ l.high) ∧ ∀ s ∈ l'.low, s ∈ l.low := by
  unfold pop at h
  split at h
  next t high hhigh =>
    cases h
    simp only [hhigh, List.cons_append]
    exact ⟨trivial, .refl _, fun s hs => List.mem_cons_of_mem _ hs, fun s hs => hs⟩
  next hhigh =>
    split at h
    next t low hlow =>
      cases h
      simp only [hhigh, hlow, List.nil_append]
      exact ⟨trivial, .refl _, fun s hs => hs, fun s hs => List.mem_cons_of_mem _ hs⟩
    next => cases h

/-- Writing a request keeps them in order, whether or not the transport takes it. -/
theorem Accounted.write (h : l.Accounted config pre) (hpending : l.pending = none)
    (hpop : l.pop = some (t, l')) (now : Nat) (error : Option String) :
    Accounted config (pre ++ [.write t.1.frame now error])
      (l.step (.write t.1.frame now error)) := by
  obtain ⟨hl', hperm, hhigh, hlow⟩ := pop_spec hpop
  have hcount := List.perm_iff_count.mp hperm
  have hsettled : l'.settled = l.settled := by rw [hl']
  have hsent : l'.sent = l.sent := by rw [hl']
  have hnone : l'.pending = none := by rw [hl', hpending]
  have hnext : l'.next = l.next := by rw [hl']
  have hseen : l'.seen = l.seen := by rw [hl']
  unfold Ledger.step enact
  simp only [hpop]
  -- written, the request waits for its reply; on an error it is settled as dropped
  cases error with
  | none =>
    refine h.advance hnext ?_ (fun s hs => .inl (hhigh s hs)) (fun s hs => .inl (hlow s hs))
      (fun s sentAt hp => ?_) (fun s hs => ?_) ?_ (fun s hs => ?_)
    · refine List.perm_iff_count.mpr fun x => ?_
      have hx := hcount x
      simp only [List.count_append, List.count_cons] at hx
      simp only [tickets, hsettled, hpending, pushes, List.filterMap_cons, List.filterMap_nil,
        List.zipIdx_nil, Option.map_none, Option.map_some, Option.toList_none, Option.toList_some,
        List.count_append, List.count_nil, List.count_singleton]
      omega
    · cases hp
      exact .inr rfl
    · rw [hsettled] at hs
      exact .inl hs
    · simp [requests, hsent]
    · obtain hs | hs := List.mem_append.mp hs
      · rw [hsent] at hs
        exact .inl hs
      · rw [List.mem_singleton] at hs
        rw [hs]
        refine .inr (List.mem_append_left _ (List.mem_append_left _ ?_))
        exact hperm.mem_iff.mpr List.mem_cons_self
  | some e =>
    refine h.advance hnext ?_ (fun s hs => .inl (hhigh s hs)) (fun s hs => .inl (hlow s hs))
      (fun s sentAt hp => ?_) (fun s hs => ?_) ?_ (fun s hs => ?_)
    · refine List.perm_iff_count.mpr fun x => ?_
      have hx := hcount x
      simp only [List.count_append, List.count_cons] at hx
      simp only [tickets, settle, hsettled, hpending, hnone, pushes, List.filterMap_cons,
        List.filterMap_nil, List.zipIdx_nil, List.map_append, List.map_cons, List.map_nil,
        Option.map_none, Option.toList_none, List.count_append, List.count_nil,
        List.count_singleton]
      omega
    · rw [show (l'.settle t (.dropped e)).pending = none from hnone] at hp
      cases hp
    · obtain hs | hs := List.mem_append.mp hs
      · rw [hsettled] at hs
        exact .inl hs
      · rw [List.mem_singleton] at hs
        subst hs
        refine .inr ⟨now, ?_⟩
        show (pre ++ [Action.write t.1.frame now (some e)])[l'.seen]? = _
        rw [hseen, h.seen_eq]
        exact List.getElem?_concat_length
    · simp [requests, settle, hsent]
    · rw [show (l'.settle t (.dropped e)).sent = l.sent from hsent] at hs
      exact .inl hs

end Ledger

end ProtoEmb.Client
