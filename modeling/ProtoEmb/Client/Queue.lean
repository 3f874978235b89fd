import ProtoEmb.Framing.Frame

/-!
# The host's outgoing messages

`queue.rs` and the enqueueing half of `client.rs`: what a call of `Client::read`,
`Client::write` or `Client::query` puts into the priority queue. `push_write` hands
the caller's bytes to `build_write_frame` as they are; nothing on this path looks
at their length.

Times and durations are natural numbers of nanoseconds.
-/

namespace ProtoEmb.Client

open ProtoEmb.Framing

/-- Priority level for an outgoing message. -/
inductive Priority where
  | high
  | low
  deriving DecidableEq, Repr

/-- The reply kind that completes a request. -/
inductive ExpectedReply where
  | data
  | ack
  deriving DecidableEq, Repr

/-- A message waiting to be sent on the wire. -/
structure QueuedMessage where
  frame : List UInt8
  priority : Priority
  coalesceKey : Option String
  responseTimeout : Option Nat
  expect : ExpectedReply
  deriving DecidableEq, Repr

/-- The message of `Client::read`. -/
def read (command : UInt8) (priority : Priority) (coalesceKey : Option String) : QueuedMessage :=
  { frame := buildReadFrame command, priority, coalesceKey, responseTimeout := none,
    expect := .data }

/-- The message of `push_write`. -/
def pushWrite (command : UInt8) (data : List UInt8) (expect : ExpectedReply) : QueuedMessage :=
  { frame := buildWriteFrame command data, priority := .high, coalesceKey := none,
    responseTimeout := none, expect }

/-- The message of `Client::write`. -/
def write (command : UInt8) (data : List UInt8) : QueuedMessage := pushWrite command data .ack

/-- The message of `Client::query`. -/
def query (command : UInt8) (data : List UInt8) : QueuedMessage := pushWrite command data .data

/-! ## The queue -/

/-- Two levels, each first in, first out. -/
structure PriorityQueue where
  high : List QueuedMessage
  low : List QueuedMessage
  deriving DecidableEq, Repr

namespace PriorityQueue

def new : PriorityQueue := ⟨[], []⟩

/-- The push within a level: a message with the same key is replaced in place. -/
def pushLevel (queue : List QueuedMessage) (msg : QueuedMessage) : List QueuedMessage :=
  match msg.coalesceKey with
  | some key =>
    match queue.findIdx? fun m => m.coalesceKey == some key with
    | some pos => queue.set pos msg
    | none => queue ++ [msg]
  | none => queue ++ [msg]

def push (q : PriorityQueue) (msg : QueuedMessage) : PriorityQueue :=
  match msg.priority with
  | .high => { q with high := pushLevel q.high msg }
  | .low => { q with low := pushLevel q.low msg }

/-- The low level is only looked at when the high one is empty. -/
def pop (q : PriorityQueue) : Option (QueuedMessage × PriorityQueue) :=
  match q.high with
  | msg :: high => some (msg, { q with high })
  | [] =>
    match q.low with
    | msg :: low => some (msg, { q with low })
    | [] => none

def clear (_ : PriorityQueue) : PriorityQueue := new

theorem pop_eq_none {q : PriorityQueue} (h : q.pop = none) : q = new := by
  obtain ⟨high, low⟩ := q
  cases high with
  | cons msg high => cases h
  | nil =>
    cases low with
    | cons msg low => cases h
    | nil => rfl

end PriorityQueue

end ProtoEmb.Client
