/-!
# Channels

A channel is a queue of messages between tasks. It is described by the steps that happen at once;
a party that cannot go on takes a step that leaves the channel as it is, and tries again later.

* An unbuffered channel enqueues at once; the sender then waits until its message has been taken.
* A bounded channel makes the sender wait while it is full.
* An unbounded channel never makes a sender wait.

Closing wakes everybody: receivers drain what is left, later sends are refused.
-/

namespace ScriptMachine

/-- A channel of messages. -/
structure Channel (α : Type) where
  /-- Greatest number of waiting messages; none means unbounded, zero unbuffered. -/
  capacity : Option Nat
  buffer : List α
  closed : Bool
  /-- Messages ever enqueued. -/
  sent : Nat
  /-- Messages ever dequeued. -/
  received : Nat
deriving Inhabited

/-- What came of one attempt to send. -/
inductive SendStep where
  /-- The channel is closed and nothing was enqueued. -/
  | refused
  /-- The channel is full and nothing was enqueued. -/
  | full
  /-- The message was enqueued and the send is over. -/
  | sent
  /-- The message was enqueued as number `ticket`, which has to be taken first. -/
  | offered (ticket : Nat)
deriving DecidableEq, Repr

/-- What came of one attempt to receive. -/
inductive RecvStep (α : Type) where
  | received (a : α)
  /-- The channel is closed and drained. -/
  | drained
  /-- Nothing to receive yet. -/
  | wait

namespace Channel

variable {α : Type}

/-- A fresh channel. -/
def new (capacity : Option Nat) : Channel α := ⟨capacity, [], false, 0, 0⟩

/-- Number of waiting messages. -/
def length (c : Channel α) : Nat := c.buffer.length

def isEmpty (c : Channel α) : Bool := c.buffer.isEmpty

/-- Put a message at the end of the queue. -/
def enqueue (c : Channel α) (a : α) : Channel α :=
  { c with buffer := c.buffer ++ [a], sent := c.sent + 1 }

/-- Try to send. -/
def send (c : Channel α) (a : α) : SendStep × Channel α :=
  if c.closed then (.refused, c)
  else
    match c.capacity with
    | some 0 => (.offered (c.sent + 1), c.enqueue a)
    | some n => if n ≤ c.length then (.full, c) else (.sent, c.enqueue a)
    | none => (.sent, c.enqueue a)

/-- Whether the sender of message number `ticket` may go on: its message was taken, or the channel was
closed. -/
def released (c : Channel α) (ticket : Nat) : Bool := ticket ≤ c.received || c.closed

/-- Take the oldest message. -/
def dequeue? (c : Channel α) : Option (α × Channel α) :=
  match c.buffer with
  | [] => none
  | a :: rest => some (a, { c with buffer := rest, received := c.received + 1 })

/-- Try to receive. -/
def recv (c : Channel α) : RecvStep α × Channel α :=
  match c.dequeue? with
  | some (a, c) => (.received a, c)
  | none => (if c.closed then .drained else .wait, c)

/-- Close the channel; closing again changes nothing. -/
def close (c : Channel α) : Channel α := { c with closed := true }

/-- A sender goes on until it has to wait: which of its sends succeeded, and the messages left. -/
def sendReady (c : Channel α) : List α → List Bool × List α × Channel α
  | [] => ([], [], c)
  | a :: rest =>
    match c.send a with
    | (.refused, c) =>
      let (sent, left, c) := sendReady c rest
      (false :: sent, left, c)
    | (.sent, c) =>
      let (sent, left, c) := sendReady c rest
      (true :: sent, left, c)
    | (.offered _, c) => ([true], rest, c)
    | (.full, c) => ([], a :: rest, c)

/-- A sender of the given messages meets a receiver who receives a number of times. Answers what was
received, with none where the channel was drained, and which sends succeeded. -/
def exchange (c : Channel α) (messages : List α) : Nat → List (Option α) × List Bool × Channel α
  | 0 =>
    let (sent, _, c) := c.sendReady messages
    ([], sent, c)
  | n + 1 =>
    let (sent, left, c) := c.sendReady messages
    let (message, c) : Option α × Channel α := match c.recv with
      | (.received a, c) => (some a, c)
      | (_, c) => (none, c)
    let (received, later, c) := c.exchange left n
    (message :: received, sent ++ later, c)

/-- Wording of a refused send. -/
def refusedMessage : String := "send on closed channel"

/-- The kind of channel of a given capacity, in words. -/
def capacityLabel : Option Nat → String
  | none => "unbounded"
  | some 0 => "unbuffered"
  | some n => s!"buffered({n})"

/-- Capacity, number of waiting messages and whether the channel is closed, for inspection. -/
def inspect (c : Channel α) : String :=
  let capacity := match c.capacity with
    | none => "None"
    | some n => s!"Some({n})"
  "Channel \x7b capacity: " ++ capacity ++ s!", buffered: {c.length}, closed: {c.closed}" ++ " \x7d"

/-! ## Steps -/

@[simp] theorem length_enqueue (c : Channel α) (a : α) : (c.enqueue a).length = c.length + 1 := by
  simp [enqueue, length]

theorem send_of_closed {c : Channel α} (h : c.closed = true) (a : α) : c.send a = (.refused, c) := by
  simp [send, h]

theorem dequeue?_eq_none_iff {c : Channel α} : c.dequeue? = none ↔ c.buffer = [] := by
  unfold dequeue?
  split <;> simp_all

end Channel

end ScriptMachine
