/-
This file models the outboxes of a worker: the queue between the threads that send on a connection
and the task that writes it, and the octets all outboxes of the worker hold together. A call holds
the lock of its outbox until it returns, and calls on different outboxes interleave.
-/

import ZeroServer.Lib.Edits
import ZeroServer.Ws.Session

namespace ZeroServer.Realtime

open Http1 Lib
open Ws (CloseCode Close saturating)

/-! ### Commands -/

/-- One thing sent on a connection. -/
inductive Command where
  | frame (frame : Bytes)
  | close (code : CloseCode) (reason : List Char)
  | terminate
  | join (room : List Char)
  | leave (room : List Char)
  | ending
  deriving DecidableEq

namespace Command

/-- The octets the command holds while it waits. -/
def octets : Command → Nat
  | frame bytes => bytes.length
  | close _ reason => (Utf8.encode reason).length
  | join room | leave room => (Utf8.encode room).length
  | terminate | ending => 0

/-- Whether the command ends what may be sent on the connection. -/
def ends : Command → Bool
  | close _ _ | terminate | ending => true
  | frame _ | join _ | leave _ => false

end Command

/-! ### The total of a worker -/

/-- The octets queued in every outbox of one worker, and the most they may reach. -/
structure OutboxTotal where
  queued : Nat := 0
  limit : Nat
  deriving DecidableEq

namespace OutboxTotal

/-- Count octets more, unless the total would pass the limit. -/
def reserve (total : OutboxTotal) (octets : Nat) : Option OutboxTotal :=
  if total.queued + octets < 2 ^ 64 ∧ total.queued + octets ≤ total.limit then
    some { total with queued := total.queued + octets }
  else none

/-- Stop counting octets. -/
def release (total : OutboxTotal) (octets : Nat) : OutboxTotal :=
  if octets = 0 then total else { total with queued := total.queued - octets }

end OutboxTotal

/-! ### The queue of an outbox -/

/-- A command a sender pushed, or a frame broadcast to a room the connection is in. -/
inductive Queued where
  | sent (command : Command)
  | broadcast (frame : Bytes)
  deriving DecidableEq

/-- What an outbox holds. -/
structure Queue where
  entries : List Queued := []
  bytes : Nat := 0
  broadcastBytes : Nat := 0
  overflowed : Bool := false
  ending : Bool := false
  closed : Bool := false
  passed : Bool := false
  waker : Option Nat := none
  deriving DecidableEq

/-- Why a push is refused. -/
inductive PushError where
  | closed
  | close (error : Ws.Error)
  | outboxLimit (cap waiting sent : Nat)
  | totalLimit (limit waiting sent : Nat)
  deriving DecidableEq

/-- How many times its high-water mark an outbox may hold before a push is refused. -/
def limitFactor : Nat := 4

namespace Queue

/-- The octets an outbox holds with a command, unless the command is refused. -/
def accepted (queue : Queue) (highWater : Nat) (command : Command) : Except PushError Nat :=
  if queue.closed || queue.ending then .error .closed
  else
    let cap := saturating 64 (highWater * limitFactor)
    let bytes := saturating 64 (queue.bytes + command.octets)
    if cap < bytes then .error (.outboxLimit cap queue.bytes command.octets) else .ok bytes

/-- Append a command whose octets are counted. -/
def append (queue : Queue) (highWater : Nat) (command : Command) : Queue :=
  { queue with
    passed := queue.passed || highWater < queue.bytes
    ending := queue.ending || command.ends
    entries := queue.entries ++ [.sent command]
    waker := none }

/-- Queue a frame broadcast to a room, or drop the broadcast frames when too many octets wait. -/
def broadcast (queue : Queue) (frame : Bytes) (limit : Nat) : Queue :=
  if queue.closed || queue.ending || queue.overflowed then queue
  else
    let bytes := saturating 64 (queue.broadcastBytes + frame.length)
    if limit < bytes then
      { queue with
        overflowed := true
        entries := queue.entries.filter fun entry => match entry with
          | .sent _ => true
          | .broadcast _ => false
        broadcastBytes := 0
        waker := none }
    else
      { queue with
        broadcastBytes := bytes
        entries := queue.entries ++ [.broadcast frame]
        waker := none }

/-- Ready once an entry waits or broadcast frames were dropped; registers the task otherwise. -/
def pollReady (queue : Queue) (task : Nat) : Queue × Bool :=
  if !queue.entries.isEmpty || queue.overflowed then (queue, true)
  else ({ queue with waker := some task }, false)

/-- Take the waiting entries, and whether broadcast frames were dropped since the last take. -/
def take (queue : Queue) : Queue × List Queued × Bool :=
  ({ queue with broadcastBytes := 0, entries := [], overflowed := false },
    queue.entries, queue.overflowed)

/-- Refuse every later push and broadcast and take what waits. -/
def sealed (queue : Queue) : Queue × List Queued :=
  ({ queue with closed := true, broadcastBytes := 0, entries := [] }, queue.entries)

/-- Refuse every later push and stop counting what the outbox holds. -/
def shut (queue : Queue) : Queue × Nat := ({ queue with closed := true, bytes := 0 }, queue.bytes)

/-- Drop what a closed outbox holds. -/
def clear (queue : Queue) : Queue :=
  { queue with
    passed := false
    broadcastBytes := 0
    overflowed := false
    entries := []
    waker := none }

/-- Stop counting octets that were written or dropped; at most what is counted. -/
def discount (queue : Queue) (octets : Nat) : Queue × Nat :=
  let octets := min octets queue.bytes
  ({ queue with bytes := queue.bytes - octets }, octets)

/-- Whether the queue fell below half the mark after it passed the mark. -/
def drain (queue : Queue) (highWater : Nat) : Queue × Bool :=
  if queue.passed && saturating 64 (queue.bytes * 2) < highWater then
    ({ queue with passed := false }, true)
  else (queue, false)

end Queue

/-! ### Calls -/

/-- Where the call that holds the lock of an outbox stands. -/
inductive Progress where
  | idle
  | admitted (command : Command) (bytes : Nat)
  | reserved (command : Command) (bytes : Nat)
  | counted (command : Command)
  | dropping (octets : Nat) (closing : Bool)
  | leaving (octets : Nat) (closing : Bool)
  deriving DecidableEq

/-- The commands other threads queue for one connection, with the mirror of its octets that is read
without the lock, and whether a close of it returned. -/
structure Outbox where
  highWater : Nat
  queue : Queue := {}
  mirror : Nat := 0
  progress : Progress := .idle
  finished : Bool := false
  deriving DecidableEq

/-- What is called on an outbox. -/
inductive OutboxCall where
  | push (command : Command)
  | broadcast (frame : Bytes) (limit : Nat)
  | close
  | pollReady (task : Nat)
  | take
  | sealing
  | release (octets : Nat)
  deriving DecidableEq

namespace Outbox

/-- Whether a Close that is pushed may start a closing handshake. -/
def startBody : Command → Except Ws.Error Unit
  | .close code reason => (Close.startBody code reason).map fun _ => ()
  | _ => .ok ()

/-- A call takes the lock and does what comes before its first step on the mirror or the total. -/
def enter (outbox : Outbox) : OutboxCall → Outbox
  | .push command =>
    match startBody command, outbox.queue.accepted outbox.highWater command with
    | .ok (), .ok bytes => { outbox with progress := .admitted command bytes }
    | _, _ => outbox
  | .broadcast frame limit => { outbox with queue := outbox.queue.broadcast frame limit }
  | .pollReady task => { outbox with queue := (outbox.queue.pollReady task).1 }
  | .take => { outbox with queue := outbox.queue.take.1 }
  | .sealing => { outbox with queue := outbox.queue.sealed.1 }
  | .close =>
    { outbox with
      queue := outbox.queue.shut.1
      progress := .dropping outbox.queue.shut.2 true }
  | .release octets =>
    { outbox with
      queue := (outbox.queue.discount octets).1
      progress := .dropping (outbox.queue.discount octets).2 false }

/-- The call that holds the lock does its next step. -/
def proceed (outbox : Outbox) (total : OutboxTotal) : Outbox × OutboxTotal :=
  match outbox.progress with
  | .idle => (outbox, total)
  | .admitted command bytes =>
    match total.reserve command.octets with
    | none => ({ outbox with progress := .idle }, total)
    | some total => ({ outbox with progress := .reserved command bytes }, total)
  | .reserved command bytes =>
    ({ outbox with queue := { outbox.queue with bytes }, progress := .counted command }, total)
  | .counted command =>
    ({ outbox with
      mirror := outbox.queue.bytes
      queue := outbox.queue.append outbox.highWater command
      progress := .idle }, total)
  | .dropping octets closing =>
    ({ outbox with mirror := outbox.queue.bytes, progress := .leaving octets closing }, total)
  | .leaving octets closing =>
    ({ outbox with
      queue := if closing then outbox.queue.clear else (outbox.queue.drain outbox.highWater).1
      progress := .idle
      finished := outbox.finished || closing }, total.release octets)

end Outbox

/-! ### Calls as the source writes them -/

namespace Outbox

variable {outbox : Outbox}

end Outbox

/-! ### Workers -/

/-- The outboxes that share a total. -/
structure Worker where
  outboxes : List Outbox := []
  total : OutboxTotal
  deriving DecidableEq

/-- What happens next: an outbox is made, a call takes the lock of one, or the call that holds a
lock does its next step. -/
inductive OutboxMove where
  | make (highWater : Nat)
  | enter (index : Nat) (call : OutboxCall)
  | proceed (index : Nat)
  deriving DecidableEq

namespace Worker

def step (worker : Worker) : OutboxMove → Worker
  | .make highWater => { worker with outboxes := worker.outboxes ++ [{ highWater }] }
  | .enter index call =>
    match worker.outboxes[index]? with
    | some outbox =>
      if outbox.progress = .idle then
        { worker with outboxes := worker.outboxes.set index (outbox.enter call) }
      else worker
    | none => worker
  | .proceed index =>
    match worker.outboxes[index]? with
    | some outbox =>
      { outboxes := worker.outboxes.set index (outbox.proceed worker.total).1
        total := (outbox.proceed worker.total).2 }
    | none => worker

/-- A worker after moves, from one without outboxes on. -/
def run (limit : Nat) (moves : List OutboxMove) : Worker :=
  moves.foldl step { total := { limit } }

end Worker

end ZeroServer.Realtime
