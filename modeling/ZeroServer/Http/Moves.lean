/-
This file says once what the connection driver can do to its state besides writing: every turn
and every reaction to an event is a sequence of the moves below, each given with the condition it
is made under and with what it does to the queue of requests, to the futures and to the count of
buffered bytes. What holds of every run is derived from the moves.
-/

import ZeroServer.Http.Run

namespace ZeroServer.Http

open Http1

/-! ### Counting -/

/-- What is left of the core's state once an amount was taken off the count. -/
structure Shared.Uncounted (shared left : Shared) (amount : Nat) : Prop where
  kin : Shared.Kin shared left
  date : left.date = shared.date
  bodies : left.bodies = shared.bodies - amount
  clipped : left.clipped = (shared.clipped || decide (shared.bodies < amount))

/-- The charge a future that may be there holds. -/
def heldCharge (future : Option Charged) : Nat := future.elim 0 fun charged => charged.record.charge

/-- The charge a record that may be there holds. -/
def recordCharge (record : Option Record) : Nat := record.elim 0 Record.charge

/-! ### Editing the ring -/

/-- The ring after one entry was changed in place. -/
structure Ring.Edited {Future : Type} (ring edited : Ring Future) (index : Nat)
    (change : Entry → Entry) : Prop where
  contents : edited.contents = ring.contents.modify index change
  head : edited.head = ring.head
  pushed : edited.pushed = ring.pushed

/-- The ring after a request was added. -/
structure Ring.Grown {Future : Type} (ring grown : Ring Future) (entry : Entry) : Prop where
  contents : grown.contents = ring.contents ++
    [{ entry with serial := ring.pushed, place := ring.position ring.len }]
  head : grown.head = ring.head
  pushed : grown.pushed = ring.pushed + 1
  futures : grown.futures = ring.futures
  freeSlots : grown.freeSlots = ring.freeSlots

/-- What a body of known length still lacks. -/
def Stage.lacking : Stage → Nat
  | .body (.length remaining) _ _ => remaining
  | _ => 0

/-- A stage of a body under its limit, or the one behind it. -/
def Stage.reads (stage : Stage) (maxBody : Nat) : Prop :=
  stage = .waiting ∨ ∃ framing pending, stage = .body framing pending maxBody

/-- The stage of a body that started arriving, or the one behind it. -/
def Stage.fed (stage : Stage) (maxBody : Nat) : Prop :=
  stage = .waiting ∨ ∃ framing, stage = .body framing false maxBody

theorem Stage.fed.reads {stage : Stage} {maxBody : Nat} (fed : stage.fed maxBody) :
    stage.reads maxBody := by
  rcases fed with waiting | ⟨framing, body⟩
  · exact .inl waiting
  · exact .inr ⟨framing, false, body⟩

/-- The write in progress does not reach the `index`th entry. -/
def Conn.Beyond (conn : Conn) (index : Nat) : Prop :=
  ∀ writing, conn.writing = some writing → writing.count ≤ index

/-- A request may be taken in: no response ends the connection yet, and the last request is
complete and may be followed. -/
structure Conn.Open (conn : Conn) : Prop where
  close : conn.close = false
  taking : conn.taking = false
  read : conn.ring.bodyPending = false
  completed : conn.completed = []

/-! ### The moves -/

namespace Conn

inductive Move : Conn → Conn → Prop
  /-- Flags no response depends on. -/
  | aside {conn : Conn} (retryReadAt : Option Nat) (draining readHeld aborted : Bool)
      (holds : Nat) :
      Move conn { conn with
        retryReadAt := retryReadAt, draining := draining, readHeld := readHeld,
        aborted := aborted, holds := holds }
  /-- The clocks of the idle and the send deadline. -/
  | clock {conn : Conn} (idleSince sentAt : Nat) :
      Move conn { conn with idleSince := idleSince, sentAt := sentAt }
  /-- Records go to and come from the free list. -/
  | lend {conn : Conn} {shared : Shared} (same : conn.shared.Uncounted shared 0) :
      Move conn { conn with shared := shared }
  /-- Input is used up. -/
  | skip {conn : Conn} (count : Nat) : Move conn { conn with input := conn.input.drop count }
  /-- The head being read is given up. -/
  | forget {conn : Conn} : Move conn { conn with next := none, headSince := none }
  /-- The deadline of the head being read starts over. -/
  | postpone {conn : Conn} (since : Nat) (reading : conn.headSince.isSome = true) :
      Move conn { conn with headSince := some since }
  /-- The deadline of a body starts over. -/
  | restamp {conn : Conn} {ring : Ring Charged} {index : Nat} {entry : Entry}
      (found : conn.ring.contents[index]? = some entry) (idle : conn.completed = []) (now : Nat)
      (edited : conn.ring.Edited ring index fun entry => { entry with lastByte := now })
      (futures : ring.futures = conn.ring.futures)
      (freeSlots : ring.freeSlots = conn.ring.freeSlots) :
      Move conn { conn with ring := ring }
  /-- The head parser wants more input. -/
  | await {conn : Conn} {shared : Shared} (opened : conn.Open)
      (same : conn.shared.Uncounted shared 0) (record : FreshRecord) (since : Nat) :
      Move conn { conn with
        shared := shared, next := some record, headSince := some since,
        parses := conn.parses + 1 }
  /-- A request is taken in. -/
  | enlist {conn : Conn} {shared : Shared} {ring : Ring Charged} {record : Record} {head : Head}
      {stage : Stage} (opened : conn.Open) (same : conn.shared.Uncounted shared 0)
      (charge : record.charge = 0) (body : record.body = []) (parsed : record.parsed = some head)
      (reads : stage.reads (bodyLimit shared record head))
      (fits : stage.lacking ≤ bodyLimit shared record head) (now requests used : Nat)
      (close : Bool) (grown : conn.ring.Grown ring (Entry.new record stage now)) :
      Move conn { conn with
        shared := shared, ring := ring, next := none, headSince := none,
        parses := conn.parses + 1, requests := requests, input := conn.input.drop used,
        close := close }
  /-- A head is answered by the driver as it arrives. -/
  | refuse {conn : Conn} {shared : Shared} {ring : Ring Charged} {record : Record}
      (opened : conn.Open) (same : conn.shared.Uncounted shared 0) (charge : record.charge = 0)
      (body : record.body = []) (closes : record.close = true) (now requests : Nat)
      (grown : conn.ring.Grown ring (Entry.new record .done now)) :
      Move conn { conn with
        shared := shared, ring := ring, next := none, headSince := none,
        parses := conn.parses + 1, requests := requests, input := [], close := true }
  /-- A head that took too long is answered by the driver. -/
  | overdue {conn : Conn} {shared : Shared} {ring : Ring Charged} {record : Record}
      (reading : conn.headSince.isSome = true) (idle : conn.completed = [])
      (same : conn.shared.Uncounted shared 0) (charge : record.charge = 0)
      (body : record.body = []) (closes : record.close = true) (now : Nat)
      (grown : conn.ring.Grown ring (Entry.new record .done now)) :
      Move conn { conn with
        shared := shared, ring := ring, next := none, headSince := none, input := [],
        close := true }
  /-- No further request is read. -/
  | shut {conn : Conn} : Move conn { conn with close := true }
  /-- A handler claimed the connection. -/
  | seize {conn : Conn} : Move conn { conn with taking := true }
  /-- The last response, which is not being written, is serialized again with the close
  option. -/
  | reclose {conn : Conn} {ring : Ring Charged} {items : List Entry} {entry : Entry}
      {record : Record} (closed : conn.close = true) (idle : conn.completed = [])
      (queue : conn.ring.contents = items ++ [entry]) (beyond : conn.Beyond items.length)
      (done : entry.stage = .done) (held : entry.record = some record)
      (edited : conn.ring.Edited ring items.length fun entry =>
        { entry with record := some (serialize conn.shared record true) })
      (futures : ring.futures = conn.ring.futures)
      (freeSlots : ring.freeSlots = conn.ring.freeSlots) :
      Move conn { conn with ring := ring }
  /-- The last request, whose response is not being written, is dropped. -/
  | discard {conn : Conn} {shared : Shared} {ring : Ring Charged} {items : List Entry}
      {entry : Entry} (queue : conn.ring.contents = items ++ [entry])
      (beyond : conn.Beyond items.length) (left : ring.contents = items)
      (head : ring.head = conn.ring.head) (cleared : conn.ring.Cleared ring entry)
      (returned : conn.shared.Uncounted shared
        (heldCharge (conn.ring.future entry) + entry.bodyBytes + recordCharge entry.record))
      (holds : Nat) :
      Move conn { conn with shared := shared, ring := ring, holds := holds }
  /-- The last request is answered by the driver in place of its handler. -/
  | fail {conn : Conn} {shared : Shared} {ring : Ring Charged} {items : List Entry}
      {entry : Entry} {record : Record} (queue : conn.ring.contents = items ++ [entry])
      (open_ : entry.stage ≠ .done) (closes : record.close = true)
      (charge : record.charge = recordCharge entry.record)
      (body : record.body = [] ∨ ∃ kept, entry.record = some kept ∧ record.body = kept.body ∧
        record.head = kept.head ∧ record.parsed = kept.parsed)
      (idle : conn.completed = [])
      (edited : conn.ring.Edited ring items.length fun entry =>
        { entry with slot := none, record := some record, stage := .done })
      (cleared : conn.ring.Cleared ring entry)
      (returned : conn.shared.Uncounted shared (heldCharge (conn.ring.future entry)))
      (holds : Nat) :
      Move conn { conn with
        shared := shared, ring := ring, holds := holds, input := [], close := true }
  /-- Body bytes are fed to the last request. -/
  | feed {conn : Conn} {ring : Ring Charged} {items : List Entry} {entry : Entry}
      {record : Record} {framing : Framing} {pending : Bool} {maxBody used : Nat} {data : Bytes}
      {stage : Stage} (queue : conn.ring.contents = items ++ [entry])
      (idle : conn.completed = [])
      (reading : entry.stage = .body framing pending maxBody) (held : entry.record = some record)
      (fed : stage.fed maxBody) (share : data.length + (conn.input.drop used).length ≤
        conn.input.length)
      (fits : record.body.length + entry.stage.lacking ≤ maxBody →
        record.body.length + data.length + stage.lacking ≤ maxBody) (now : Nat)
      (edited : conn.ring.Edited ring items.length fun entry =>
        { entry with
          record := some { record with body := record.body ++ data }
          lastByte := now
          bodyBytes := saturatingAdd entry.bodyBytes data.length
          stage := stage })
      (futures : ring.futures = conn.ring.futures)
      (freeSlots : ring.freeSlots = conn.ring.freeSlots) :
      Move conn { conn with
        ring := ring
        shared := (conn.shared.noteAdd entry.bodyBytes data.length).countBody data.length
        input := conn.input.drop used }
  /-- Framing of the last request's body is read. -/
  | frame {conn : Conn} {ring : Ring Charged} {items : List Entry} {entry : Entry}
      {record : Record} {framing : Framing} {pending : Bool} {maxBody used : Nat}
      {stage : Stage} (queue : conn.ring.contents = items ++ [entry])
      (idle : conn.completed = [])
      (reading : entry.stage = .body framing pending maxBody) (held : entry.record = some record)
      (fed : stage.fed maxBody) (fits : stage.lacking ≤ entry.stage.lacking)
      (trailers : Bytes) (now : Nat)
      (edited : conn.ring.Edited ring items.length fun entry =>
        { entry with
          record := some { record with trailers := trailers }, lastByte := now, stage := stage })
      (futures : ring.futures = conn.ring.futures)
      (freeSlots : ring.freeSlots = conn.ring.freeSlots) :
      Move conn { conn with ring := ring, input := conn.input.drop used }
  /-- The handler of a request that may run is started. -/
  | start {conn : Conn} {ring : Ring Charged} {index slot : Nat} {entry : Entry}
      {record : Record} (found : conn.ring.contents[index]? = some entry)
      (waiting : entry.stage = .waiting) (held : entry.record = some record)
      (runs : index = 0 ∨ entry.safe = true ∧ ∀ earlier ∈ conn.ring.contents.take index,
        earlier.safe = true ∧ earlier.stage.isStarted = true)
      (idle : conn.completed = []) (sound : ring.Sound)
      (edited : conn.ring.Edited ring index fun entry =>
        { entry with
          record := none, bodyBytes := 0, slot := some slot, stage := .running, started := true })
      (futures :
        let charged : Charged :=
          ⟨{ record with charge := saturatingAdd record.charge entry.bodyBytes }, 0⟩
        ring.futures = conn.ring.futures.set slot (some charged) ∧
            conn.ring.futures[slot]? = some none ∨
          ring.futures = conn.ring.futures ++ [some charged]) :
      Move conn { conn with
        ring := ring, shared := conn.shared.noteAdd record.charge entry.bodyBytes }
  /-- A future completes. -/
  | ready {conn : Conn} {index slot : Nat} {entry : Entry} {charged : Charged}
      (found : conn.ring.contents[index]? = some entry) (running : entry.stage = .running)
      (owned : entry.slot = some slot) (runs : conn.ring.futures[slot]? = some (some charged))
      (answer : Record.Answer) (holds : Nat) :
      Move conn { conn with
        ring := { conn.ring with futures := conn.ring.futures.set slot none }
        completed := conn.completed ++
          [(conn.ring.position index, charged.record.answered answer)]
        holds := holds }
  /-- A completed response is put on its entry; one that claims or closes the connection is the
  last. -/
  | finish {conn : Conn} {ring : Ring Charged} {index position : Nat} {entry : Entry}
      {record : Record} {rest : List (Nat × Record)} {closing : Bool}
      (took : conn.completed = rest ++ [(position, record)])
      (found : conn.ring.contents[index]? = some entry)
      (here : conn.ring.position index = position)
      (answer : let done := serialize conn.shared record (record.close || closing)
        (closing = true → conn.close = true ∧ index + 1 = conn.ring.len) ∧
        (done.claim.isSome = true → conn.taking = true ∧ index + 1 = conn.ring.len) ∧
        (record.close = true → conn.close = true ∧ index + 1 = conn.ring.len))
      (edited : conn.ring.Edited ring index fun entry =>
        { entry with
          slot := none
          bodyBytes := saturatingAdd entry.bodyBytes record.charge
          record := some { serialize conn.shared record (record.close || closing) with charge := 0 }
          stage := .done })
      (cleared : conn.ring.Cleared ring entry) :
      Move conn { conn with
        ring := ring, completed := rest
        shared := conn.shared.noteAdd entry.bodyBytes record.charge }
  /-- A completed response whose request was dropped meanwhile is let go of. -/
  | strand {conn : Conn} {shared : Shared} {position : Nat} {record : Record}
      {rest : List (Nat × Record)} (took : conn.completed = rest ++ [(position, record)])
      (returned : conn.shared.Uncounted shared record.charge) :
      Move conn { conn with completed := rest, shared := shared }
  /-- A running handler works on what it holds. -/
  | work {conn next : Conn} (works : conn.Works next) : Move conn next
  /-- A running handler exports its request. -/
  | exports {conn : Conn} {slot : Nat} {charged : Charged}
      (runs : conn.ring.futures[slot]? = some (some charged)) :
      Move conn (conn.exportRequest slot charged)

/-- Sequences of moves. -/
def Moves : Conn → Conn → Prop := Relation.ReflTransGen Move

end Conn

end ZeroServer.Http
