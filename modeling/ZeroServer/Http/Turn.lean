/-
This file models the rest of the connection driver's turn: starting the requests that may run,
choosing the next write and laying out its slices, waiting for the next event, and reacting to
it, with the order of a whole turn and the cleanup behind the last one.
-/

import ZeroServer.Http.Conn

namespace ZeroServer.Http

open Http1

namespace Conn

/-! ### Starting -/

/-- Start the handler of the `index`th request, whose record moves into the future with the
charge of its body. -/
def startAt (conn : Conn) (index : Nat) (entry : Entry) : Conn :=
  match entry.record with
  | none => conn
  | some record =>
    let position := conn.ring.position index
    let charged : Charged :=
      ⟨{ record with charge := saturatingAdd record.charge entry.bodyBytes }, 0⟩
    let shared := conn.shared.noteAdd record.charge entry.bodyBytes
    let ring := conn.ring.entryMut position fun entry =>
      { entry with record := none, bodyBytes := 0 }
    match ring.start position charged with
    | (true, ring) => { conn with shared := shared, ring := ring }
    | (false, ring) =>
      dropFuture { conn with shared := shared, ring := ring, aborted := true } (some charged)

/-- The turns of the start loop from the `index`th request on, `left` of them. -/
def startFrom : Nat → Nat → Bool → Conn → Conn
  | 0, _, _, conn => conn
  | left + 1, index, allSafeBefore, conn =>
    match conn.ring.entry (conn.ring.position index) with
    | none => startFrom left (index + 1) allSafeBefore conn
    | some entry =>
      let runs := entry.stage == .waiting && (index == 0 || allSafeBefore && entry.safe)
      let conn := if runs then conn.startAt index entry else conn
      let started := (conn.ring.entry (conn.ring.position index)).any (·.stage.isStarted)
      startFrom left (index + 1) (allSafeBefore && entry.safe && started) conn

/-- Start every waiting request that may run: the head of the ring always, a later one only
when it and everything before it is safe and started. -/
def startRunnable (conn : Conn) : Conn := startFrom conn.ring.len 0 true conn

/-! ### Writing -/

/-- How many consecutive responses are done from the `index`th entry on, among `left`, and
their bytes. -/
def doneAhead (ring : Ring Charged) : Nat → Nat → Nat × Nat
  | 0, _ => (0, 0)
  | left + 1, index =>
    match ring.entry (ring.position index) with
    | none => (0, 0)
    | some entry =>
      match entry.stage, entry.record with
      | .done, some record =>
        let (count, total) := doneAhead ring left (index + 1)
        (count + 1, responseLen record + total)
      | _, _ => (0, 0)

/-- Whether an entry owes the `100 Continue`. -/
def owes (entry : Entry) : Bool :=
  match entry.stage with
  | .body _ continuePending _ => continuePending
  | _ => false

/-- Choose the next write: every consecutive done response from the head, or the
`100 Continue` the head entry owes. -/
def planWrite (conn : Conn) (now : Nat) : Conn :=
  if conn.writing.isSome || conn.aborted then conn
  else
    match doneAhead conn.ring conn.ring.len 0 with
    | (count, total) =>
      if count > 0 then
        { conn with writing := some ⟨count, false, 0, total⟩, sentAt := now }
      else if conn.ring.first.any owes then
        { conn with writing := some ⟨0, true, 0, continueBlock.length⟩, sentAt := now }
      else conn

/-- The record of the `index`th entry. -/
def recordAt (ring : Ring Charged) (index : Nat) : Option Record :=
  (ring.entry (ring.position index)).bind Entry.record

/-- The head and the body of each response from the `index`th entry on, `left` of them. -/
def responseSlices (ring : Ring Charged) : Nat → Nat → List Bytes
  | 0, _ => []
  | left + 1, index =>
    match recordAt ring index with
    | none => []
    | some record =>
      record.responseHead ::
        (if bodyAllowed record.headRequest (record.status.getD .ok) then [record.responseBody]
          else []) ++
        responseSlices ring left (index + 1)

/-- Skip bytes at the front of a list of slices. -/
def advanceSlices : List Bytes → Nat → List Bytes
  | [], _ => []
  | slice :: rest, skipped =>
    if slice.length ≤ skipped then advanceSlices rest (skipped - slice.length)
    else slice.drop skipped :: rest

/-- The most slices one write takes: a `100 Continue`, and a head and a body for each entry. -/
def slices : Nat := 1 + 2 * cap

/-- The slices of a write: the `100 Continue`, then each done response's head and body, with
the bytes already written skipped. -/
def fillSlices (ring : Ring Charged) (writing : Writing) : List Bytes :=
  let filled :=
    (((if writing.continues then [continueBlock] else []) ++
      responseSlices ring writing.count 0).filter fun slice => !slice.isEmpty).take slices
  if writing.written < filled.flatten.length then advanceSlices filled writing.written
  else filled

/-- The bytes handed to the next write. -/
def toWrite (conn : Conn) : Bytes :=
  conn.writing.elim [] fun writing => (fillSlices conn.ring writing).flatten

/-! ### Waiting -/

/-- Whether the wait reads. -/
def wantRead (conn : Conn) : Bool :=
  (conn.input.isEmpty || conn.headSince.isSome) &&
    (!conn.close || conn.ring.bodyPending) &&
    conn.retryReadAt.isNone && !conn.taking && !conn.ring.upgradePending

/-- Poll the running futures from the `index`th entry on, `left` of them: each one with an
outcome moves its record to the completed ones and lets go of its holds. -/
def pollFrom (outcome : Nat → Option Record.Answer) : Nat → Nat → Conn → Conn
  | 0, _, conn => conn
  | left + 1, index, conn =>
    let position := conn.ring.position index
    let polled :=
      match conn.ring.entry position with
      | none => conn
      | some entry =>
        match entry.stage, entry.slot, conn.ring.future entry, outcome index with
        | .running, some slot, some charged, some answer =>
          { conn with
            ring := { conn.ring with futures := conn.ring.futures.set slot none }
            completed := conn.completed ++ [(position, charged.record.answered answer)]
            holds := conn.holds - charged.holds }
        | _, _, _, _ => conn
    pollFrom outcome left (index + 1) polled

/-- Poll every running future once. -/
def pollRunning (conn : Conn) (outcome : Nat → Option Record.Answer) : Conn :=
  pollFrom outcome conn.ring.len 0 conn

/-! ### Reacting -/

/-- A response that claims the connection, or that the handler marked to close it, is the
connection's last: the requests behind it are dropped. -/
def endBehind (conn : Conn) (position : Nat) (record : Record) : Conn :=
  if record.claim.isSome || record.close then
    let conn :=
      { conn with
        taking := conn.taking || record.claim.isSome
        close := conn.close || record.close }
    (conn.ring.indexOf position).elim conn fun index => conn.discardFrom (index + 1)
  else conn

/-- Put a serialized response on its entry, with the charge its record still holds; one whose
entry is gone is let go of. -/
def putResponse (conn : Conn) (position : Nat) (record : Record) : Conn :=
  let (future, ring) := conn.ring.clearFuture position
  let conn := ({ conn with ring := ring }).dropFuture future
  match conn.ring.entry position with
  | some entry =>
    { conn with
      shared := conn.shared.noteAdd entry.bodyBytes record.charge
      ring := conn.ring.entryMut position fun entry =>
        { entry with
          bodyBytes := saturatingAdd entry.bodyBytes record.charge
          record := some { record with charge := 0 }
          stage := .done } }
  | none => { conn with shared := conn.shared.giveRecord record }

/-- Serialize a completed response and mark its entry done. -/
def complete (conn : Conn) (position : Nat) (record : Record) : Conn :=
  let last := !conn.ring.isEmpty && conn.ring.position (conn.ring.len - 1) == position
  let record := serialize conn.shared record (record.close || conn.close && last)
  (conn.endBehind position record).putResponse position record

/-- Take the completed responses from the last one on, `times` of them at most. -/
def drainTimes : Nat → Conn → Conn
  | 0, conn => conn
  | times + 1, conn =>
    match conn.completed.getLast? with
    | none => conn
    | some (position, record) =>
      drainTimes times
        (complete { conn with completed := conn.completed.dropLast } position record)

/-- Serialize every completed response and mark its entry done. -/
def drainCompleted (conn : Conn) : Conn := drainTimes conn.completed.length conn

/-- The peer closed its side: an incomplete request gets no response. -/
def eof (conn : Conn) : Conn :=
  let shared := conn.next.elim conn.shared fun record => conn.shared.giveRecord record.1
  let conn := { conn with input := [], headSince := none, next := none, shared := shared }
  let conn := if conn.ring.bodyPending then conn.discardBack else conn
  conn.markClose

/-- Note that the head entry's `100 Continue` is written. -/
def continuedEntry (entry : Entry) : Entry :=
  { entry with
    stage :=
      match entry.stage with
      | .body framing _ maxBody => .body framing false maxBody
      | stage => stage
    record := entry.record.map fun record => { record with continued := true } }

/-- Remove `count` written responses from the head; the flag gathers whether one of them ends
the connection. -/
def popWritten : Nat → Bool → Conn → Bool × Conn
  | 0, closed, conn => (closed, conn)
  | count + 1, closed, conn =>
    match conn.ring.popFront with
    | (none, future, ring) =>
      popWritten count closed (({ conn with ring := ring }).dropFuture future)
    | (some entry, future, ring) =>
      let conn := ({ conn with ring := ring }).dropFuture future
      let closed := closed || entry.record.any (·.close)
      let claimed := entry.record.any (·.claim.isSome)
      let conn := if claimed then { conn with taken := entry.record } else conn
      let entry := if claimed then { entry with record := none } else entry
      popWritten count closed (conn.releaseEntry entry)

/-- What is left to do once the responses of a write are off the queue. -/
def endWritten (conn : Conn) (closed : Bool) (now : Nat) : Conn :=
  let conn := if closed then { conn.discardFrom 0 with close := true } else conn
  if conn.ring.isEmpty then { conn with idleSince := now } else conn

/-- Bytes were written: finish the batch when it is complete. -/
def wrote (conn : Conn) (count now : Nat) : Conn :=
  match conn.writing with
  | none => conn
  | some writing =>
    let conn := { conn with sentAt := now }
    let written := writing.written + count
    if written < writing.total then
      { conn with writing := some { writing with written := written } }
    else
      let conn := { conn with writing := none }
      let conn :=
        if writing.continues then
          { conn with ring := conn.ring.entryMut (conn.ring.position 0) continuedEntry }
        else conn
      let (closed, conn) := popWritten writing.count false conn
      conn.endWritten closed now

/-- React to what the wait produced. -/
def apply (conn : Conn) (event : Event) (now : Nat) : Conn :=
  let conn := conn.drainCompleted
  match event with
  | .read bytes => { conn with input := conn.input ++ bytes }
  | .eof => conn.eof
  | .noBudget => { conn with retryReadAt := some (now + budgetRetry) }
  | .readFailed => { conn with aborted := true }
  | .writeFailed => { conn with aborted := true }
  | .wrote 0 => { conn with aborted := true }
  | .wrote count => conn.wrote count now
  | .progress => conn
  | .timer => conn
  | .shutdown => markClose { conn with draining := true }

/-! ### The loop -/

/-- The bookkeeping of one turn, with the clock read at its start and at its end. -/
def tick (conn : Conn) (now later : Nat) : Conn :=
  ((((conn.resumeReading now).expire now).processInput now).startRunnable).planWrite later

/-- Whether the loop ends after a turn. -/
def finished (conn : Conn) : Bool :=
  conn.taken.isSome || conn.aborted ||
    conn.close && conn.ring.isEmpty && conn.writing.isNone

/-- What is left when the loop ended: every record goes back but one that was taken over, which
leaves with the connection. -/
def finish (conn : Conn) : Conn :=
  let shared := conn.next.elim conn.shared fun record => conn.shared.giveRecord record.1
  let conn := { conn with input := [], next := none, shared := shared }
  let conn := conn.discardFrom 0
  if conn.aborted then
    { conn with
      taken := none
      shared := conn.taken.elim conn.shared conn.shared.giveRecord }
  else { conn with taken := none }

end Conn

end ZeroServer.Http
