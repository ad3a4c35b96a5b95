/-
This file models the connection driver: the state of one connection and the operations of one
turn of its loop, which fires the deadlines that passed, parses heads and reads bodies from
the input, starts the requests that may run and plans the next write, and of the reaction to
what the wait for the next event produced.
-/

import ZeroServer.Http1.HeadStable
import ZeroServer.Http1.Trailers
import ZeroServer.Http.Authority
import ZeroServer.Http.Ring
import ZeroServer.Http.Serialize

namespace ZeroServer.Http

open Http1

/-- How long a connection waits for pool budget before it tries to read again. -/
def budgetRetry : Nat := 1

/-- The most trailer fields a request keeps. -/
def trailerTable : Nat := 16

/-- The write in progress: the first `count` entries of the ring, all done, or the
`100 Continue` for the head entry. -/
structure Writing where
  count : Nat
  continues : Bool
  written : Nat
  total : Nat
  deriving DecidableEq

/-- What one turn of the loop woke up for. -/
inductive Event where
  | read (bytes : Bytes)
  | eof
  | noBudget
  | readFailed
  | wrote (count : Nat)
  | writeFailed
  | progress
  | timer
  | shutdown
  deriving DecidableEq

/-- What feeding body bytes to the tail entry did. -/
inductive Fed where
  | progress
  | stalled
  | reject (status : StatusCode)
  deriving DecidableEq

/-- A running handler: the record of its request and the read holds it keeps itself. -/
structure Charged where
  record : Record
  holds : Nat

/-- The driver of one connection. The input is the unconsumed bytes, however they are
stored; `holds` counts the read holds its requests took, and `parses` is a ghost that counts
the runs of the head parser. -/
structure Conn where
  shared : Shared
  authorities : Option (List Bytes) := none
  input : Bytes := []
  next : Option FreshRecord := none
  headSince : Option Nat := none
  idleSince : Nat := 0
  ring : Ring Charged := Ring.new
  writing : Option Writing := none
  sentAt : Nat := 0
  completed : List (Nat × Record) := []
  requests : Nat := 0
  close : Bool := false
  draining : Bool := false
  retryReadAt : Option Nat := none
  aborted : Bool := false
  taking : Bool := false
  taken : Option Record := none
  holds : Nat := 0
  readHeld : Bool := false
  parses : Nat := 0

namespace Conn

def limits (conn : Conn) : Http1Limits := conn.shared.limits

def maxPipelined (conn : Conn) : Nat := min (max conn.limits.maxPipelined 1) cap

def held (conn : Conn) : Bool := conn.holds > 0

def errorShape (conn : Conn) : ErrorShape := conn.shared.handler.errorShape

/-! ### Letting go of requests -/

/-- The future of a request is dropped: its record returns the charge it holds and leaves its
parsed head behind, and the holds it kept are gone. -/
def dropFuture (conn : Conn) (future : Option Charged) : Conn :=
  future.elim conn fun charged =>
    { conn with
      shared := { conn.shared.uncountBody charged.record.charge with
        canceled := charged.record.parsed }
      holds := conn.holds - charged.holds }

/-- Return an entry's record and body budget. -/
def releaseEntry (conn : Conn) (entry : Entry) : Conn :=
  let shared := conn.shared.uncountBody entry.bodyBytes
  { conn with shared := entry.record.elim shared shared.giveRecord }

/-- Remove the tail entry and let go of it. -/
def discardBack (conn : Conn) : Conn :=
  match conn.ring.popBack with
  | (entry, future, ring) =>
    let conn := ({ conn with ring := ring }).dropFuture future
    entry.elim conn conn.releaseEntry

def discardTimes : Nat → Conn → Conn
  | 0, conn => conn
  | times + 1, conn => discardTimes times conn.discardBack

/-- Drop every entry from the `start`th onward; their handlers are canceled. -/
def discardFrom (conn : Conn) (start : Nat) : Conn :=
  discardTimes (conn.ring.len - start) conn

/-! ### Closing -/

/-- The last response once the connection closes: a done one is serialized again with the
close option. -/
def closingEntry (shared : Shared) (entry : Entry) : Entry :=
  if entry.stage = .done then
    { entry with record := entry.record.map (serialize shared · true) }
  else entry

/-- No further request is read; the last response says so, unless it is being written. -/
def markClose (conn : Conn) : Conn :=
  let conn := { conn with close := true }
  if conn.ring.isEmpty then conn
  else
    let last := conn.ring.len - 1
    if conn.writing.any (last < ·.count) then conn
    else
      { conn with
        ring := conn.ring.entryMut (conn.ring.position last) (closingEntry conn.shared) }

/-- The driver's own last answer on a record. -/
def lastAnswer (conn : Conn) (record : Record) (status : StatusCode) : Record :=
  serialize conn.shared { record.answer status conn.errorShape with close := true } true

/-- Cancel the handler of the entry at a position: the parsed head its record left behind, and
the connection without the future. -/
def cancelAt (conn : Conn) (position : Nat) : Option Head × Conn :=
  let (future, ring) := conn.ring.clearFuture position
  let conn :=
    dropFuture { conn with ring := ring, shared := { conn.shared with canceled := none } } future
  (conn.shared.canceled, { conn with shared := { conn.shared with canceled := none } })

/-- The record an answer for the entry at a position is built on: the entry's own, or a fresh
one with the parsed head of the canceled request. -/
def failedRecord (conn : Conn) (position : Nat) (canceled : Option Head) : Record × Shared :=
  match (conn.ring.entry position).bind Entry.record with
  | some record => (record, conn.shared)
  | none =>
    let (fresh, shared) := conn.shared.takeRecord
    ({ fresh.1 with parsed := canceled }, shared)

/-- Answer the `index`th request, the last one, with `status`; its handler is canceled. -/
def answerAt (conn : Conn) (index : Nat) (status : StatusCode) : Conn :=
  let position := conn.ring.position index
  let (canceled, conn) := conn.cancelAt position
  let (record, shared) := conn.failedRecord position canceled
  let conn := { conn with shared := shared }
  let record := conn.lastAnswer record status
  markClose
    { conn with
      ring := conn.ring.entryMut position fun entry =>
        { entry with record := some record, stage := .done }
      input := [] }

/-- Answer the `index`th request with `status` and close; later requests are discarded, a
running handler is canceled. -/
def failAt (conn : Conn) (index : Nat) (status : StatusCode) : Conn :=
  (conn.discardFrom (index + 1)).answerAt index status

/-- Queue an entry; a full ring aborts the connection. -/
def queue (conn : Conn) (entry : Entry) : Conn :=
  match conn.ring.push entry with
  | some ring => { conn with ring := ring }
  | none => { conn.releaseEntry entry with aborted := true }

/-- Answer a request that has no entry yet and close. -/
def answerNow (conn : Conn) (record : Record) (status : StatusCode) (now : Nat) : Conn :=
  let conn := conn.queue (Entry.new (conn.lastAnswer record status) .done now)
  markClose { conn with input := [] }

/-! ### Deadlines -/

/-- Whether nothing is in flight and nothing is being read. -/
def idle (conn : Conn) : Bool :=
  conn.ring.isEmpty && conn.input.isEmpty && conn.headSince.isNone && conn.writing.isNone

/-- Restart the read deadlines of the entries from the `index`th on, `left` of them. -/
def restartBodies (now : Nat) : Nat → Nat → Ring Charged → Ring Charged
  | 0, _, ring => ring
  | left + 1, index, ring =>
    restartBodies now left (index + 1)
      (ring.entryMut (ring.position index) fun entry =>
        if entry.stage.isBody then { entry with lastByte := now } else entry)

/-- Restart the read deadlines once the last read hold dropped. -/
def resumeReading (conn : Conn) (now : Nat) : Conn :=
  let held := conn.held
  let conn :=
    if conn.readHeld && !held then
      { conn with
        headSince := conn.headSince.map fun _ => now
        ring := restartBodies now conn.ring.len 0 conn.ring }
    else conn
  { conn with readHeld := held }

/-- The status an entry whose deadline passed is answered with. -/
def expired (conn : Conn) (entry : Entry) (now : Nat) : Option StatusCode :=
  let total := entry.accepted + conn.limits.requestTotal
  match entry.stage with
  | .body .. =>
    if (!conn.held && entry.lastByte + conn.limits.bodyReadIdle ≤ now) || total ≤ now then
      some .requestTimeout
    else none
  | .waiting => if total ≤ now then some .serviceUnavailable else none
  | .running => if total ≤ now then some .serviceUnavailable else none
  | .done => none

/-- The first expired entry from the `index`th on, among `left`. -/
def firstExpired (conn : Conn) (now : Nat) : Nat → Nat → Option (Nat × StatusCode)
  | 0, _ => none
  | left + 1, index =>
    match (conn.ring.entry (conn.ring.position index)).bind (conn.expired · now) with
    | some status => some (index, status)
    | none => firstExpired conn now left (index + 1)

/-- Whether the deadline for a half-read head passed. -/
def headExpired (conn : Conn) (now : Nat) : Bool :=
  !conn.held && conn.headSince.any fun since => since + conn.limits.headerReadTimeout ≤ now

/-- The record a head is being parsed into, or a fresh one. -/
def nextRecord (conn : Conn) : FreshRecord × Shared :=
  match conn.next with
  | some record => (record, conn.shared)
  | none => conn.shared.takeRecord

/-- Answer a head that took too long. -/
def timeOutHead (conn : Conn) (now : Nat) : Conn :=
  let (record, shared) := conn.nextRecord
  answerNow { conn with shared := shared, next := none, headSince := none, input := [] }
    record.1 .requestTimeout now

/-- Fire every deadline that passed. -/
def expire (conn : Conn) (now : Nat) : Conn :=
  let conn := if conn.retryReadAt.any (· ≤ now) then { conn with retryReadAt := none } else conn
  if conn.writing.isSome && decide (conn.sentAt + conn.limits.sendIdle ≤ now) then
    { conn with aborted := true }
  else if conn.idle && !conn.close &&
      decide (conn.idleSince + conn.limits.idleKeepAlive ≤ now) then
    { conn with close := true }
  else if conn.headExpired now then conn.timeOutHead now
  else
    match conn.firstExpired now conn.ring.len 0 with
    | some (index, status) => conn.failAt index status
    | none => conn

/-- Note a deadline beside the earliest one so far. -/
def noteDeadline (earliest : Option Nat) (moment : Nat) : Option Nat :=
  some (earliest.elim moment (min · moment))

/-- The deadlines of an entry. -/
def entryDeadlines (conn : Conn) (entry : Entry) : List Nat :=
  match entry.stage with
  | .body .. =>
    (if conn.held then [] else [entry.lastByte + conn.limits.bodyReadIdle]) ++
      [entry.accepted + conn.limits.requestTotal]
  | .waiting => [entry.accepted + conn.limits.requestTotal]
  | .running => [entry.accepted + conn.limits.requestTotal]
  | .done => []

/-- The earliest deadline, if any; the read deadlines are left out while a hold is in place. -/
def nextDeadline (conn : Conn) (now : Nat) : Option Nat :=
  let moments :=
    (if conn.idle && !conn.close then [conn.idleSince + conn.limits.idleKeepAlive] else []) ++
    (if conn.writing.isSome then [conn.sentAt + conn.limits.sendIdle] else []) ++
    (if conn.held then []
      else (conn.headSince.map (· + conn.limits.headerReadTimeout)).toList) ++
    (List.range conn.ring.len).flatMap fun index =>
      (conn.ring.entry (conn.ring.position index)).elim [] conn.entryDeadlines
  (moments.foldl noteDeadline conn.retryReadAt).map (max · now)

/-! ### Bodies -/

/-- Put `take` bytes of the input into a body of known length. -/
def feedLength (conn : Conn) (entry : Entry) (record : Record) (remaining maxBody now : Nat) :
    Conn × Fed :=
  let take := min remaining conn.input.length
  ({ conn with
      ring := conn.ring.lastMut fun _ =>
        { entry with
          record := some { record with body := record.body ++ conn.input.take take }
          lastByte := now
          bodyBytes := saturatingAdd entry.bodyBytes take
          stage :=
            if remaining - take = 0 then .waiting
            else .body (.length (remaining - take)) false maxBody }
      shared := (conn.shared.noteAdd entry.bodyBytes take).countBody take
      input := conn.input.drop take },
    .progress)

/-- The tail entry after a decoder step that leaves its body where it is. -/
def decodedEntry (entry : Entry) (decoder : ChunkedDecoder) (maxBody now : Nat) : Entry :=
  { entry with lastByte := now, stage := .body (.chunked decoder) false maxBody }

/-- Put one decoder step of the input into a chunked body. -/
def feedChunked (conn : Conn) (entry : Entry) (record : Record) (decoder : ChunkedDecoder)
    (maxBody now : Nat) : Conn × Fed :=
  match decoder.decode conn.input conn.limits with
  | (decoder, .ok (.data data consumed)) =>
    if record.body.length + data.length > maxBody then
      ({ conn with ring := conn.ring.lastMut fun _ => decodedEntry entry decoder maxBody now },
        .reject .contentTooLarge)
    else
      ({ conn with
          ring := conn.ring.lastMut fun _ =>
            { decodedEntry entry decoder maxBody now with
              record := some { record with body := record.body ++ data }
              bodyBytes := saturatingAdd entry.bodyBytes data.length }
          shared := (conn.shared.noteAdd entry.bodyBytes data.length).countBody data.length
          input := conn.input.drop consumed },
        .progress)
  | (decoder, .ok (.needMore consumed)) =>
    ({ conn with
        ring := conn.ring.lastMut fun _ => decodedEntry entry decoder maxBody now
        input := conn.input.drop consumed },
      if consumed = 0 then .stalled else .progress)
  | (decoder, .ok (.done trailers consumed)) =>
    match parseTrailers conn.input trailers (List.replicate trailerTable Field.empty)
        conn.limits with
    | .error reject =>
      ({ conn with ring := conn.ring.lastMut fun _ => decodedEntry entry decoder maxBody now },
        .reject reject.status)
    | .ok _ =>
      ({ conn with
          ring := conn.ring.lastMut fun _ =>
            { entry with
              record := some { record with trailers := record.trailers ++ trailers.of conn.input }
              lastByte := now
              stage := .waiting }
          input := conn.input.drop consumed },
        .progress)
  | (decoder, .error reject) =>
    ({ conn with ring := conn.ring.lastMut fun _ => decodedEntry entry decoder maxBody now },
      .reject reject.status)

/-- Feed body bytes to the tail entry. -/
def feedBody (conn : Conn) (now : Nat) : Conn × Fed :=
  match conn.ring.last with
  | none => (conn, .stalled)
  | some entry =>
    match entry.stage, entry.record with
    | .body framing _ maxBody, some record =>
      if conn.input.isEmpty then (conn, .stalled)
      else
        match framing with
        | .length remaining => conn.feedLength entry record remaining maxBody now
        | .chunked decoder => conn.feedChunked entry record decoder maxBody now
    | _, _ => (conn, .stalled)

/-! ### Heads -/

/-- The body limit for one request: the handler's answer for its method and path, or the
server's. -/
def bodyLimit (shared : Shared) (record : Record) (head : Head) : Nat :=
  (shared.handler.bodyLimit head.method (head.path.of record.head)).getD shared.limits.maxBody

/-- Whether a `100 Continue` is owed: the content has not started arriving. -/
def owesContinue (conn : Conn) (head : Head) : Bool :=
  head.expect == .continue && head.version == .http11 && conn.input.isEmpty

/-- The record of a request whose head is complete. -/
def headRecord (conn : Conn) (record : Record) (head : Head) : Record :=
  let record :=
    { record with head := record.head ++ conn.input.take head.len, parsed := some head }
  { record with misdirected := !serves conn.shared.secure conn.authorities record head }

/-- The connection once a complete head is off the input. -/
def countRequest (conn : Conn) (head : Head) : Conn :=
  let requests := min (conn.requests + 1) (2 ^ 32 - 1)
  { conn with
    requests := requests
    input := conn.input.drop head.len
    close := conn.close || !head.keepAlive ||
      decide (conn.limits.maxRequestsPerConnection ≤ requests) }

/-- Take in a complete head: decide the framing and queue the request. -/
def accept (conn : Conn) (record : Record) (head : Head) (now : Nat) : Conn :=
  let record := conn.headRecord record head
  let conn := conn.countRequest head
  if head.expect = .other then conn.answerNow record .expectationFailed now
  else
    let maxBody := bodyLimit conn.shared record head
    match head.body with
    | .none => conn.queue (Entry.new record .waiting now)
    | .length 0 => conn.queue (Entry.new record .waiting now)
    | .length length =>
      if length > maxBody then conn.answerNow record .contentTooLarge now
      else
        conn.queue
          (Entry.new record (.body (.length length) (conn.owesContinue head) maxBody) now)
    | .chunked =>
      conn.queue (Entry.new record
        (.body (.chunked ChunkedDecoder.new) (conn.owesContinue head) maxBody) now)

/-- Parse one head from the input; the flag says whether the loop goes on. -/
def parseHead (conn : Conn) (now : Nat) : Conn × Bool :=
  let (record, shared) := conn.nextRecord
  let (status, fields) := parseRequest conn.input record.1.fields conn.limits
  let record := record.withFields fields
  let conn := { conn with shared := shared, parses := conn.parses + 1 }
  match status with
  | .complete head =>
    (accept { conn with next := none, headSince := none } record.1 head now, true)
  | .incomplete =>
    ({ conn with next := some record, headSince := conn.headSince.or (some now) }, false)
  | .reject reject =>
    (answerNow { conn with next := none, headSince := none } record.1 reject.status now, false)

/-- One turn of the input loop; the flag says whether it goes on. -/
def inputTurn (conn : Conn) (now : Nat) : Conn × Bool :=
  if conn.input.isEmpty then (conn, false)
  else if conn.ring.bodyPending then
    match conn.feedBody now with
    | (conn, .progress) => (conn, true)
    | (conn, .stalled) => (conn, false)
    | (conn, .reject status) => (conn.failAt (conn.ring.len - 1) status, false)
  else if conn.taking || conn.ring.upgradePending then (conn, false)
  else if conn.close then ({ conn with input := [] }, false)
  else if decide (conn.maxPipelined ≤ conn.ring.len) || conn.held then (conn, false)
  else conn.parseHead now

/-! ### The input loop -/

variable {conn : Conn} {entry : Entry} {now : Nat}

variable {next : Conn} {record : Record} {pending : Bool}

/-- What a body in this stage may still turn over without using input. -/
def bodyWeight : Stage → Nat
  | .body (.length _) .. => 1
  | .body (.chunked decoder) .. => 1 + decoder.weight
  | .waiting | .running | .done => 0

theorem bodyWeight_le (stage : Stage) : bodyWeight stage ≤ 2 := by
  rcases stage with ⟨_ | decoder, _, _⟩ | - | - | -
  · exact Nat.le_succ 1
  · cases decoder <;> simp [bodyWeight, ChunkedDecoder.weight]
  all_goals exact Nat.zero_le _

/-- What bounds the turns of the input loop. -/
def unread (conn : Conn) : Nat :=
  3 * conn.input.length + (conn.ring.last.map (bodyWeight ·.stage)).getD 0

theorem unread_lt_of_input (shorter : next.input.length < conn.input.length) :
    next.unread < conn.unread := by
  have small : (next.ring.last.map (bodyWeight ·.stage)).getD 0 ≤ 2 := by
    rcases next.ring.last with - | entry
    · exact Nat.zero_le _
    · exact bodyWeight_le entry.stage
  unfold unread
  omega

@[simp]
theorem input_queue (conn : Conn) (entry : Entry) : (conn.queue entry).input = conn.input := by
  unfold queue
  split <;> rfl

@[simp]
theorem input_markClose (conn : Conn) : conn.markClose.input = conn.input := by
  unfold markClose
  dsimp only
  split
  · rfl
  · split <;> rfl

@[simp]
theorem input_answerNow (conn : Conn) (record : Record) (status : StatusCode) (now : Nat) :
    (conn.answerNow record status now).input = [] := by
  unfold answerNow
  rw [input_markClose]

theorem input_accept_le (conn : Conn) (record : Record) (head : Head) (now : Nat) :
    (conn.accept record head now).input.length ≤ conn.input.length - head.len := by
  have counted : (conn.countRequest head).input.length = conn.input.length - head.len :=
    List.length_drop
  unfold accept
  dsimp only
  repeat' split
  all_goals simp [counted]

theorem unread_eq (tail : conn.ring.last = some entry) :
    conn.unread = 3 * conn.input.length + bodyWeight entry.stage := by
  unfold unread
  rw [tail]
  rfl

theorem feedLength_unread {remaining maxBody : Nat} (tail : conn.ring.last = some entry)
    (stage : entry.stage = .body (.length remaining) pending maxBody)
    (some_ : conn.input.isEmpty = false)
    (step : conn.feedLength entry record remaining maxBody now = (next, .progress)) :
    next.unread < conn.unread := by
  have nonempty : 0 < conn.input.length :=
    List.length_pos_of_ne_nil (by simpa using some_)
  unfold feedLength at step
  cases step
  rw [unread_eq tail, unread_eq (by rw [Ring.last_lastMut, tail]; rfl), stage]
  dsimp only
  rw [List.length_drop]
  split
  · change 3 * _ + 0 < 3 * _ + 1
    omega
  · change 3 * _ + 1 < 3 * _ + 1
    omega

theorem feedChunked_unread {decoder : ChunkedDecoder} {maxBody : Nat}
    (tail : conn.ring.last = some entry)
    (stage : entry.stage = .body (.chunked decoder) pending maxBody)
    (some_ : conn.input.isEmpty = false)
    (step : conn.feedChunked entry record decoder maxBody now = (next, .progress)) :
    next.unread < conn.unread := by
  have nonempty : 0 < conn.input.length :=
    List.length_pos_of_ne_nil (by simpa using some_)
  unfold feedChunked at step
  rcases decoded : decoder.decode conn.input conn.limits with
    ⟨after, reject | ⟨data, consumed⟩ | consumed | ⟨trailers, consumed⟩⟩
  · rw [decoded] at step
    cases step
  · rw [decoded] at step
    dsimp only at step
    split at step
    · cases step
    · cases step
      have used := ChunkedDecoder.decode_data_lt decoded
      rw [unread_eq tail, unread_eq (by rw [Ring.last_lastMut, tail]; rfl), stage]
      dsimp only [decodedEntry, bodyWeight]
      rw [List.length_drop]
      have small : after.weight ≤ 1 := by cases after <;> simp [ChunkedDecoder.weight]
      omega
  · rw [decoded] at step
    simp only [Prod.mk.injEq, ite_eq_right_iff, reduceCtorEq, imp_false] at step
    obtain ⟨rfl, used⟩ := step
    refine unread_lt_of_input ?_
    dsimp only
    rw [List.length_drop]
    omega
  · rw [decoded] at step
    dsimp only at step
    split at step
    · cases step
    · cases step
      rw [unread_eq tail, unread_eq (by rw [Ring.last_lastMut, tail]; rfl), stage]
      dsimp only [bodyWeight]
      rw [List.length_drop]
      omega

theorem feedBody_unread (step : conn.feedBody now = (next, .progress)) :
    next.unread < conn.unread := by
  unfold feedBody at step
  split at step
  · cases step
  rename_i entry tail
  split at step
  case h_2 => cases step
  case h_1 stage held =>
    rename_i framing pending maxBody record
    split at step
    · cases step
    · rename_i some_
      rcases framing with remaining | decoder
      · exact feedLength_unread tail stage (by simpa using some_) step
      · exact feedChunked_unread tail stage (by simpa using some_) step

/-- Every turn of the input loop that goes on uses input or moves the body on. -/
theorem inputTurn_unread (step : conn.inputTurn now = (next, true)) :
    next.unread < conn.unread := by
  unfold inputTurn at step
  split at step
  · cases step
  split at step
  · rcases fed : conn.feedBody now with ⟨after, - | - | status⟩
    · rw [fed] at step
      cases step
      exact feedBody_unread fed
    · rw [fed] at step
      cases step
    · rw [fed] at step
      cases step
  split at step
  · cases step
  split at step
  · cases step
  split at step
  · cases step
  unfold parseHead at step
  dsimp only at step
  rcases parsed : parseRequest conn.input conn.nextRecord.1.1.fields conn.limits with
    ⟨head | - | reject, fields⟩
  · rw [parsed] at step
    cases step
    have len := parseRequest_len parsed
    refine unread_lt_of_input (Nat.lt_of_le_of_lt (input_accept_le _ _ _ _) ?_)
    dsimp only
    omega
  · rw [parsed] at step
    cases step
  · rw [parsed] at step
    cases step

/-- Parse heads and read bodies from the input. -/
def processInput (conn : Conn) (now : Nat) : Conn :=
  match step : conn.inputTurn now with
  | (next, true) => processInput next now
  | (next, false) => next
termination_by conn.unread
decreasing_by exact inputTurn_unread step

end Conn

end ZeroServer.Http
