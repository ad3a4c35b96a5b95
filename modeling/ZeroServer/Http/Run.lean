/-
This file models the runs of a connection: the driver takes its turns, waits while the handlers
work, and wakes up for an event with the futures that completed. Beside the connection the state
keeps what went over the wire and the responses it was made of; the rest of the core may change
what the connections share at any time.
-/

import ZeroServer.Http.Turn

namespace ZeroServer.Http

open Http1

/-! ### What goes over the wire -/

/-- A part of the byte stream: the `100 Continue` of a request, or its response. -/
inductive Block where
  | interim (serial : Nat)
  | response (serial : Nat) (record : Record)

namespace Block

def bytes : Block → Bytes
  | interim _ => continueBlock
  | response _ record => record.responseBytes

/-- The place of a block in request order, the interim response right before the final one. -/
def key : Block → Nat
  | interim serial => 2 * serial
  | response serial _ => 2 * serial + 1

end Block

/-- The response of an entry that has one. -/
def Entry.block (entry : Entry) : Option Block :=
  entry.record.map (Block.response entry.serial)

/-- The responses a write of `count` entries is made of. -/
def responseBlocks (entries : List Entry) (count : Nat) : List Block :=
  (entries.take count).filterMap Entry.block

/-- What a write that was just planned is made of. -/
def Conn.planned (conn : Conn) : List Block :=
  match conn.writing with
  | none => []
  | some writing =>
    if writing.continues then conn.ring.first.toList.map fun entry => .interim entry.serial
    else responseBlocks conn.ring.contents writing.count

/-! ### The driver -/

/-- Where the driver's loop is: about to take a turn, waiting, or done with the connection. -/
inductive Phase where
  | turning
  | waiting
  | ended
  deriving DecidableEq

/-- A connection with what it wrote: the bytes the writes took, the blocks that are out, and
the blocks of the write in progress. -/
structure Driver where
  conn : Conn
  phase : Phase := .turning
  wire : Bytes := []
  sent : List Block := []
  batch : List Block := []

namespace Driver

/-- The driver of an accepted connection. -/
def new (shared : Shared) (authorities : Option (List Bytes)) (now : Nat) : Driver :=
  { conn := { shared := shared, authorities := authorities, idleSince := now, sentAt := now } }

/-- One turn of the loop, which ends the connection or goes on to wait. -/
def turn (driver : Driver) (now later : Nat) : Driver :=
  let conn := driver.conn.tick now later
  let driver :=
    { driver with batch := if driver.conn.writing.isSome then driver.batch else conn.planned }
  if conn.finished then { driver with conn := conn.finish, phase := .ended }
  else { driver with conn := conn, phase := .waiting }

/-- Whether the wait can produce an event once the running futures were polled. -/
def admits (conn polled : Conn) : Event → Prop
  | .read _ => conn.wantRead = true ∧ polled.held = false
  | .eof => conn.wantRead = true ∧ polled.held = false
  | .noBudget => conn.wantRead = true ∧ polled.held = false
  | .readFailed => conn.wantRead = true ∧ polled.held = false
  | .wrote count => conn.toWrite ≠ [] ∧ count ≤ conn.toWrite.length
  | .writeFailed => conn.toWrite ≠ []
  | .progress => True
  | .timer => ∃ now, (conn.nextDeadline now).isSome = true
  | .shutdown => conn.draining = false

/-- The bytes an event reports as written. -/
def taken (conn : Conn) : Event → Bytes
  | .wrote count => conn.toWrite.take count
  | _ => []

/-- The wait ends with the futures that completed and an event, which the driver applies. -/
def wake (driver : Driver) (outcome : Nat → Option Record.Answer) (event : Event) (now : Nat) :
    Driver :=
  let conn := (driver.conn.pollRunning outcome).apply event now
  let whole := driver.conn.writing.isSome && conn.writing.isNone
  { driver with
    conn := conn
    phase := .turning
    wire := driver.wire ++ taken driver.conn event
    sent := if whole then driver.sent ++ driver.batch else driver.sent
    batch := if whole then [] else driver.batch }

end Driver

/-! ### Handlers at work -/

namespace Conn

/-- What a running handler holds is replaced. -/
def setFuture (conn : Conn) (slot : Nat) (charged : Charged) : Conn :=
  { conn with ring := { conn.ring with futures := conn.ring.futures.set slot (some charged) } }

/-- What an export leaves of the request side of a record. -/
def exportedRecord (record : Record) : Record :=
  { record with head := [], body := [], trailers := [], charge := 0 }

/-- A running handler moves its request into an exchange: the charge of the body leaves the
core's count with it. -/
def exportRequest (conn : Conn) (slot : Nat) (charged : Charged) : Conn :=
  setFuture { conn with shared := conn.shared.uncountBody charged.record.charge } slot
    { charged with record := exportedRecord charged.record }

end Conn

/-- What running handlers do to their connection between two polls: they take, drop and pass on
read holds, and a hold that was passed on drops. -/
inductive Conn.Works : Conn → Conn → Prop
  | hold {conn : Conn} {slot : Nat} {charged : Charged}
      (runs : conn.ring.futures[slot]? = some (some charged)) :
      Works conn (setFuture { conn with holds := conn.holds + 1 } slot
        { charged with holds := charged.holds + 1 })
  | unhold {conn : Conn} {slot : Nat} {charged : Charged}
      (runs : conn.ring.futures[slot]? = some (some charged)) (holds : 0 < charged.holds) :
      Works conn (setFuture { conn with holds := conn.holds - 1 } slot
        { charged with holds := charged.holds - 1 })
  | passOn {conn : Conn} {slot : Nat} {charged : Charged}
      (runs : conn.ring.futures[slot]? = some (some charged)) (holds : 0 < charged.holds) :
      Works conn (setFuture conn slot { charged with holds := charged.holds - 1 })
  | release {conn : Conn} : Works conn { conn with holds := conn.holds - 1 }

/-! ### Runs -/

/-- Two states of what a core shares: its configuration is the same. -/
structure Shared.Kin (shared other : Shared) : Prop where
  handler : other.handler = shared.handler
  limits : other.limits = shared.limits
  server : other.server = shared.server
  secure : other.secure = shared.secure

namespace Driver

/-- A step of a run: a turn of the driver, a wake-up, a running handler at work, or a change of
what the connections share by the rest of the core. -/
inductive Step : Driver → Driver → Prop
  | turn {driver : Driver} (phase : driver.phase = .turning) (now later : Nat) :
      Step driver (driver.turn now later)
  | wake {driver : Driver} (phase : driver.phase = .waiting)
      (outcome : Nat → Option Record.Answer) (event : Event) (now : Nat)
      (admitted : admits driver.conn (driver.conn.pollRunning outcome) event) :
      Step driver (driver.wake outcome event now)
  | work {driver : Driver} {conn : Conn} (phase : driver.phase = .waiting)
      (works : driver.conn.Works conn) : Step driver { driver with conn := conn }
  | exports {driver : Driver} {slot : Nat} {charged : Charged} (phase : driver.phase = .waiting)
      (runs : driver.conn.ring.futures[slot]? = some (some charged)) :
      Step driver { driver with conn := driver.conn.exportRequest slot charged }
  | core {driver : Driver} {shared : Shared} (kin : Shared.Kin driver.conn.shared shared) :
      Step driver { driver with conn := { driver.conn with shared := shared } }

/-- The runs of a connection. -/
def Run : Driver → Driver → Prop := Relation.ReflTransGen Step

/-- The states a connection can reach. -/
def Reachable (driver : Driver) : Prop :=
  ∃ shared authorities now, Run (new shared authorities now) driver

theorem Reachable.step {driver next : Driver} (reachable : Reachable driver)
    (step : Step driver next) : Reachable next := by
  obtain ⟨shared, authorities, now, run⟩ := reachable
  exact ⟨shared, authorities, now, run.tail step⟩

end Driver

/-! ### A small core -/

/-- A core with the default limits whose handler sets no limit of its own. -/
def Shared.plain : Shared where
  handler := ⟨.problem, fun _ _ => none⟩
  limits := .default
  server := none
  date := ⟨ascii "Thu, 01 Jan 1970 00:00:00 GMT", by decide⟩
  secure := false

namespace Driver

/-- A connection of the small core that waits for its first read. -/
def waitingPlain : Driver := (new .plain none 0).turn 0 0

theorem waitingPlain_reachable : Reachable waitingPlain :=
  ⟨.plain, none, 0, .single (.turn rfl 0 0)⟩

/-- The same connection after one read and the turn behind it. -/
def readPlain (bytes : Bytes) : Driver :=
  (waitingPlain.wake (fun _ => none) (.read bytes) 0).turn 0 0

theorem readPlain_reachable (bytes : Bytes) : Reachable (readPlain bytes) := by
  refine (waitingPlain_reachable.step (.wake (by decide +kernel) _ (.read bytes) 0 ?_)).step
    (.turn rfl 0 0)
  exact ⟨by decide +kernel, by decide +kernel⟩

end Driver

end ZeroServer.Http
