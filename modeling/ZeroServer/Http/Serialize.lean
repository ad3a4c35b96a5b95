/-
This file models what the connections of a core share and the serialization of a response
head: the parts of a head, the order they are written in, the buffer that grows until they
fit, and the bare answer of a head that fits nowhere.
-/

import ZeroServer.Http.Record

namespace ZeroServer.Http

open Http1

/-- The interim response owed to a `100-continue` expectation. -/
def continueBlock : Bytes := ascii "HTTP/1.1 100 Continue\r\n\r\n"

/-- The response head capacity a record starts with. -/
def responseHeadCapacity : Nat := 4096

/-- A response head is never grown past this. -/
def maxResponseHead : Nat := 16 * 1024 * 1024

/-- The most records a core keeps for reuse. -/
def recordsKept : Nat := 4096

/-! ### The core's shared state -/

/-- What the driver asks of the handler before and beside running it. -/
structure Handler where
  errorShape : ErrorShape
  bodyLimit : Option Method → Bytes → Option Nat

/-- What every connection on a core shares. The date is the core's cached one. `dropped` lists
the tokens of the claims the handler was told are gone. `clipped` is a ghost: it remembers that
a saturating operation of the accounting met a bound. -/
structure Shared where
  handler : Handler
  limits : Http1Limits
  server : Option FieldValue
  date : FieldValue
  secure : Bool
  records : List FreshRecord := []
  bodies : Nat := 0
  canceled : Option Head := none
  dropped : List Nat := []
  clipped : Bool := false

/-- The counters of the accounting hold 64 bits. -/
def saturatingAdd (left right : Nat) : Nat := min (left + right) (u64Size - 1)

namespace Shared

/-- The `Server` field line, or nothing. -/
def serverLine (shared : Shared) : Bytes :=
  shared.server.elim [] fun value => fieldText (ascii "Server") value.1

def dateLine (shared : Shared) : Bytes := fieldText (ascii "Date") shared.date.1

/-- Remember whether a saturating addition meets its bound. -/
def noteAdd (shared : Shared) (left right : Nat) : Shared :=
  { shared with clipped := shared.clipped || decide (u64Size ≤ left + right) }

def countBody (shared : Shared) (bytes : Nat) : Shared :=
  { shared.noteAdd shared.bodies bytes with bodies := saturatingAdd shared.bodies bytes }

def uncountBody (shared : Shared) (bytes : Nat) : Shared :=
  { shared with
    clipped := shared.clipped || decide (shared.bodies < bytes)
    bodies := shared.bodies - bytes }

/-- A reset record: one the core kept, else a new one. -/
def takeRecord (shared : Shared) : FreshRecord × Shared :=
  match shared.records with
  | [] => (FreshRecord.new shared.limits.headerTableEntries, shared)
  | record :: rest => (record, { shared with records := rest })

/-- Keep a record for reuse; the charge it still holds is returned, and a claim it still
carries is reported dropped to the handler. -/
def giveRecord (shared : Shared) (record : Record) : Shared :=
  let shared := record.claim.elim shared fun claim =>
    { shared with dropped := shared.dropped ++ [claim.token] }
  let shared := shared.uncountBody record.charge
  if shared.records.length < recordsKept then
    { shared with records := FreshRecord.ofReset record :: shared.records }
  else shared

end Shared

/-! ### Response heads -/

/-- What a response head is made of besides the handler's fields. -/
structure HeadParts where
  status : StatusCode
  date : Bytes
  server : Bytes
  bodyLen : Nat
  close : Bool
  keepAlive10 : Bool
  upgrade : Bool
  advertiseUpgrade : Bool
  stream : Bool

def writeHead (writer : ResponseWriter) (parts : HeadParts) (fields : Bytes) :
    Except WriteError ResponseWriter := do
  let writer ← writer.statusLine parts.status
  let writer ← writer.raw parts.date
  let writer ← (if parts.server.isEmpty then pure writer else writer.raw parts.server)
  let writer ←
    (if contentLengthAllowed parts.status && !parts.stream then
      writer.contentLength parts.bodyLen
    else pure writer)
  let writer ← writer.raw fields
  let writer ←
    (if parts.upgrade || parts.advertiseUpgrade then
      writer.fieldId .connection (ascii "Upgrade")
    else pure writer)
  let writer ←
    (if parts.close then writer.connectionClose
    else if parts.keepAlive10 then writer.fieldId .connection (ascii "keep-alive")
    else pure writer)
  writer.endHead

/-- The text of a head, from the status line through the empty line. -/
def HeadParts.text (parts : HeadParts) (fields : Bytes) : Bytes :=
  parts.status.lineText ++ (parts.date ++ (parts.server ++
    ((if contentLengthAllowed parts.status && !parts.stream then
        fieldText (ascii "Content-Length") (decimal parts.bodyLen) else []) ++
    (fields ++
    ((if parts.upgrade || parts.advertiseUpgrade then
        fieldText (ascii "Connection") (ascii "Upgrade") else []) ++
    ((if parts.close then fieldText (ascii "Connection") (ascii "close")
      else if parts.keepAlive10 then fieldText (ascii "Connection") (ascii "keep-alive")
      else []) ++ crlf))))))

/-- How far a vector grows when it needs room: at least twofold. -/
def grown (capacity needed : Nat) : Nat :=
  if needed ≤ capacity then capacity else max (2 * capacity) needed

/-- Write a head into ever larger buffers: its text, or nothing when the largest buffer is too
small, and the capacity the vector grew to. From `responseHeadCapacity` on, `attempts`
doublings pass `maxResponseHead`. -/
def growHead (parts : HeadParts) (fields : Bytes) : Nat → Nat → Nat → Option Bytes × Nat
  | 0, held, _ => (none, held)
  | attempts + 1, held, capacity =>
    match writeHead (ResponseWriter.new capacity) parts fields with
    | .ok writer => (some writer.written, grown held capacity)
    | .error _ =>
      if capacity < maxResponseHead then
        growHead parts fields attempts (grown held capacity) (capacity * 2)
      else (none, grown held capacity)

/-- The claim a serialized response honors: an upgrade only with its 101, a stream only
where a body may follow. -/
def Record.honored (record : Record) : Option TakeOver :=
  match record.claim.map Claim.kind with
  | some .upgrade =>
    if record.status.getD .ok = .switchingProtocols then some .upgrade else none
  | some .stream =>
    if bodyAllowed record.headRequest (record.status.getD .ok) then some .stream else none
  | none => none

def Record.closing (record : Record) (close : Bool) : Bool :=
  match record.honored with
  | some .upgrade => false
  | some .stream => true
  | none => close

def Record.headParts (record : Record) (shared : Shared) (close : Bool) : HeadParts where
  status := record.status.getD .ok
  date := shared.dateLine
  server := shared.serverLine
  bodyLen := record.responseBody.length
  close := record.closing close
  keepAlive10 := !record.closing close && record.version == .http10 && record.keepAlive
  upgrade := record.honored == some .upgrade
  advertiseUpgrade := record.advertiseUpgrade
  stream := record.honored == some .stream

/-- A head that cannot be written at all answers 500 with no fields. -/
def HeadParts.bare (parts : HeadParts) : HeadParts :=
  { parts with
    status := .internalServerError
    bodyLen := 0
    upgrade := false
    advertiseUpgrade := false
    stream := false }

/-- Whether the 100 goes out in front of a 101. -/
def Record.owedContinue (record : Record) : Bool :=
  record.honored == some .upgrade && !record.continued &&
    record.parsed.any fun head => head.expect == .continue

/-- The head text of a record's response and the capacity its buffer grew to. -/
def Record.grownHead (record : Record) (shared : Shared) (close : Bool) : Option Bytes × Nat :=
  growHead (record.headParts shared close) (record.responseFields.flatMap ResponseField.text) 13
    record.responseCapacity (max record.responseCapacity responseHeadCapacity)

/-- Serialize the response head of a record. -/
def serialize (shared : Shared) (record : Record) (close : Bool) : Record :=
  match record.grownHead shared close with
  | (some text, capacity) =>
    { record with
      claim := if record.honored.isNone then none else record.claim
      responseHead := if record.owedContinue then continueBlock ++ text else text
      responseCapacity :=
        if record.owedContinue then grown capacity (continueBlock.length + text.length)
        else capacity }
  | (none, capacity) =>
    { record.clearResponse with
      status := some .internalServerError
      responseHead :=
        match writeHead (ResponseWriter.new responseHeadCapacity)
            (record.headParts shared close).bare [] with
        | .ok writer => writer.written
        | .error _ => []
      responseCapacity := capacity }

/-- The bytes a done response puts on the wire, in order. -/
def Record.responseBytes (record : Record) : Bytes :=
  record.responseHead ++
    if bodyAllowed record.headRequest (record.status.getD .ok) then record.responseBody else []

/-- The bytes a done response puts on the wire. -/
def responseLen (record : Record) : Nat :=
  record.responseHead.length +
    if bodyAllowed record.headRequest (record.status.getD .ok) then record.responseBody.length
    else 0

/-! ### What a head says -/

section Started

variable {writer : ResponseWriter} {status : StatusCode} (started : writer.status = some status)
include started

open ResponseWriter

theorem raw_unless_empty (block : Bytes) :
    (if block.isEmpty then pure writer else writer.raw block) = writer.copy block := by
  rcases block with - | ⟨first, rest⟩
  · exact (copy_nil writer).symm
  · exact raw_started started _

theorem contentLength_if_allowed {stream : Bool} (len : Nat) :
    (if contentLengthAllowed status && !stream then writer.contentLength len else pure writer) =
      writer.copy (if contentLengthAllowed status && !stream then
        fieldText (ascii "Content-Length") (decimal len) else []) := by
  by_cases allowed : (contentLengthAllowed status && !stream) = true
  · rw [if_pos allowed, if_pos allowed]
    exact contentLength_started started (Bool.and_eq_true_iff.mp allowed).1 len
  · rw [if_neg allowed, if_neg allowed, copy_nil]
    rfl

theorem connection_if_upgrade (wanted : Bool) :
    (if wanted then writer.fieldId .connection (ascii "Upgrade") else pure writer) =
      writer.copy (if wanted then fieldText (ascii "Connection") (ascii "Upgrade") else []) := by
  cases wanted
  · exact (copy_nil writer).symm
  · have valid : validateFieldValue (ascii "Upgrade") = true := by decide
    exact fieldId_started started .connection valid

theorem connection_by_persistence (close keepAlive10 : Bool) :
    (if close then writer.connectionClose
      else if keepAlive10 then writer.fieldId .connection (ascii "keep-alive")
      else pure writer) =
      writer.copy (if close then fieldText (ascii "Connection") (ascii "close")
        else if keepAlive10 then fieldText (ascii "Connection") (ascii "keep-alive")
        else []) := by
  cases close
  · cases keepAlive10
    · exact (copy_nil writer).symm
    · have valid : validateFieldValue (ascii "keep-alive") = true := by decide
      exact fieldId_started started .connection valid
  · exact fieldLine_started started _ _

end Started

open ResponseWriter in
/-- A head is written whole where its text fits and not at all where it does not. -/
theorem writeHead_new (capacity : Nat) (parts : HeadParts) (fields : Bytes) :
    (writeHead (ResponseWriter.new capacity) parts fields).map ResponseWriter.written =
      if (parts.text fields).length ≤ capacity then .ok (parts.text fields)
      else .error .full := by
  have line : (ResponseWriter.new capacity).statusLine parts.status =
      ({ ResponseWriter.new capacity with status := some parts.status }).copy
        parts.status.lineText := by
    unfold statusLine copy
    split <;> rfl
  have whole : writeHead (ResponseWriter.new capacity) parts fields =
      ({ ResponseWriter.new capacity with status := some parts.status }).copy
        (parts.text fields) := by
    unfold writeHead HeadParts.text
    rw [line]
    refine copy_bind_of_status rfl (fun writer started => ?_) _
    rw [raw_started started]
    refine copy_bind_of_status started (fun writer started => ?_) _
    rw [raw_unless_empty started]
    refine copy_bind_of_status started (fun writer started => ?_) _
    rw [contentLength_if_allowed started]
    refine copy_bind_of_status started (fun writer started => ?_) _
    rw [raw_started started]
    refine copy_bind_of_status started (fun writer started => ?_) _
    rw [connection_if_upgrade started]
    refine copy_bind_of_status started (fun writer started => ?_) _
    rw [connection_by_persistence started]
    exact copy_bind_of_status started (fun writer started => endHead_started started) _
  rw [whole]
  unfold copy
  by_cases room : (parts.text fields).length ≤ capacity
  · rw [dif_pos (by exact room), if_pos room]
    rfl
  · rw [dif_neg (by exact room), if_neg room]
    rfl

/-! ### What serializing leaves alone -/

section Serialize

variable (shared : Shared) (record : Record) (close : Bool)

@[simp]
theorem charge_serialize : (serialize shared record close).charge = record.charge := by
  unfold serialize
  split <;> rfl

@[simp]
theorem body_serialize : (serialize shared record close).body = record.body := by
  unfold serialize
  split <;> rfl

@[simp]
theorem head_serialize : (serialize shared record close).head = record.head := by
  unfold serialize
  split <;> rfl

@[simp]
theorem parsed_serialize : (serialize shared record close).parsed = record.parsed := by
  unfold serialize
  split <;> rfl

@[simp]
theorem close_serialize : (serialize shared record close).close = record.close := by
  unfold serialize
  split <;> rfl

end Serialize

theorem length_responseBytes (record : Record) :
    record.responseBytes.length = responseLen record := by
  unfold Record.responseBytes responseLen
  rw [List.length_append]
  split <;> rfl

end ZeroServer.Http
