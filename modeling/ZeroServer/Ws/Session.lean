/-
This file models one WebSocket connection of a server after the handshake, without I/O: it is fed
the bytes read from the socket, reports what they complete and queues what it has to send.
-/

import ZeroServer.Simd.Utf8
import ZeroServer.Ws.Frame

namespace ZeroServer.Ws

open Http1 Lib
open Simd (Utf8Validator)

/-! ### The session -/

/-- The configured limits. -/
structure WebSocketLimits where
  maxMessage : Nat
  maxFragments : Nat
  maxControlFramesPerSecond : Nat
  deriving DecidableEq

/-- The window the control-frame budget counts over, in milliseconds. -/
def controlWindowMs : Nat := 1000

/-- Counters of 32 and of 64 bits stop at their largest value. -/
def saturating (bits value : Nat) : Nat := min value (2 ^ bits - 1)

/-- What fed bytes completed. -/
inductive Event where
  | text (text : List Char)
  | binary (data : Bytes)
  | ping (data : Bytes)
  | pong (data : Bytes)
  | close (close : Close)
  deriving DecidableEq

/-- The result of one feed: the bytes used and what they completed. -/
structure Step where
  consumed : Nat
  event : Option Event
  deriving DecidableEq

/-- Where the connection is. -/
inductive SessionState where
  | opened
  | closeSent
  | closed
  | failed
  deriving DecidableEq

/-- The type of the message in progress. -/
inductive Kind where
  | text
  | binary
  deriving DecidableEq

/-- A data frame whose payload is still arriving. -/
structure Partial where
  fin : Bool
  mask : Key
  remaining : Nat
  offset : Nat
  deriving DecidableEq

/-- One connection. -/
structure Session where
  limits : WebSocketLimits
  state : SessionState := .opened
  closeReceived : Option CloseCode := none
  message : Option Kind := none
  partialFrame : Option Partial := none
  buffer : Bytes := []
  delivered : Bool := false
  utf8 : Utf8Validator := .new
  fragments : Nat := 0
  windowStart : Nat := 0
  controlFrames : Nat := 0
  output : Bytes := []
  deriving DecidableEq

/-- The bytes of a range that is inside. -/
def getRange (bytes : Bytes) (start stop : Nat) : Option Bytes :=
  if start ≤ stop ∧ stop ≤ bytes.length then some ((bytes.drop start).take (stop - start))
  else none

theorem getRange_eq_some {bytes payload : Bytes} {start stop : Nat} :
    getRange bytes start stop = some payload ↔
      start ≤ stop ∧ stop ≤ bytes.length ∧ (bytes.drop start).take (stop - start) = payload := by
  unfold getRange
  split
  · rename_i inside
    exact ⟨fun same => ⟨inside.1, inside.2, Option.some.inj same⟩,
      fun same => congrArg some same.2.2⟩
  · rename_i outside
    exact ⟨nofun, fun same => absurd ⟨same.1, same.2.1⟩ outside⟩

theorem length_getRange {bytes payload : Bytes} {start stop : Nat}
    (found : getRange bytes start stop = some payload) : payload.length = stop - start := by
  obtain ⟨-, inside, rfl⟩ := getRange_eq_some.mp found
  rw [List.length_take, List.length_drop]
  omega

namespace Session

def new (limits : WebSocketLimits) : Session := { limits }

/-- Append one unmasked, final frame to the output. -/
def writeFrame (session : Session) (opcode : Opcode) (payload : Bytes) : Session :=
  { session with output := session.output ++ frame opcode payload }

/-- Fail the connection: queue a Close unless one was sent, and stop processing input. -/
def fail (session : Session) (code : CloseCode) : Session :=
  let session :=
    if session.state = .opened then
      session.writeFrame .close ((Close.body code []).toOption.getD [])
    else session
  { session with state := .failed }

/-- Forget a message that was delivered. -/
def settle (session : Session) : Session :=
  if session.delivered then { session with delivered := false, buffer := [] } else session

/-- Validate a chunk of a text message. -/
def validated (session : Session) (chunk : Bytes) : Utf8Validator × Bool :=
  if session.message = some .text then
    ((session.utf8.feed chunk).1, (session.utf8.feed chunk).2.isOk)
  else (session.utf8, true)

/-- Take what the input holds of the frame in progress into the message buffer: the bytes used, and
whether they completed the message. -/
def absorb (session : Session) (input : Bytes) : Session × Except CloseCode (Nat × Bool) :=
  match session.partialFrame with
  | none => (session, .ok (0, false))
  | some part =>
    let take := min part.remaining input.length
    let chunk := unmask (input.take take) (rotateKey part.mask part.offset)
    let (utf8, valid) := session.validated chunk
    let session := { session with utf8 }
    if !valid then (session.fail .invalidPayload, .error .invalidPayload)
    else
      let session := { session with buffer := session.buffer ++ chunk }
      let part :=
        { part with remaining := part.remaining - take, offset := (part.offset + take) % 2 ^ 64 }
      if 0 < part.remaining then ({ session with partialFrame := some part }, .ok (take, false))
      else ({ session with partialFrame := none }, .ok (take, part.fin))

/-- The message the buffer holds, once its final fragment is in. -/
def finishMessage (session : Session) : Session × Except CloseCode (Option Event) :=
  let kind := session.message
  let session := { session with message := none, fragments := 0, delivered := true }
  match kind with
  | some .text =>
    let complete := session.utf8.isComplete
    let session := { session with utf8 := .new }
    if !complete then (session.fail .invalidPayload, .error .invalidPayload)
    else (session, .ok ((Utf8.decode session.buffer).map .text))
  | some .binary => (session, .ok (some (.binary session.buffer)))
  | none => (session, .ok none)

/-- Absorb what there is behind a frame's header, and finish the message it completes. -/
def gather (session : Session) (headerLen : Nat) (input : Bytes) :
    Session × Except CloseCode Step :=
  match session.absorb input with
  | (session, .error code) => (session, .error code)
  | (session, .ok (used, done)) =>
    if done then
      match session.finishMessage with
      | (session, .error code) => (session, .error code)
      | (session, .ok event) => (session, .ok ⟨headerLen + used, event⟩)
    else (session, .ok ⟨headerLen + used, none⟩)

/-- Count one more control frame of the window. -/
def counted (session : Session) (nowMs : Nat) : Session :=
  let session :=
    if saturating 64 (session.windowStart + controlWindowMs) ≤ nowMs then
      { session with windowStart := nowMs, controlFrames := 0 }
    else session
  { session with controlFrames := saturating 32 (session.controlFrames + 1) }

/-- What a control frame is answered with and reported as. -/
def answer (session : Session) (opcode : Opcode) (payload : Bytes) :
    Session × Except CloseCode Event :=
  match opcode with
  | .ping =>
    (if session.closeReceived.isNone then session.writeFrame .pong payload else session,
      .ok (.ping payload))
  | .pong => (session, .ok (.pong payload))
  | _ =>
    match Close.parse payload with
    | .error code => (session.fail code, .error code)
    | .ok close =>
      let session := { session with closeReceived := some close.code }
      let session :=
        if session.state = .opened then
          session.writeFrame .close ((Close.body close.code []).toOption.getD [])
        else session
      ({ session with state := .closed }, .ok (.close close))

/-- A control frame: answered and reported only once it is wholly in the input. -/
def control (session : Session) (header : Header) (input : Bytes) (nowMs : Nat) :
    Session × Except CloseCode Step :=
  let stop := header.headerLen + header.len
  match getRange input header.headerLen stop with
  | none => (session, .ok ⟨0, none⟩)
  | some payload =>
    let session := session.counted nowMs
    if session.limits.maxControlFramesPerSecond < session.controlFrames then
      (session.fail .policyViolation, .error .policyViolation)
    else
      match session.answer header.opcode (unmask payload header.mask) with
      | (session, .error code) => (session, .error code)
      | (session, .ok event) => (session, .ok ⟨stop, some event⟩)

/-- The type of the message a data frame belongs to. -/
def kindOf (session : Session) (opcode : Opcode) : Option Kind :=
  match opcode, session.message with
  | .continuation, some kind => some kind
  | .text, none => some .text
  | .binary, none => some .binary
  | _, _ => none

/-- Report a message that is wholly in the input. -/
def deliver (session : Session) (kind : Kind) (payload : Bytes) :
    Session × Except CloseCode Event :=
  match kind with
  | .binary => (session, .ok (.binary payload))
  | .text =>
    match Utf8.decode payload with
    | some text => (session, .ok (.text text))
    | none => (session.fail .invalidPayload, .error .invalidPayload)

/-- A data frame: delivered from the input when it is a whole message that fits, else gathered in
the message buffer. -/
def data (session : Session) (header : Header) (input : Bytes) :
    Session × Except CloseCode Step :=
  match session.kindOf header.opcode with
  | none => (session.fail .protocolError, .error .protocolError)
  | some kind =>
    let session := { session with fragments := saturating 32 (session.fragments + 1) }
    if session.limits.maxMessage < session.buffer.length + header.len ∨
        session.limits.maxFragments < session.fragments then
      (session.fail .messageTooBig, .error .messageTooBig)
    else
      let stop := header.headerLen + header.len
      if header.fin && session.message.isNone && stop ≤ input.length then
        let session := { session with fragments := 0 }
        match getRange input header.headerLen stop with
        | none => (session.fail .internalError, .error .internalError)
        | some payload =>
          match session.deliver kind (unmask payload header.mask) with
          | (session, .error code) => (session, .error code)
          | (session, .ok event) => (session, .ok ⟨stop, some event⟩)
      else
        let session :=
          { session with
            message := some kind
            partialFrame := some ⟨header.fin, header.mask, header.len, 0⟩ }
        session.gather header.headerLen (input.drop header.headerLen)

/-- Process received bytes: the bytes used and the event they completed, or the code the connection
failed with. -/
def feed (session : Session) (input : Bytes) (nowMs : Nat) : Session × Except CloseCode Step :=
  let session := session.settle
  if session.state = .closed ∨ session.state = .failed then (session, .ok ⟨input.length, none⟩)
  else if session.partialFrame.isSome then session.gather 0 input
  else
    match decode input 0 with
    | .ok none => (session, .ok ⟨0, none⟩)
    | .error code => (session.fail code, .error code)
    | .ok (some header) =>
      if header.opcode.isControl then session.control header input nowMs
      else session.data header input

/-! ### What the application sends -/

/-- Refuse a send once a Close was sent or the connection is done. -/
def ensureOpen (session : Session) : Except Error Unit :=
  if session.state = .opened then .ok () else .error .closed

/-- Queue a frame when the session is open. -/
def queue (session : Session) (bytes : Bytes) : Session × Except Error Unit :=
  match session.ensureOpen with
  | .error error => (session, .error error)
  | .ok () => ({ session with output := session.output ++ bytes }, .ok ())

def sendText (session : Session) (text : List Char) : Session × Except Error Unit :=
  session.queue (frame .text (Utf8.encode text))

def sendBinary (session : Session) (data : Bytes) : Session × Except Error Unit :=
  session.queue (frame .binary data)

/-- Queue a frame already encoded. -/
def sendEncoded (session : Session) (frame : Bytes) : Session × Except Error Unit :=
  session.queue frame

def ping (session : Session) (data : Bytes) : Session × Except Error Unit :=
  match session.ensureOpen with
  | .error error => (session, .error error)
  | .ok () =>
    if maxControlPayload < data.length then (session, .error .limit)
    else (session.writeFrame .ping data, .ok ())

/-- Start the closing handshake. -/
def close (session : Session) (code : CloseCode) (reason : List Char) :
    Session × Except Error Unit :=
  match session.ensureOpen with
  | .error error => (session, .error error)
  | .ok () =>
    match Close.startBody code reason with
    | .error error => (session, .error error)
    | .ok body => ({ session.writeFrame .close body with state := .closeSent }, .ok ())

def goingAway (session : Session) : Session × Except Error Unit := session.close .goingAway []

/-- Drop the first bytes of the output once the socket took them. -/
def consumeOutput (session : Session) (written : Nat) : Session :=
  { session with output := session.output.drop (min written session.output.length) }

/-! ### Settling -/

theorem settle_state (session : Session) : session.settle.state = session.state := by
  unfold settle
  split <;> rfl

theorem settle_output (session : Session) : session.settle.output = session.output := by
  unfold settle
  split <;> rfl

theorem settle_partialFrame (session : Session) :
    session.settle.partialFrame = session.partialFrame := by
  unfold settle
  split <;> rfl

/-! ### What a frame in progress takes -/

variable {session : Session}

variable {part : Partial}

/-- A frame behind some octets that were taken of it. -/
def behind (part : Partial) (taken : Nat) : Partial :=
  { part with remaining := part.remaining - taken, offset := (part.offset + taken) % 2 ^ 64 }

@[simp] theorem behind_remaining (part : Partial) (taken : Nat) :
    (behind part taken).remaining = part.remaining - taken := rfl

/-- The session behind the octets it took of the frame in progress. -/
def absorbed (session : Session) (part : Partial) (chunk : Bytes) (utf8 : Utf8Validator) :
    Session :=
  { session with
    utf8
    buffer := session.buffer ++ chunk
    partialFrame :=
      if 0 < part.remaining - chunk.length then some (behind part chunk.length) else none }

/-- The unmasked octets of the frame in progress an input holds. -/
def chunkOf (part : Partial) (input : Bytes) : Bytes :=
  unmask (input.take part.remaining) (rotateKey part.mask part.offset)

theorem length_unmask (payload : Bytes) (key : Key) :
    (unmask payload key).length = payload.length := List.length_mapIdx

theorem length_chunkOf (part : Partial) (input : Bytes) :
    (chunkOf part input).length = min part.remaining input.length := by
  rw [chunkOf, length_unmask, List.length_take]

theorem validated_text (isText : session.message = some .text) (chunk : Bytes) :
    session.validated chunk =
      ((session.utf8.feed chunk).1, (session.utf8.feed chunk).2.isOk) := if_pos isText

theorem validated_binary (binary : session.message ≠ some .text) (chunk : Bytes) :
    session.validated chunk = (session.utf8, true) := if_neg binary

/-- What is absorbed depends on the chunk of the frame in progress. -/
theorem absorb_eq (arriving : session.partialFrame = some part) (input : Bytes) :
    session.absorb input =
      if (session.validated (chunkOf part input)).2 then
        (session.absorbed part (chunkOf part input) (session.validated (chunkOf part input)).1,
          .ok ((chunkOf part input).length,
            decide (part.remaining ≤ (chunkOf part input).length) && part.fin))
      else
        ({ session with utf8 := (session.validated (chunkOf part input)).1 }.fail .invalidPayload,
          .error .invalidPayload) := by
  have whole : input.take (min part.remaining input.length) = input.take part.remaining :=
    List.take_eq_take_min.symm
  have length := length_chunkOf part input
  unfold absorb absorbed
  rw [arriving]
  dsimp only
  rw [whole, ← length]
  rw [← chunkOf]
  generalize chunkOf part input = chunk
  rcases session.validated chunk with ⟨utf8, - | -⟩
  · rfl
  · dsimp only
    rw [if_neg (show ¬ (!true) = true by decide), if_pos (rfl : true = true)]
    by_cases more : 0 < part.remaining - chunk.length
    · rw [if_pos more, if_pos more, decide_eq_false (by omega), Bool.false_and]
      rfl
    · rw [if_neg more, if_neg more, decide_eq_true (by omega), Bool.true_and]

/-- Text that is not UTF-8 fails the session; whatever else there is of the frame is taken. -/
theorem absorb_cases (arriving : session.partialFrame = some part) (input : Bytes) :
    (session.message = some .text ∧ (session.utf8.feed (chunkOf part input)).2.isOk = false ∧
      ∃ utf8, session.absorb input =
        ({ session with utf8 }.fail .invalidPayload, .error .invalidPayload)) ∨
    ∃ utf8,
      (session.message = some .text → session.utf8.feed (chunkOf part input) = (utf8, .ok ())) ∧
      (session.message ≠ some .text → utf8 = session.utf8) ∧
      session.absorb input = (session.absorbed part (chunkOf part input) utf8,
        .ok ((chunkOf part input).length,
          decide (part.remaining ≤ (chunkOf part input).length) && part.fin)) := by
  rw [absorb_eq arriving]
  by_cases isText : session.message = some .text
  · rw [validated_text isText]
    rcases fed : session.utf8.feed (chunkOf part input) with ⟨utf8, error | valid⟩
    · exact .inl ⟨isText, rfl, utf8, rfl⟩
    · exact .inr ⟨utf8, fun _ => rfl, fun binary => absurd isText binary, rfl⟩
  · rw [validated_binary isText]
    exact .inr ⟨session.utf8, fun text => absurd text isText, fun _ => rfl, rfl⟩

/-- A frame that is all there is in progress no longer. -/
theorem absorbed_whole {session : Session} {part : Partial} {chunk : Bytes} {utf8 : Utf8Validator}
    (whole : part.remaining ≤ chunk.length) :
    session.absorbed part chunk utf8 =
      { session with utf8, buffer := session.buffer ++ chunk, partialFrame := none } := by
  unfold absorbed
  rw [if_neg (by omega)]

end Session

end ZeroServer.Ws
