/-
This file models the streaming decoder of the frames on one HTTP/3 stream and a reader that drives
it: it drops what a step consumed, calls the decoder until it needs more, and tells it of an
established tunnel or a final response when its caller does.
-/

import ZeroServer.Lib.Segments
import ZeroServer.H3.Frame

namespace ZeroServer.H3

open Http1 Lib

/-! ### The decoder -/

/-- The payload limits of the frames held whole. -/
structure FrameLimits where
  fieldSection : Nat
  settings : Nat
  deriving DecidableEq

/-- The longest push ID of a PUSH_PROMISE. -/
def pushIdBound : Nat := 8

/-- One step of decoding. -/
inductive Step where
  | needMore (consumed : Nat)
  | frame (frame : Frame) (consumed : Nat)
  | data (data : Bytes) (consumed : Nat) (last : Bool)
  | skipped (frameType : FrameType) (len consumed : Nat)
  | oversized (frameType : FrameType) (len consumed : Nat)
  | discarded (data : Bytes) (consumed : Nat) (last : Bool)
  deriving DecidableEq

def Step.consumed : Step → Nat
  | .needMore consumed => consumed
  | .frame _ consumed => consumed
  | .data _ consumed _ => consumed
  | .skipped _ _ consumed => consumed
  | .oversized _ _ consumed => consumed
  | .discarded _ consumed _ => consumed

/-- Where the decoder is in the frames: at the start of one, or inside a streamed payload with that
many octets left. -/
inductive State where
  | header
  | data (remaining : Nat)
  | discard (remaining : Nat)
  deriving DecidableEq

/-- The frame sequence rules of the stream. -/
inductive Sequence where
  | awaitSettings
  | control
  | start
  | interim
  | header
  | body
  | trailers
  | tunnel
  deriving DecidableEq

structure FrameDecoder where
  kind : StreamKind
  role : Role
  limits : FrameLimits
  state : State
  sequence : Sequence
  deriving DecidableEq

namespace FrameDecoder

/-- A decoder at the start of a stream's frames. -/
def new (kind : StreamKind) (role : Role) (limits : FrameLimits) : FrameDecoder where
  kind := kind
  role := role
  limits := limits
  state := .header
  sequence :=
    match kind with
    | .control => .awaitSettings
    | .request | .push => .start

/-- Mark a CONNECT request stream as established. -/
def tunnel (decoder : FrameDecoder) : FrameDecoder :=
  if decoder.kind = .control then decoder else { decoder with sequence := .tunnel }

/-- Mark the HEADERS frame just decoded as the final response. -/
def finalResponse (decoder : FrameDecoder) : FrameDecoder :=
  if decoder.sequence = .interim then { decoder with sequence := .header } else decoder

/-- Check a clean end of the stream. -/
def finish (decoder : FrameDecoder) (unconsumed : Bytes) : Except Error Unit :=
  if decoder.kind = .control then .error (.criticalStreamClosed 0x00)
  else
    let inside :=
      match decoder.state with
      | .header => false
      | .data remaining | .discard remaining => decide (0 < remaining)
    if inside || !unconsumed.isEmpty then .error .streamEndedInFrame
    else if decoder.kind = .request ∧ decoder.role = .server ∧ decoder.sequence = .start then
      .error .requestIncomplete
    else .ok ()

/-- Hand out the next piece of a streamed payload. -/
def piece (decoder : FrameDecoder) (input : Bytes) (remaining : Nat) (data : Bool) :
    FrameDecoder × Step :=
  if 0 < remaining ∧ input = [] then (decoder, .needMore 0)
  else
    let take := min remaining input.length
    let left := remaining - take
    let last := decide (left = 0)
    ({ decoder with state := if last then .header else if data then .data left else .discard left },
      if data then .data (input.take take) take last else .discarded (input.take take) take last)

/-- The types a stream takes among those the codec knows. -/
def allowed (kind : StreamKind) (frameType : FrameType) : Bool :=
  match kind with
  | .control =>
    match frameType with
    | FrameType.cancelPush | FrameType.settings | FrameType.goaway | FrameType.maxPushId => true
    | _ => false
  | .request =>
    match frameType with
    | FrameType.data | FrameType.headers | FrameType.pushPromise => true
    | _ => false
  | .push =>
    match frameType with
    | FrameType.data | FrameType.headers => true
    | _ => false

/-- Check a frame type against the stream, role and sequence rules: the sequence state once the frame
is consumed. -/
def check (decoder : FrameDecoder) (frameType : FrameType) : Except Error Sequence :=
  if decoder.sequence = .awaitSettings ∧ frameType ≠ FrameType.settings then
    .error (.missingSettings frameType)
  else if FrameType.isReservedHttp2 frameType then .error (.reservedFrameType frameType)
  else if !FrameType.isKnown frameType then .ok decoder.sequence
  else if !allowed decoder.kind frameType then .error (.wrongStream frameType decoder.kind)
  else if (frameType = FrameType.pushPromise ∧ decoder.role = .server) ∨
      (frameType = FrameType.maxPushId ∧ decoder.role = .client) then
    .error (.wrongRole frameType)
  else
    match decoder.sequence, frameType with
    | .awaitSettings, _ => .ok .control
    | .control, FrameType.settings => .error .secondSettings
    | .start, FrameType.headers =>
      .ok (match decoder.role with
        | .server => .header
        | .client => .interim)
    | .interim, FrameType.headers => .ok .interim
    | .header, FrameType.headers => .ok .trailers
    | .body, FrameType.headers => .ok .trailers
    | .interim, FrameType.data => .ok .body
    | .header, FrameType.data => .ok .body
    | .body, FrameType.data => .ok .body
    | .tunnel, FrameType.data => .ok .tunnel
    | .start, FrameType.data => .error (.outOfSequence frameType)
    | .trailers, FrameType.data => .error (.outOfSequence frameType)
    | .trailers, FrameType.headers => .error (.outOfSequence frameType)
    | .tunnel, _ => .error (.outOfSequence frameType)
    | sequence, _ => .ok sequence

/-- The longest payload of a type that is held whole, for the types with an oversized form. -/
def holdLimit (limits : FrameLimits) (frameType : FrameType) : Option Nat :=
  match frameType with
  | FrameType.headers => some limits.fieldSection
  | FrameType.pushPromise => some (limits.fieldSection + pushIdBound)
  | _ => none

/-- The length rules a header has to keep before its payload is read. -/
def checkLen (limits : FrameLimits) (frameType : FrameType) (len : Nat) : Option Error :=
  match frameType with
  | FrameType.settings =>
    if limits.settings < len then some (.excessiveLoad frameType len) else none
  | FrameType.cancelPush | FrameType.goaway | FrameType.maxPushId =>
    if len = 0 then some (.payloadTruncated frameType)
    else if pushIdBound < len then some (.payloadTrailing frameType)
    else none
  | _ => none

/-- The frame at the start of the input, behind its header. -/
def held (decoder : FrameDecoder) (input : Bytes) (header : FrameHeader) (next : Sequence) :
    FrameDecoder × Except Error Step :=
  match checkLen decoder.limits header.frameType header.len with
  | some refused => (decoder, .error refused)
  | none =>
    let total := header.headerLen + header.len
    if input.length < total then (decoder, .ok (.needMore 0))
    else
      match payloadFrame header.frameType ((input.take total).drop header.headerLen) with
      | .error refused => (decoder, .error refused)
      | .ok frame => ({ decoder with sequence := next }, .ok (.frame frame total))

/-- Read the frame at the start of the input. -/
def frame (decoder : FrameDecoder) (input : Bytes) : FrameDecoder × Except Error Step :=
  match FrameHeader.parse input with
  | none => (decoder, .ok (.needMore 0))
  | some header =>
    match decoder.check header.frameType with
    | .error refused => (decoder, .error refused)
    | .ok next =>
      if header.frameType = FrameType.data then
        ({ decoder with sequence := next, state := .data header.len },
          .ok (.data [] header.headerLen false))
      else if !FrameType.isKnown header.frameType then
        ({ decoder with state := .discard header.len },
          .ok (.skipped header.frameType header.len header.headerLen))
      else
        match holdLimit decoder.limits header.frameType with
        | none => decoder.held input header next
        | some limit =>
          if header.frameType = FrameType.pushPromise ∧ header.len = 0 then
            (decoder, .error (.payloadTruncated header.frameType))
          else if limit < header.len then
            ({ decoder with sequence := next, state := .discard header.len },
              .ok (.oversized header.frameType header.len header.headerLen))
          else decoder.held input header next

/-- Decode as much of the input as one step allows. -/
def decode (decoder : FrameDecoder) (input : Bytes) : FrameDecoder × Except Error Step :=
  match decoder.state with
  | .header => decoder.frame input
  | .data remaining =>
    let (next, step) := decoder.piece input remaining true
    (next, .ok step)
  | .discard remaining =>
    let (next, step) := decoder.piece input remaining false
    (next, .ok step)

end FrameDecoder

/-! ### The reader -/

/-- A call that tells the decoder what its caller found out. -/
inductive Call where
  | tunnel
  | finalResponse
  deriving DecidableEq

def Call.apply (decoder : FrameDecoder) : Call → FrameDecoder
  | .tunnel => decoder.tunnel
  | .finalResponse => decoder.finalResponse

/-- When the caller calls: behind the header step of a streamed frame, or behind a whole frame. -/
inductive Moment where
  | header
  | whole
  deriving DecidableEq

/-- The calls the caller makes, for each frame counted from 0. -/
abbrev Caller := Nat → Moment → List Call

/-- What was read of a stream, the payloads of streamed frames in one; the flag says whether a
payload is complete. -/
inductive Event where
  | frame (frame : Frame)
  | data (payload : Bytes) (whole : Bool)
  | skipped (frameType : FrameType) (len : Nat) (payload : Bytes) (whole : Bool)
  | oversized (frameType : FrameType) (len : Nat) (payload : Bytes) (whole : Bool)
  deriving DecidableEq

/-- An event with a further piece of its payload. -/
def Event.extend (event : Event) (more : Bytes) (last : Bool) : Event :=
  match event with
  | .frame read => .frame read
  | .data payload _ => .data (payload ++ more) last
  | .skipped frameType len payload _ => .skipped frameType len (payload ++ more) last
  | .oversized frameType len payload _ => .oversized frameType len (payload ++ more) last

/-- A reader of the frames on one stream: how many it has read whole, and what it saw. -/
structure Reader where
  decoder : FrameDecoder
  frames : Nat := 0
  events : List Event := []
  failure : Option Error := none
  deriving DecidableEq

namespace Reader

def new (kind : StreamKind) (role : Role) (limits : FrameLimits) : Reader where
  decoder := .new kind role limits

def call (caller : Caller) (moment : Moment) (reader : Reader) : Reader :=
  { reader with decoder := (caller reader.frames moment).foldl Call.apply reader.decoder }

/-- A frame is whole: the caller is told and the next one counted. -/
def whole (caller : Caller) (reader : Reader) : Reader :=
  let told := reader.call caller .whole
  { told with frames := told.frames + 1 }

/-- A streamed frame starts. -/
def opened (caller : Caller) (reader : Reader) (event : Event) : Reader :=
  ({ reader with events := reader.events ++ [event] } : Reader).call caller .header

/-- A piece of the payload of the frame read last. -/
def extended (caller : Caller) (reader : Reader) (octets : Bytes) (last : Bool) : Reader :=
  let longer : Reader :=
    { reader with
      events := reader.events.dropLast ++
        (reader.events.getLast?.map (·.extend octets last)).toList }
  if last then longer.whole caller else longer

/-- What a step of the decoder, now `next`, makes of the reader. -/
def observe (caller : Caller) (reader : Reader) (next : FrameDecoder) (step : Step) : Reader :=
  let moved := { reader with decoder := next }
  match step with
  | .needMore _ => moved
  | .frame frame _ => ({ moved with events := reader.events ++ [.frame frame] } : Reader).whole caller
  | .data octets _ last =>
    if reader.decoder.state = .header then moved.opened caller (.data [] false)
    else moved.extended caller octets last
  | .skipped frameType len _ => moved.opened caller (.skipped frameType len [] false)
  | .oversized frameType len _ => moved.opened caller (.oversized frameType len [] false)
  | .discarded octets _ last => moved.extended caller octets last

/-- One call of the decoder on the octets not used so far. -/
def step (caller : Caller) (reader : Reader) (input : Bytes) : Progress Reader :=
  match reader.decoder.decode input with
  | (_, .error refused) => .fail { reader with failure := some refused }
  | (_, .ok (.needMore _)) => .wait
  | (next, .ok step) => .advance (reader.observe caller next step) step.consumed

end Reader

end ZeroServer.H3
