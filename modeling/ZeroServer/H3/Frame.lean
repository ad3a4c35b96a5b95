/-
This file models what an HTTP/3 frame is made of: variable-length integers, the frame header, the
settings payload and the payloads held whole, with the errors their parsers report.
-/

import Mathlib.Data.List.Sort
import ZeroServer.Http1.Types

namespace ZeroServer.H3

open Http1

/-! ### Variable-length integers -/

variable {input : Bytes}

namespace Varint

/-- The encoded length the first octet announces. -/
def lenFromFirst (first : UInt8) : Nat :=
  match first >>> 6 with
  | 0 => 1
  | 1 => 2
  | 2 => 4
  | _ => 8

/-- The integer of octets in network order. -/
def fromBeBytes (bytes : Bytes) : Nat := bytes.foldl (fun value byte => value * 256 + byte.toNat) 0

def firstChunk (count : Nat) (input : Bytes) : Option Bytes :=
  if count ≤ input.length then some (input.take count) else none

/-- The integer at the start of the input and the octets it took, once they are all there. -/
def decode (input : Bytes) : Option (Nat × Nat) :=
  match input with
  | [] => none
  | first :: _ =>
    match lenFromFirst first with
    | 1 => some (first.toNat, 1)
    | 2 => (firstChunk 2 input).map fun bytes => (fromBeBytes bytes &&& 0x3FFF, 2)
    | 4 => (firstChunk 4 input).map fun bytes => (fromBeBytes bytes &&& 0x3FFFFFFF, 4)
    | _ => (firstChunk 8 input).map fun bytes => (fromBeBytes bytes &&& 0x3FFFFFFFFFFFFFFF, 8)

variable {count : Nat} {bytes : Bytes}

theorem firstChunk_append (read : firstChunk count input = some bytes) (more : Bytes) :
    firstChunk count (input ++ more) = some bytes := by
  unfold firstChunk at read ⊢
  split at read
  · rename_i enough
    rw [if_pos (by rw [List.length_append]; omega), List.take_append_of_le_length enough]
    exact read
  · cases read

theorem firstChunk_inside (read : firstChunk count input = some bytes) : count ≤ input.length := by
  unfold firstChunk at read
  split at read
  · assumption
  · cases read

/-- What an integer is and where it ends does not depend on what follows. -/
theorem decode_append {value taken : Nat} (read : decode input = some (value, taken))
    (more : Bytes) : decode (input ++ more) = some (value, taken) := by
  cases input with
  | nil => cases read
  | cons first rest =>
    unfold decode at read ⊢
    dsimp only [List.cons_append] at read ⊢
    split at read
    · exact read
    all_goals
      obtain ⟨bytes, chunk, same⟩ := Option.map_eq_some_iff.mp read
      have again := firstChunk_append chunk more
      rw [List.cons_append] at again
      rw [again]
      exact congrArg some same

theorem decode_taken {value taken : Nat} (read : decode input = some (value, taken)) :
    0 < taken ∧ taken ≤ input.length := by
  cases input with
  | nil => cases read
  | cons first rest =>
    unfold decode at read
    dsimp only at read
    split at read
    · cases read
      exact ⟨Nat.one_pos, Nat.le_add_left 1 _⟩
    all_goals
      obtain ⟨bytes, chunk, same⟩ := Option.map_eq_some_iff.mp read
      cases same
      exact ⟨by decide, firstChunk_inside chunk⟩

theorem decode_taken_le {value taken : Nat} (read : decode input = some (value, taken)) :
    taken ≤ 8 := by
  cases input with
  | nil => cases read
  | cons first rest =>
    unfold decode at read
    dsimp only at read
    split at read
    · cases read
      decide
    all_goals
      obtain ⟨bytes, chunk, same⟩ := Option.map_eq_some_iff.mp read
      cases same
      decide

end Varint

/-! ### Streams, roles and errors -/

/-- The stream a decoder reads. -/
inductive StreamKind where
  | control
  | request
  | push
  deriving DecidableEq

/-- The local endpoint, which receives the frames. -/
inductive Role where
  | client
  | server
  deriving DecidableEq

/-- The errors of frames and of the end of a stream. -/
inductive Error where
  | payloadTruncated (frameType : Nat)
  | payloadTrailing (frameType : Nat)
  | streamEndedInFrame
  | wrongStream (frameType : Nat) (stream : StreamKind)
  | wrongRole (frameType : Nat)
  | reservedFrameType (frameType : Nat)
  | secondSettings
  | outOfSequence (frameType : Nat)
  | missingSettings (frameType : Nat)
  | reservedSetting (id : Nat)
  | duplicateSetting (id : Nat)
  | settingValue (id value : Nat)
  | excessiveLoad (frameType len : Nat)
  | criticalStreamClosed (streamType : Nat)
  | requestIncomplete
  deriving DecidableEq

/-! ### Frame headers -/

/-- A frame type value. -/
abbrev FrameType := Nat

namespace FrameType

@[match_pattern] abbrev data : FrameType := 0x00
@[match_pattern] abbrev headers : FrameType := 0x01
@[match_pattern] abbrev cancelPush : FrameType := 0x03
@[match_pattern] abbrev settings : FrameType := 0x04
@[match_pattern] abbrev pushPromise : FrameType := 0x05
@[match_pattern] abbrev goaway : FrameType := 0x07
@[match_pattern] abbrev maxPushId : FrameType := 0x0D

/-- The types HTTP/2 used with no HTTP/3 counterpart. -/
def isReservedHttp2 (frameType : FrameType) : Bool :=
  match frameType with
  | 0x02 | 0x06 | 0x08 | 0x09 => true
  | _ => false

def isKnown (frameType : FrameType) : Bool :=
  match frameType with
  | 0x00 | 0x01 | 0x03 | 0x04 | 0x05 | 0x07 | 0x0D => true
  | _ => false

theorem isKnown_cases {frameType : FrameType} (known : isKnown frameType = true) :
    frameType = 0x00 ∨ frameType = 0x01 ∨ frameType = 0x03 ∨ frameType = 0x04 ∨ frameType = 0x05 ∨
      frameType = 0x07 ∨ frameType = 0x0D := by
  unfold isKnown at known
  split at known
  any_goals decide
  cases known

end FrameType

structure FrameHeader where
  frameType : FrameType
  len : Nat
  headerLen : Nat
  deriving DecidableEq

/-- The header at the start of the input, once both its integers are there. -/
def FrameHeader.parse (input : Bytes) : Option FrameHeader :=
  match Varint.decode input with
  | none => none
  | some (frameType, typeLen) =>
    match Varint.decode (input.drop typeLen) with
    | none => none
    | some (len, lenLen) => some ⟨frameType, len, typeLen + lenLen⟩

variable {header : FrameHeader}

theorem FrameHeader.parse_append (read : FrameHeader.parse input = some header) (more : Bytes) :
    FrameHeader.parse (input ++ more) = some header := by
  unfold FrameHeader.parse at read ⊢
  rcases first : Varint.decode input with _ | ⟨frameType, typeLen⟩
  · rw [first] at read
    cases read
  · rw [first] at read
    rw [Varint.decode_append first more]
    dsimp only at read ⊢
    rw [List.drop_append_of_le_length (Varint.decode_taken first).2]
    rcases second : Varint.decode (input.drop typeLen) with _ | ⟨len, lenLen⟩
    · rw [second] at read
      cases read
    · rw [second] at read
      rw [Varint.decode_append second more]
      exact read

theorem FrameHeader.parse_taken (read : FrameHeader.parse input = some header) :
    0 < header.headerLen ∧ header.headerLen ≤ input.length := by
  unfold FrameHeader.parse at read
  rcases first : Varint.decode input with _ | ⟨frameType, typeLen⟩
  · rw [first] at read
    cases read
  · rw [first] at read
    dsimp only at read
    rcases second : Varint.decode (input.drop typeLen) with _ | ⟨len, lenLen⟩
    · rw [second] at read
      cases read
    · rw [second] at read
      cases read
      have taken := (Varint.decode_taken first).1
      have inside := (Varint.decode_taken second).2
      have whole := (Varint.decode_taken first).2
      rw [List.length_drop] at inside
      refine ⟨Nat.add_pos_left taken _, ?_⟩
      dsimp only
      omega

/-! ### Settings -/

/-- The settings a frame carried; none means absent. -/
structure Settings where
  qpackMaxTableCapacity : Option Nat := none
  maxFieldSectionSize : Option Nat := none
  qpackBlockedStreams : Option Nat := none
  enableConnectProtocol : Option Bool := none
  h3Datagram : Option Bool := none
  deriving DecidableEq

namespace Settings

/-- A setting whose value is 0 or 1. -/
def flag (id value : Nat) : Except Error Bool :=
  match value with
  | 0 => .ok false
  | 1 => .ok true
  | _ => .error (.settingValue id value)

/-- What one pair makes of the settings so far. -/
def set (settings : Settings) (id value : Nat) : Except Error Settings :=
  match id with
  | 0x01 => .ok { settings with qpackMaxTableCapacity := some value }
  | 0x06 => .ok { settings with maxFieldSectionSize := some value }
  | 0x07 => .ok { settings with qpackBlockedStreams := some value }
  | 0x08 => (flag id value).map fun on => { settings with enableConnectProtocol := some on }
  | 0x33 => (flag id value).map fun on => { settings with h3Datagram := some on }
  | _ => .ok settings

def isReservedHttp2 (id : Nat) : Bool := [0x02, 0x03, 0x04, 0x05].contains id

/-- Read pairs until the payload ends; the identifiers seen are kept. -/
def parsePairs (settings : Settings) (seen : List Nat) (rest : Bytes) :
    Except Error (Settings × List Nat) :=
  if rest = [] then .ok (settings, seen)
  else
    match _ : Varint.decode rest with
    | none => .error (.payloadTruncated FrameType.settings)
    | some (id, idLen) =>
      match Varint.decode (rest.drop idLen) with
      | none => .error (.payloadTruncated FrameType.settings)
      | some (value, valueLen) =>
        if isReservedHttp2 id then .error (.reservedSetting id)
        else
          match settings.set id value with
          | .error refused => .error refused
          | .ok next => parsePairs next (seen ++ [id]) ((rest.drop idLen).drop valueLen)
termination_by rest.length
decreasing_by
  have taken := Varint.decode_taken ‹Varint.decode rest = some (_, _)›
  simp only [List.length_drop]
  omega

/-- The first of two equal neighbours. -/
def repeated : List Nat → Option Nat
  | first :: second :: rest => if first = second then some first else repeated (second :: rest)
  | _ => none

/-- Parse a settings payload. -/
def parse (payload : Bytes) : Except Error Settings :=
  match parsePairs {} [] payload with
  | .error refused => .error refused
  | .ok (settings, seen) =>
    match repeated (seen.insertionSort (· ≤ ·)) with
    | some id => .error (.duplicateSetting id)
    | none => .ok settings

end Settings

/-! ### Frames held whole -/

/-- A whole frame other than DATA and the skipped types. -/
inductive Frame where
  | headers (fieldSection : Bytes)
  | cancelPush (pushId : Nat)
  | settings (settings : Settings)
  | pushPromise (pushId : Nat) (fieldSection : Bytes)
  | goaway (id : Nat)
  | maxPushId (pushId : Nat)
  deriving DecidableEq

/-- Parse the payload of a frame held whole. -/
def payloadFrame (frameType : FrameType) (payload : Bytes) : Except Error Frame :=
  match frameType with
  | FrameType.settings => (Settings.parse payload).map .settings
  | FrameType.pushPromise =>
    match Varint.decode payload with
    | none => .error (.payloadTruncated frameType)
    | some (pushId, len) => .ok (.pushPromise pushId (payload.drop len))
  | FrameType.cancelPush | FrameType.goaway | FrameType.maxPushId =>
    match Varint.decode payload with
    | none => .error (.payloadTruncated frameType)
    | some (value, len) =>
      if len < payload.length then .error (.payloadTrailing frameType)
      else .ok (match frameType with
        | FrameType.cancelPush => .cancelPush value
        | FrameType.goaway => .goaway value
        | _ => .maxPushId value)
  | _ => .ok (.headers payload)

end ZeroServer.H3
