/-
This file models the payload limits that follow from the configured limits and proves that a frame
held whole, with its header, fits the flow-control window of its stream.
-/

import ZeroServer.H3.Reads

namespace ZeroServer.H3

open Http1

/-! ### Limits -/

/-- The configured limits that bound the frames held whole. -/
structure Http3Limits where
  streamData : Nat
  maxFieldSectionSize : Nat
  deriving DecidableEq

def settingsPayloadLimit : Nat := 4096

/-- The longest frame header. -/
def headerBound : Nat := 16

def largest : Nat := 2 ^ 64 - 1

/-- The longest encoded field section whose decoded size can be within a limit. -/
def encodedFieldSectionBound (maxFieldSectionSize : Nat) : Nat :=
  min (min (maxFieldSectionSize * 4) largest + 20) largest

def FrameLimits.fromLimits (limits : Http3Limits) : FrameLimits where
  fieldSection := min (encodedFieldSectionBound limits.maxFieldSectionSize)
    (limits.streamData - headerBound - pushIdBound)
  settings := min settingsPayloadLimit (limits.streamData - headerBound)

/-! ### Runs -/

/-- A call of a decoder. -/
inductive DecoderCall where
  | decode (input : Bytes)
  | tunnel
  | finalResponse

def FrameDecoder.call (decoder : FrameDecoder) : DecoderCall → FrameDecoder
  | .decode input => (decoder.decode input).1
  | .tunnel => decoder.tunnel
  | .finalResponse => decoder.finalResponse

/-- A decoder after calls, from the start of a stream's frames on. -/
def FrameDecoder.run (kind : StreamKind) (role : Role) (limits : FrameLimits)
    (calls : List DecoderCall) : FrameDecoder :=
  calls.foldl call (.new kind role limits)

/-! ### Headers -/

variable {header : FrameHeader}

variable {input : Bytes}

theorem Varint.decode_enough {input : Bytes} (enough : 8 ≤ input.length) :
    ∃ value taken, decode input = some (value, taken) ∧ taken ≤ 8 := by
  cases input with
  | nil => cases enough
  | cons first rest =>
    have chunk : ∀ count ≤ 8,
        firstChunk count (first :: rest) = some ((first :: rest).take count) :=
      fun count few => if_pos (Nat.le_trans few enough)
    unfold decode
    dsimp only
    split
    · exact ⟨_, _, rfl, by decide⟩
    · rw [chunk 2 (by decide)]
      exact ⟨_, _, rfl, by decide⟩
    · rw [chunk 4 (by decide)]
      exact ⟨_, _, rfl, by decide⟩
    · rw [chunk 8 (by decide)]
      exact ⟨_, _, rfl, by decide⟩

/-- A header is there once as many octets are as the longest one takes. -/
theorem FrameHeader.parse_enough {input : Bytes} (enough : headerBound ≤ input.length) :
    ∃ header, FrameHeader.parse input = some header := by
  rw [headerBound] at enough
  obtain ⟨frameType, typeLen, first, short⟩ := @Varint.decode_enough input (by omega)
  obtain ⟨len, lenLen, second, -⟩ := @Varint.decode_enough (input.drop typeLen)
    (by rw [List.length_drop]; omega)
  rw [FrameHeader.parse, first]
  dsimp only
  rw [second]
  exact ⟨_, rfl⟩

theorem FrameHeader.parse_bound (read : FrameHeader.parse input = some header) :
    header.headerLen ≤ headerBound := by
  unfold FrameHeader.parse at read
  split at read
  · cases read
  · rename_i first
    split at read
    · cases read
    · rename_i second
      cases read
      exact Nat.add_le_add (Varint.decode_taken_le first) (Varint.decode_taken_le second)

/-! ### Frames held whole -/

namespace FrameDecoder

variable {limits : Http3Limits}

theorem decode_limits (decoder : FrameDecoder) (input : Bytes) :
    (decoder.decode input).1.limits = decoder.limits := by
  unfold decode
  split
  · have starts := frame_starts decoder input
    generalize decoder.frame input = result at starts
    cases starts <;> rfl
  · dsimp only [piece]
    split <;> rfl
  · dsimp only [piece]
    split <;> rfl

theorem run_limits (kind : StreamKind) (role : Role) (limits : FrameLimits)
    (calls : List DecoderCall) : (run kind role limits calls).limits = limits := by
  have kept : ∀ (decoder : FrameDecoder) (call : DecoderCall),
      (decoder.call call).limits = decoder.limits := by
    intro decoder call
    cases call with
    | decode input => exact decode_limits decoder input
    | tunnel =>
      dsimp only [FrameDecoder.call, tunnel]
      split <;> rfl
    | finalResponse =>
      dsimp only [FrameDecoder.call, finalResponse]
      split <;> rfl
  have steps : ∀ (calls : List DecoderCall) (decoder : FrameDecoder),
      (calls.foldl call decoder).limits = decoder.limits := by
    intro calls
    induction calls with
    | nil => exact fun _ => rfl
    | cons call calls inductionHypothesis =>
      exact fun decoder => (inductionHypothesis _).trans (kept decoder call)
  exact steps calls _

variable {frameType : FrameType}

theorem holdLimit_le {limits : FrameLimits} {limit : Nat}
    (bounded : holdLimit limits frameType = some limit) :
    limit ≤ limits.fieldSection + pushIdBound := by
  unfold holdLimit at bounded
  split at bounded
  · cases bounded
    exact Nat.le_add_right _ _
  · cases bounded
    exact Nat.le_refl _
  · cases bounded

/-- A frame that is held without an oversized form is a SETTINGS frame within its limit or takes no
more than a push ID. -/
theorem checkLen_le {limits : FrameLimits} {len : Nat} (known : FrameType.isKnown frameType = true)
    (streamed : frameType ≠ FrameType.data) (unbounded : holdLimit limits frameType = none)
    (accepted : checkLen limits frameType len = none) :
    len ≤ limits.settings ∨ len ≤ pushIdBound := by
  have small : ∀ {frameType : FrameType}, (if len = 0 then some (Error.payloadTruncated frameType)
      else if pushIdBound < len then some (.payloadTrailing frameType) else none) = none →
      len ≤ pushIdBound := by
    intro frameType accepted
    split at accepted
    · cases accepted
    split at accepted
    · cases accepted
    · rename_i within
      exact Nat.le_of_not_lt within
  rcases FrameType.isKnown_cases known with rfl | rfl | rfl | rfl | rfl | rfl | rfl
  · exact absurd rfl streamed
  · cases unbounded
  · exact .inr (small accepted)
  · have judged : (if limits.settings < len then some (Error.excessiveLoad 4 len) else none) =
        none := accepted
    split at judged
    · cases judged
    · rename_i within
      exact .inl (Nat.le_of_not_lt within)
  · cases unbounded
  · exact .inr (small accepted)
  · exact .inr (small accepted)

/-- What the window leaves for a payload behind the longest header. -/
theorem fromLimits_room (room : headerBound + pushIdBound ≤ limits.streamData) :
    headerBound + ((FrameLimits.fromLimits limits).fieldSection + pushIdBound) ≤
      limits.streamData ∧
    headerBound + (FrameLimits.fromLimits limits).settings ≤ limits.streamData := by
  unfold FrameLimits.fromLimits
  dsimp only
  omega

variable {decoder : FrameDecoder}

/-- A frame the decoder does not stream fits the window with its header, unless it is refused. -/
theorem held_room (same : decoder.limits = .fromLimits limits)
    (room : headerBound + pushIdBound ≤ limits.streamData) (short : header.headerLen ≤ headerBound)
    (known : FrameType.isKnown header.frameType = true)
    (streamed : header.frameType ≠ FrameType.data)
    (within : ∀ limit, holdLimit decoder.limits header.frameType = some limit →
      header.len ≤ limit) (accepted : checkLen decoder.limits header.frameType header.len = none) :
    header.headerLen + header.len ≤ limits.streamData := by
  obtain ⟨sections, settings⟩ := fromLimits_room room
  rw [same] at within accepted
  cases bounded : holdLimit (.fromLimits limits) header.frameType with
  | some limit =>
    have inside := within limit bounded
    have below := holdLimit_le bounded
    omega
  | none =>
    rcases checkLen_le known streamed bounded accepted with inside | inside
    · omega
    · omega

/-- Where the decoder waits for a frame whose header is there, or hands one out whole, the frame
fits the window; and it does not wait once as many octets are there as the window holds. -/
structure Fits (window : Nat) (decoder : FrameDecoder) (input : Bytes) : Prop where
  proceeds : window ≤ input.length →
    ∀ consumed, (decoder.decode input).2 ≠ .ok (.needMore consumed)
  awaited : ∀ header consumed, decoder.state = .header → FrameHeader.parse input = some header →
    (decoder.decode input).2 = .ok (.needMore consumed) → header.headerLen + header.len ≤ window
  whole : ∀ frame consumed, (decoder.decode input).2 = .ok (.frame frame consumed) →
    consumed ≤ window

/-- What the decoder makes of a frame at the start of the input, when it waits or holds it whole. -/
theorem frame_room (same : decoder.limits = .fromLimits limits)
    (room : headerBound + pushIdBound ≤ limits.streamData)
    (parsed : FrameHeader.parse input = some header) :
    (∀ consumed, (decoder.frame input).2 = .ok (.needMore consumed) →
      input.length < header.headerLen + header.len ∧
        header.headerLen + header.len ≤ limits.streamData) ∧
    ∀ frame consumed, (decoder.frame input).2 = .ok (.frame frame consumed) →
      consumed ≤ limits.streamData := by
  have short := FrameHeader.parse_bound parsed
  have held : ∀ next, FrameType.isKnown header.frameType = true →
      header.frameType ≠ FrameType.data →
      (∀ limit, holdLimit decoder.limits header.frameType = some limit → header.len ≤ limit) →
      (∀ consumed, (decoder.held input header next).2 = .ok (.needMore consumed) →
        input.length < header.headerLen + header.len ∧
          header.headerLen + header.len ≤ limits.streamData) ∧
      ∀ frame consumed, (decoder.held input header next).2 = .ok (.frame frame consumed) →
        consumed ≤ limits.streamData := by
    intro next known streamed within
    unfold FrameDecoder.held
    split
    · exact ⟨nofun, nofun⟩
    rename_i accepted
    have fits := held_room same room short known streamed within accepted
    dsimp only
    split
    · rename_i waits
      exact ⟨fun _ _ => ⟨waits, fits⟩, nofun⟩
    split
    · exact ⟨nofun, nofun⟩
    · refine ⟨nofun, fun frame consumed read => ?_⟩
      cases read
      exact fits
  unfold FrameDecoder.frame
  rw [parsed]
  dsimp only
  split
  · exact ⟨nofun, nofun⟩
  split
  · exact ⟨nofun, nofun⟩
  rename_i streamed
  split
  · exact ⟨nofun, nofun⟩
  rename_i known
  rw [Bool.not_eq_true', Bool.not_eq_false] at known
  split
  · rename_i unbounded
    refine held _ known streamed fun limit bounded => ?_
    rw [unbounded] at bounded
    cases bounded
  · rename_i limit bounded
    split
    · exact ⟨nofun, nofun⟩
    split
    · exact ⟨nofun, nofun⟩
    · rename_i within
      refine held _ known streamed fun other same => ?_
      rw [bounded] at same
      cases same
      exact Nat.le_of_not_lt within

/-- With a window of the longest header and a push ID, or more, a decoder with the limits that
follow from the configured ones never waits once the window is full, and what it holds whole fits
the window. -/
theorem held_fits_window (limits : Http3Limits)
    (room : headerBound + pushIdBound ≤ limits.streamData) (kind : StreamKind) (role : Role)
    (calls : List DecoderCall) (input : Bytes) :
    Fits limits.streamData (run kind role (.fromLimits limits) calls) input := by
  have same := run_limits kind role (.fromLimits limits) calls
  generalize run kind role (.fromLimits limits) calls = decoder at same
  have streaming : ∀ remaining data, limits.streamData ≤ input.length → ∀ consumed,
      (decoder.piece input remaining data).2 ≠ .needMore consumed := by
    intro remaining data full consumed
    unfold piece
    rw [if_neg]
    · dsimp only
      split <;> nofun
    · rintro ⟨-, rfl⟩
      exact absurd (Nat.le_trans room full) (by decide)
  have noFrame : ∀ remaining data frame consumed,
      (decoder.piece input remaining data).2 ≠ .frame frame consumed := by
    intro remaining data frame consumed
    unfold piece
    split
    · nofun
    · dsimp only
      split <;> nofun
  refine ⟨fun full consumed => ?_, fun header consumed outside parsed waits => ?_,
    fun frame consumed read => ?_⟩
  · unfold decode
    split
    · intro waits
      obtain ⟨header, parsed⟩ := @FrameHeader.parse_enough input
        (Nat.le_trans (Nat.le_trans (Nat.le_add_right _ _) room) full)
      obtain ⟨short, fits⟩ := (frame_room same room parsed).1 consumed waits
      omega
    · exact fun waits => streaming _ _ full consumed (Except.ok.inj waits)
    · exact fun waits => streaming _ _ full consumed (Except.ok.inj waits)
  · unfold decode at waits
    rw [outside] at waits
    exact ((frame_room same room parsed).1 consumed waits).2
  · unfold decode at read
    split at read
    · cases parsed : FrameHeader.parse input with
      | none =>
        unfold FrameDecoder.frame at read
        rw [parsed] at read
        cases read
      | some header => exact (frame_room same room parsed).2 frame consumed read
    · exact absurd (Except.ok.inj read) (noFrame _ _ frame consumed)
    · exact absurd (Except.ok.inj read) (noFrame _ _ frame consumed)

/-- A window of 24 octets holds a SETTINGS frame of the longest header. -/
theorem held_fits_window_smallest :
    Fits 24 (run .control .client (.fromLimits ⟨24, 65536⟩) []) [4, 8] :=
  held_fits_window ⟨24, 65536⟩ (by decide) .control .client [] [4, 8]

end FrameDecoder

end ZeroServer.H3
