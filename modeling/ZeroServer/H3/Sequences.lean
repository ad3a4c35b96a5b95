/-
This file proves which sequences of frames the decoder accepts. The sequence rules are an automaton
over the frames of a stream and the calls made behind them; its languages are those of messages, of
tunnels and of control streams, and a stream is read to its end exactly if it is in them, whatever
its payloads are, as long as each is valid for its type.
-/

import ZeroServer.Lib.Automaton
import ZeroServer.H3.Reads

namespace ZeroServer.H3

open Http1 Lib FrameDecoder

/-! ### Streams of frames -/

/-- A frame on the wire, its header in any encoding, with the calls made behind it. -/
structure Sent where
  frameType : FrameType
  head : Bytes
  payload : Bytes
  calls : List Call := []

/-- The header announces the type and the length, and the payload is one its type can have. -/
structure Sent.Valid (limits : FrameLimits) (sent : Sent) : Prop where
  parsed : FrameHeader.parse sent.head =
    some ⟨sent.frameType, sent.payload.length, sent.head.length⟩
  payload : FrameType.isKnown sent.frameType = true → sent.frameType ≠ FrameType.data →
    ∃ frame, payloadFrame sent.frameType sent.payload = .ok frame
  settings : sent.frameType = FrameType.settings → sent.payload.length ≤ limits.settings

def Sent.wire (sent : Sent) : Bytes := sent.head ++ sent.payload

/-- What is read of a valid frame the decoder does not refuse. -/
inductive Sent.Shown (limits : FrameLimits) (sent : Sent) : Event → Prop
  | data (type : sent.frameType = FrameType.data) : Shown limits sent (.data sent.payload true)
  | skipped (unknown : FrameType.isKnown sent.frameType = false) :
      Shown limits sent (.skipped sent.frameType sent.payload.length sent.payload true)
  | oversized {limit : Nat} (bounded : holdLimit limits sent.frameType = some limit)
      (long : limit < sent.payload.length) :
      Shown limits sent (.oversized sent.frameType sent.payload.length sent.payload true)
  | frame {frame : Frame} (known : FrameType.isKnown sent.frameType = true)
      (other : sent.frameType ≠ FrameType.data)
      (fits : ∀ limit, holdLimit limits sent.frameType = some limit → sent.payload.length ≤ limit)
      (read : payloadFrame sent.frameType sent.payload = .ok frame) : Shown limits sent (.frame frame)

def wire (frames : List Sent) : Bytes := (frames.map Sent.wire).flatten

/-- The calls behind whole frames. -/
def callsBehind (frames : List Sent) : Caller := fun number moment =>
  match moment with
  | .header => []
  | .whole => (frames[number]?.map Sent.calls).getD []

/-- What was read of the whole stream. -/
def readAll (kind : StreamKind) (role : Role) (limits : FrameLimits) (frames : List Sent) :
    Halt Reader UInt8 :=
  (Reader.machine (callsBehind frames)).run (.new kind role limits) (wire frames)

/-- Every frame of the stream is read, and nothing is left over. -/
def Undisturbed (kind : StreamKind) (role : Role) (limits : FrameLimits) (frames : List Sent) :
    Prop :=
  (readAll kind role limits frames).state.failure = none ∧
    (readAll kind role limits frames).rest = some [] ∧
    (readAll kind role limits frames).state.decoder.state = .header

/-- The stream is read to a clean end. -/
def Accepted (kind : StreamKind) (role : Role) (limits : FrameLimits) (frames : List Sent) : Prop :=
  Undisturbed kind role limits frames ∧
    (readAll kind role limits frames).state.decoder.finish [] = .ok ()

/-! ### The automaton of the sequence rules -/

/-- What happens on a stream: a frame, or a call of its reader. -/
inductive Token where
  | frame (frameType : FrameType)
  | call (call : Call)
  deriving DecidableEq

def Sent.tokens (sent : Sent) : List Token := .frame sent.frameType :: sent.calls.map .call

def tokens (frames : List Sent) : List Token := (frames.map Sent.tokens).flatten

/-- What a token makes of the sequence state. -/
def nextSequence (kind : StreamKind) (role : Role) (sequence : Sequence) : Token → Option Sequence
  | .frame frameType =>
    (check { FrameDecoder.new kind role ⟨0, 0⟩ with sequence := sequence } frameType).toOption
  | .call call =>
    some (call.apply { FrameDecoder.new kind role ⟨0, 0⟩ with sequence := sequence }).sequence

theorem check_eq (decoder : FrameDecoder) (frameType : FrameType) :
    (decoder.check frameType).toOption =
      nextSequence decoder.kind decoder.role decoder.sequence (.frame frameType) := rfl

theorem apply_eq (decoder : FrameDecoder) (call : Call) :
    nextSequence decoder.kind decoder.role decoder.sequence (.call call) =
      some (call.apply decoder).sequence ∧
    call.apply decoder = { decoder with sequence := (call.apply decoder).sequence } := by
  obtain ⟨kind, role, limits, state, sequence⟩ := decoder
  cases call with
  | tunnel => cases kind <;> exact ⟨rfl, rfl⟩
  | finalResponse => cases sequence <;> exact ⟨rfl, rfl⟩

/-- The calls behind a frame as tokens. -/
theorem follow_calls (decoder : FrameDecoder) (calls : List Call) (rest : List Token) :
    follow (nextSequence decoder.kind decoder.role) decoder.sequence (calls.map .call ++ rest) =
      follow (nextSequence decoder.kind decoder.role)
        (calls.foldl Call.apply decoder).sequence rest ∧
    calls.foldl Call.apply decoder =
      { decoder with sequence := (calls.foldl Call.apply decoder).sequence } := by
  induction calls generalizing decoder with
  | nil => exact ⟨rfl, rfl⟩
  | cons call calls inductionHypothesis =>
    obtain ⟨taken, same⟩ := apply_eq decoder call
    have later := inductionHypothesis (call.apply decoder)
    have kind : (call.apply decoder).kind = decoder.kind := by rw [same]
    have role : (call.apply decoder).role = decoder.role := by rw [same]
    rw [kind, role] at later
    rw [List.map_cons, List.cons_append, follow_cons taken, List.foldl_cons]
    refine ⟨later.1, ?_⟩
    rw [later.2, same]

/-! ### Reading valid frames -/

variable {sent : Sent} {frameType : FrameType}

variable {limits : FrameLimits} {decoder : FrameDecoder} {caller : Caller} {reader : Reader}

variable {next : Sequence} {refused : Error}

theorem Sent.Valid.parse_wire (valid : sent.Valid limits) (more : Bytes) :
    FrameHeader.parse (sent.wire ++ more) =
      some ⟨sent.frameType, sent.payload.length, sent.head.length⟩ := by
  unfold Sent.wire
  rw [List.append_assoc]
  exact FrameHeader.parse_append valid.parsed _

/-- A payload of one integer is neither empty nor longer than an integer can be. -/
theorem payloadFrame_integer {payload : Bytes} {frame : Frame}
    (integer : frameType = FrameType.cancelPush ∨ frameType = FrameType.goaway ∨
      frameType = FrameType.maxPushId) (read : payloadFrame frameType payload = .ok frame) :
    payload.length ≠ 0 ∧ payload.length ≤ pushIdBound := by
  have one : ∃ value taken, Varint.decode payload = some (value, taken) ∧
      ¬ taken < payload.length := by
    rcases decoded : Varint.decode payload with _ | ⟨value, taken⟩
    · rcases integer with rfl | rfl | rfl
      all_goals
        simp only [payloadFrame, decoded] at read
        cases read
    · refine ⟨value, taken, rfl, fun short => ?_⟩
      rcases integer with rfl | rfl | rfl
      all_goals
        simp only [payloadFrame, decoded, if_pos short] at read
        cases read
  obtain ⟨value, taken, decoded, all⟩ := one
  have used := Varint.decode_taken decoded
  have short := Varint.decode_taken_le decoded
  unfold pushIdBound
  omega

theorem checkLen_valid (valid : sent.Valid limits) :
    checkLen limits sent.frameType sent.payload.length = none := by
  have payload := valid.payload
  have settings := valid.settings
  generalize sent.frameType = frameType at payload settings ⊢
  unfold checkLen
  split
  · rw [if_neg (Nat.not_lt.mpr (settings rfl))]
  all_goals
    try
      obtain ⟨frame, read⟩ := payload rfl (by decide)
      obtain ⟨some_, short⟩ := payloadFrame_integer (by decide) read
      rw [if_neg some_, if_neg (Nat.not_lt.mpr short)]
  rfl

/-- What the header step of a streamed frame adds to what was read. -/
def Step.opening : Step → Option Event
  | .data _ _ _ => some (.data [] false)
  | .skipped frameType len _ => some (.skipped frameType len [] false)
  | .oversized frameType len _ => some (.oversized frameType len [] false)
  | _ => none

/-- What the decoder makes of a valid frame it does not refuse. -/
theorem frame_sent (valid : sent.Valid decoder.limits)
    (checked : decoder.check sent.frameType = .ok next) (more : Bytes) :
    (∃ data step event, Opens ⟨sent.frameType, sent.payload.length, sent.head.length⟩ step
        (streamed data sent.payload.length) ∧
      step.opening = some event ∧
      sent.Shown decoder.limits (event.extend sent.payload true) ∧
      decoder.frame (sent.wire ++ more) =
        ({ decoder with sequence := next, state := streamed data sent.payload.length }, .ok step)) ∨
    ∃ frame, sent.Shown decoder.limits (.frame frame) ∧
      decoder.frame (sent.wire ++ more) = ({ decoder with sequence := next },
        .ok (.frame frame sent.wire.length)) := by
  unfold FrameDecoder.frame
  rw [valid.parse_wire]
  dsimp only
  rw [checked]
  dsimp only
  by_cases data : sent.frameType = FrameType.data
  · rw [if_pos data]
    exact .inl ⟨true, _, _, .data data, rfl, .data data, rfl⟩
  · rw [if_neg data]
    rcases known : FrameType.isKnown sent.frameType with _ | _
    · rw [if_pos (show (!false) = true from rfl)]
      refine .inl ⟨false, _, _, .skipped known, rfl, .skipped known, ?_⟩
      rw [check_unknown known checked]
      rfl
    · rw [if_neg (by decide)]
      obtain ⟨frame, read⟩ := valid.payload known data
      have whole : decoder.held (sent.wire ++ more)
          ⟨sent.frameType, sent.payload.length, sent.head.length⟩ next =
          ({ decoder with sequence := next }, .ok (.frame frame sent.wire.length)) := by
        have total : sent.head.length + sent.payload.length = sent.wire.length :=
          List.length_append.symm
        unfold held
        rw [checkLen_valid valid]
        dsimp only
        rw [total, if_neg (by rw [List.length_append]; omega), List.take_left]
        unfold Sent.wire
        rw [List.drop_left, read]
      split
      · rename_i none_
        refine .inr ⟨frame, .frame known data (fun limit bounded => ?_) read, whole⟩
        rw [none_] at bounded
        cases bounded
      · rename_i limit bounded
        have some_ : ¬ (sent.frameType = FrameType.pushPromise ∧ sent.payload.length = 0) := by
          rintro ⟨type, empty⟩
          rw [List.eq_nil_of_length_eq_zero empty, type] at read
          cases read
        rw [if_neg some_]
        by_cases long : limit < sent.payload.length
        · rw [if_pos long]
          exact .inl ⟨false, _, _, .oversized bounded long, rfl, .oversized bounded long, rfl⟩
        · rw [if_neg long]
          refine .inr ⟨frame, .frame known data (fun other same => ?_) read, whole⟩
          obtain rfl : limit = other := Option.some.inj (bounded.symm.trans same)
          exact Nat.le_of_not_lt long

theorem frame_refused (valid : sent.Valid decoder.limits)
    (checked : decoder.check sent.frameType = .error refused) (more : Bytes) :
    decoder.frame (sent.wire ++ more) = (decoder, .error refused) := by
  unfold FrameDecoder.frame
  rw [valid.parse_wire]
  dsimp only
  rw [checked]

theorem Reader.opened_silent (silent : caller reader.frames .header = []) (event : Event) :
    reader.opened caller event = { reader with events := reader.events ++ [event] } := by
  unfold Reader.opened Reader.call
  dsimp only
  rw [silent]
  rfl

/-- A valid frame the decoder does not refuse is read whole, and its calls are made. -/
theorem run_sent (silent : ∀ number, caller number .header = [])
    (outside : reader.decoder.state = .header) (valid : sent.Valid reader.decoder.limits)
    (checked : reader.decoder.check sent.frameType = .ok next) (more : Bytes) :
    ∃ event, sent.Shown reader.decoder.limits event ∧
      (Reader.machine caller).run reader (sent.wire ++ more) =
      (Reader.machine caller).run
        { reader with
          decoder := (caller reader.frames .whole).foldl Call.apply
            { reader.decoder with sequence := next }
          frames := reader.frames + 1
          events := reader.events ++ [event] } more := by
  rcases frame_sent valid checked more with
    ⟨data, step, event, opens, opening, shown, framed⟩ | ⟨frame, shown, framed⟩
  · have used : step.consumed = sent.head.length := opens.consumed
    have opened : reader.step caller (sent.wire ++ more) = .advance
        { reader with
          decoder := { reader.decoder with
            sequence := next, state := streamed data sent.payload.length }
          events := reader.events ++ [event] } sent.head.length := by
      unfold Reader.step
      rw [decode_header outside, framed, ← used]
      generalize streamed data sent.payload.length = state at opens
      cases opens with
      | data _ =>
        cases opening
        unfold Reader.observe
        dsimp only
        rw [if_pos outside, Reader.opened_silent (silent _)]
      | skipped _ =>
        cases opening
        unfold Reader.observe
        dsimp only
        rw [Reader.opened_silent (silent _)]
      | oversized _ _ =>
        cases opening
        unfold Reader.observe
        dsimp only
        rw [Reader.opened_silent (silent _)]
    have first : (Reader.machine caller).step reader (sent.wire ++ more) = _ := opened
    have input : (sent.wire ++ more).drop sent.head.length = sent.payload ++ more := by
      unfold Sent.wire
      rw [List.append_assoc, List.drop_left]
    have all : min sent.payload.length (sent.payload ++ more).length = sent.payload.length := by
      rw [List.length_append]
      omega
    have some_ : ¬ (0 < sent.payload.length ∧ sent.payload ++ more = []) := by
      rintro ⟨long, empty⟩
      rw [(List.append_eq_nil_iff.mp empty).1] at long
      exact Nat.lt_irrefl 0 long
    rw [Machine.run_eq, first]
    dsimp only
    rw [input, Machine.run_eq]
    have second := @Reader.step_streamed caller
      { reader with
        decoder := { reader.decoder with
          sequence := next, state := streamed data sent.payload.length }
        events := reader.events ++ [event] } data sent.payload.length rfl (sent.payload ++ more)
    rw [if_neg some_, all, Nat.sub_self, List.take_left, decide_eq_true rfl] at second
    change (Reader.machine caller).step _ _ = _ at second
    rw [second]
    dsimp only
    rw [List.drop_left]
    unfold Reader.extended Reader.whole Reader.call behind
    rw [if_pos rfl, if_pos rfl, ← outside]
    refine ⟨_, shown, ?_⟩
    dsimp only
    rw [List.dropLast_concat, List.getLast?_concat]
    rfl
  · have first : (Reader.machine caller).step reader (sent.wire ++ more) =
        .advance (({ reader with
          decoder := { reader.decoder with sequence := next }
          events := reader.events ++ [.frame frame] } : Reader).whole caller) sent.wire.length := by
      change reader.step caller _ = _
      unfold Reader.step
      rw [decode_header outside, framed]
      rfl
    rw [Machine.run_eq, first]
    dsimp only
    rw [List.drop_left]
    exact ⟨_, shown, rfl⟩

/-- A valid frame the decoder refuses ends the run. -/
theorem run_refused (outside : reader.decoder.state = .header)
    (valid : sent.Valid reader.decoder.limits)
    (checked : reader.decoder.check sent.frameType = .error refused) (more : Bytes) :
    (Reader.machine caller).run reader (sent.wire ++ more) =
      ⟨{ reader with failure := some refused }, none⟩ := by
  have first : (Reader.machine caller).step reader (sent.wire ++ more) =
      .fail { reader with failure := some refused } := by
    change reader.step caller _ = _
    unfold Reader.step
    rw [decode_header outside, frame_refused valid checked]
  rw [Machine.run_eq, first]

/-- Reading valid frames is following the automaton over what happens on the stream. -/
theorem run_wire {caller : Caller} (silent : ∀ number, caller number .header = [])
    {limits : FrameLimits} (frames : List Sent) (valid : ∀ sent ∈ frames, sent.Valid limits)
    {reader : Reader} (outside : reader.decoder.state = .header)
    (limited : reader.decoder.limits = limits) (fresh : reader.failure = none)
    (calls : ∀ place, caller (reader.frames + place) .whole =
      (frames[place]?.map Sent.calls).getD []) :
    let halt := (Reader.machine caller).run reader (wire frames)
    match follow (nextSequence reader.decoder.kind reader.decoder.role) reader.decoder.sequence
      (tokens frames) with
    | none => halt.state.failure ≠ none
    | some behind => halt.rest = some [] ∧ halt.state.failure = none ∧
        halt.state.decoder = { reader.decoder with sequence := behind } ∧
        ∃ shown, List.Forall₂ (Sent.Shown limits) frames shown ∧
          halt.state.events = reader.events ++ shown := by
  induction frames generalizing reader with
  | nil =>
    have waits : (Reader.machine caller).step reader [] = .wait := by
      change reader.step caller [] = _
      unfold Reader.step
      rw [decode_header outside]
      rfl
    have ran : (Reader.machine caller).run reader (wire []) = ⟨reader, some []⟩ := by
      rw [Machine.run_eq, show (Reader.machine caller).step reader (wire []) = .wait from waits]
      rfl
    dsimp only
    rw [ran]
    exact ⟨rfl, fresh, rfl, [], .nil, (List.append_nil _).symm⟩
  | cons sent rest inductionHypothesis =>
    have validSent := valid sent List.mem_cons_self
    rw [← limited] at validSent
    have split_ : wire (sent :: rest) = sent.wire ++ wire rest := rfl
    have happens : tokens (sent :: rest) =
        .frame sent.frameType :: (sent.calls.map .call ++ tokens rest) := rfl
    dsimp only
    rw [split_, happens]
    have step := check_eq reader.decoder sent.frameType
    rcases checked : reader.decoder.check sent.frameType with refused | next
    · rw [checked] at step
      rw [follow_cons_none step.symm, run_refused outside validSent checked]
      exact nofun
    · rw [checked] at step
      obtain ⟨event, shown, ran⟩ := run_sent silent outside validSent checked (wire rest)
      have own := calls 0
      rw [Nat.add_zero, List.getElem?_cons_zero] at own
      change caller reader.frames .whole = sent.calls at own
      rw [own] at ran
      obtain ⟨followed, same⟩ :=
        follow_calls { reader.decoder with sequence := next } sent.calls (tokens rest)
      dsimp only at followed
      rw [follow_cons step.symm, followed, ran]
      generalize sent.calls.foldl Call.apply { reader.decoder with sequence := next } = after
        at same
      dsimp only at same
      have counted : ∀ place, caller (reader.frames + 1 + place) .whole =
          (rest[place]?.map Sent.calls).getD [] := by
        intro place
        have later := calls (place + 1)
        rw [List.getElem?_cons_succ, Nat.add_comm place 1, ← Nat.add_assoc] at later
        exact later
      have later := @inductionHypothesis
        (fun sent member => valid sent (List.mem_cons_of_mem _ member))
        ⟨after, reader.frames + 1, reader.events ++ [event], reader.failure⟩ (by rw [same]; exact outside)
        (by rw [same]; exact limited) fresh counted
      dsimp only at later
      have kind : after.kind = reader.decoder.kind := by rw [same]
      have role : after.role = reader.decoder.role := by rw [same]
      have limits : after.limits = reader.decoder.limits := by rw [same]
      have state : after.state = reader.decoder.state := by rw [same]
      rw [kind, role, limits, state] at later
      revert later
      rcases follow (nextSequence reader.decoder.kind reader.decoder.role) after.sequence
        (tokens rest) with _ | sequence
      · exact id
      · rintro ⟨left, failure, decoder, others, all, events⟩
        rw [List.append_assoc] at events
        exact ⟨left, failure, decoder, event :: others, .cons (limited ▸ shown) all, events⟩

/-- The sequence state a stream starts in. -/
def initialSequence (kind : StreamKind) : Sequence :=
  match kind with
  | .control => .awaitSettings
  | .request | .push => .start

section Streams

variable {kind : StreamKind} {role : Role} {limits : FrameLimits} {frames : List Sent}

theorem readAll_spec (valid : ∀ sent ∈ frames, sent.Valid limits) :
    match follow (nextSequence kind role) (initialSequence kind) (tokens frames) with
    | none => (readAll kind role limits frames).state.failure ≠ none
    | some behind => (readAll kind role limits frames).rest = some [] ∧
        (readAll kind role limits frames).state.failure = none ∧
        (readAll kind role limits frames).state.decoder =
          { FrameDecoder.new kind role limits with sequence := behind } ∧
        List.Forall₂ (Sent.Shown limits) frames
          (readAll kind role limits frames).state.events := by
  have ran := @run_wire (callsBehind frames) (fun _ => rfl) limits frames valid
    (.new kind role limits) rfl rfl rfl fun place => by
      change ((frames[0 + place]?).map Sent.calls).getD [] = _
      rw [Nat.zero_add]
  have start : follow (nextSequence (Reader.new kind role limits).decoder.kind
        (Reader.new kind role limits).decoder.role)
      (Reader.new kind role limits).decoder.sequence (tokens frames) =
        follow (nextSequence kind role) (initialSequence kind) (tokens frames) := rfl
  rw [start] at ran
  rcases followed : follow (nextSequence kind role) (initialSequence kind) (tokens frames) with
    _ | sequence
  · rw [followed] at ran
    exact ran
  · rw [followed] at ran
    obtain ⟨left, failure, decoder, shown, all, events⟩ := ran
    exact ⟨left, failure, decoder, events ▸ all⟩

theorem undisturbed_iff (valid : ∀ sent ∈ frames, sent.Valid limits) :
    Undisturbed kind role limits frames ↔ ∃ sequence,
      follow (nextSequence kind role) (initialSequence kind) (tokens frames) = some sequence := by
  have spec := @readAll_spec kind role limits frames valid
  unfold Undisturbed
  revert spec
  rcases follow (nextSequence kind role) (initialSequence kind) (tokens frames) with _ | sequence
  · intro spec
    exact iff_of_false (fun undisturbed => spec undisturbed.1) nofun
  · intro spec
    obtain ⟨rest, failure, decoder, -⟩ := spec
    refine iff_of_true ⟨failure, rest, ?_⟩ ⟨sequence, rfl⟩
    rw [decoder]
    rfl

theorem accepted_iff (valid : ∀ sent ∈ frames, sent.Valid limits) (message : kind ≠ .control) :
    Accepted kind role limits frames ↔ ∃ sequence,
      follow (nextSequence kind role) (initialSequence kind) (tokens frames) = some sequence ∧
        (kind = .request → role = .server → sequence ≠ .start) := by
  have spec := @readAll_spec kind role limits frames valid
  unfold Accepted
  rw [undisturbed_iff valid]
  revert spec
  rcases follow (nextSequence kind role) (initialSequence kind) (tokens frames) with _ | sequence
  · intro spec
    refine iff_of_false (fun both => ?_) nofun
    obtain ⟨_, none_⟩ := both.1
    cases none_
  · intro spec
    obtain ⟨rest, failure, decoder, -⟩ := spec
    rw [decoder]
    have finished : ({ FrameDecoder.new kind role limits with sequence := sequence } :
        FrameDecoder).finish [] =
          if kind = .request ∧ role = .server ∧ sequence = .start then .error .requestIncomplete
          else .ok () := by
      unfold finish
      exact if_neg message
    rw [finished]
    constructor
    · rintro ⟨-, ended⟩
      refine ⟨sequence, rfl, fun request server start => ?_⟩
      rw [if_pos ⟨request, server, start⟩] at ended
      cases ended
    · rintro ⟨same, found, clean⟩
      cases found
      exact ⟨⟨_, rfl⟩, if_neg fun all => clean all.1 all.2.1 all.2.2⟩

end Streams

/-! ### The languages -/

variable {types : List FrameType} {word : List Token}

theorem isReserved_cases (reserved : FrameType.isReservedHttp2 frameType = true) :
    frameType = 0x02 ∨ frameType = 0x06 ∨ frameType = 0x08 ∨ frameType = 0x09 := by
  unfold FrameType.isReservedHttp2 at reserved
  split at reserved
  any_goals decide
  cases reserved

/-- A type reserved from HTTP/2 is refused in every state. -/
theorem next_reserved (kind : StreamKind) (role : Role) (sequence : Sequence)
    (reserved : FrameType.isReservedHttp2 frameType = true) :
    nextSequence kind role sequence (.frame frameType) = none := by
  rcases isReserved_cases reserved with rfl | rfl | rfl | rfl
  all_goals cases sequence <;> rfl

/-- A type that is neither known nor reserved from HTTP/2. -/
def unknown (frameType : FrameType) : Bool :=
  !FrameType.isKnown frameType && !FrameType.isReservedHttp2 frameType

theorem next_unknown (kind : StreamKind) (role : Role) {sequence : Sequence}
    (settled : sequence ≠ .awaitSettings) {frameType : FrameType}
    (skipped : unknown frameType = true) :
    nextSequence kind role sequence (.frame frameType) = some sequence := by
  unfold unknown at skipped
  obtain ⟨foreign, free⟩ := Bool.and_eq_true_iff.mp skipped
  unfold nextSequence check
  dsimp only
  rw [if_neg fun both => settled both.1, if_neg (by simpa using free), if_pos foreign]
  rfl

/-- The frame types among what happens on a stream. -/
def frameTypes (word : List Token) : List FrameType :=
  word.filterMap fun
    | .frame frameType => some frameType
    | .call _ => none

/-- DATA frames, then at most one HEADERS frame. -/
def Trailed (types : List FrameType) : Prop :=
  ∃ count, types = List.replicate count FrameType.data ∨
    types = List.replicate count FrameType.data ++ [FrameType.headers]

/-- HEADERS, then DATA frames, then at most one HEADERS frame. -/
def RequestMessage (types : List FrameType) : Prop :=
  ∃ rest, types = FrameType.headers :: rest ∧ Trailed rest

/-- What may follow a HEADERS frame of a response: more of them, until the first DATA frame or the
call that marks the final response. -/
def ResponseBehind (word : List Token) : Prop :=
  ∃ count, word = List.replicate count (.frame FrameType.headers) ∨ ∃ rest,
    Trailed (frameTypes rest) ∧
      (word = List.replicate count (.frame FrameType.headers) ++ .frame FrameType.data :: rest ∨
        word = List.replicate count (.frame FrameType.headers) ++ .call .finalResponse :: rest)

/-- Responses: any number of HEADERS frames before DATA, then DATA frames and at most one HEADERS
frame behind DATA or behind the HEADERS frame marked as the final response. A mark before any
HEADERS frame says nothing. -/
def ResponseMessage (word : List Token) : Prop :=
  ∃ early, frameTypes early = [] ∧ (word = early ∨ ∃ rest,
    word = early ++ .frame FrameType.headers :: rest ∧ ResponseBehind rest)

theorem trailed_data : Trailed (FrameType.data :: types) ↔ Trailed types := by
  constructor
  · rintro ⟨count, same | same⟩
    · cases count with
      | zero => cases same
      | succ count => exact ⟨count, .inl (List.cons.inj same).2⟩
    · cases count with
      | zero => cases same
      | succ count => exact ⟨count, .inr (List.cons.inj same).2⟩
  · rintro ⟨count, same | same⟩
    · exact ⟨count + 1, .inl (by rw [same]; rfl)⟩
    · exact ⟨count + 1, .inr (by rw [same]; rfl)⟩

theorem trailed_headers : Trailed (FrameType.headers :: types) ↔ types = [] := by
  constructor
  · rintro ⟨count, same | same⟩
    · cases count <;> cases same
    · cases count with
      | zero => exact (List.cons.inj same).2
      | succ count => cases same
  · rintro rfl
    exact ⟨0, .inr rfl⟩

theorem not_trailed (headers : frameType ≠ FrameType.headers) (data : frameType ≠ FrameType.data) :
    ¬ Trailed (frameType :: types) := by
  rintro ⟨count, same | same⟩
  · cases count with
    | zero => cases same
    | succ count => exact data (List.cons.inj same).1
  · cases count with
    | zero => exact headers (List.cons.inj same).1
    | succ count => exact data (List.cons.inj same).1

theorem trailed_nil : Trailed [] := ⟨0, .inl rfl⟩

theorem responseBehind_nil : ResponseBehind [] := ⟨0, .inl rfl⟩

theorem responseBehind_headers :
    ResponseBehind (.frame FrameType.headers :: word) ↔ ResponseBehind word := by
  constructor
  · rintro ⟨count, same | ⟨rest, trailed, same | same⟩⟩
    all_goals
      cases count with
      | zero => cases same
      | succ count =>
        have inner := (List.cons.inj same).2
        first
        | exact ⟨count, .inl inner⟩
        | exact ⟨count, .inr ⟨rest, trailed, .inl inner⟩⟩
        | exact ⟨count, .inr ⟨rest, trailed, .inr inner⟩⟩
  · rintro ⟨count, same | ⟨rest, trailed, same | same⟩⟩
    · exact ⟨count + 1, .inl (by rw [same]; rfl)⟩
    · exact ⟨count + 1, .inr ⟨rest, trailed, .inl (by rw [same]; rfl)⟩⟩
    · exact ⟨count + 1, .inr ⟨rest, trailed, .inr (by rw [same]; rfl)⟩⟩

/-- Behind interim responses anything but HEADERS ends them. -/
theorem responseBehind_other {token : Token} {word : List Token}
    (other : token ≠ .frame FrameType.headers) :
    ResponseBehind (token :: word) ↔
      (token = .frame FrameType.data ∨ token = .call .finalResponse) ∧
        Trailed (frameTypes word) := by
  constructor
  · rintro ⟨count, same⟩
    cases count with
    | zero =>
      rcases same with same | ⟨rest, trailed, same | same⟩
      · cases same
      · cases same
        exact ⟨.inl rfl, trailed⟩
      · cases same
        exact ⟨.inr rfl, trailed⟩
    | succ count =>
      rcases same with same | ⟨rest, trailed, same | same⟩
      all_goals exact absurd (List.cons.inj same).1 other
  · rintro ⟨rfl | rfl, trailed⟩
    · exact ⟨0, .inr ⟨word, trailed, .inl rfl⟩⟩
    · exact ⟨0, .inr ⟨word, trailed, .inr rfl⟩⟩

theorem responseMessage_call {call : Call} :
    ResponseMessage (.call call :: word) ↔ ResponseMessage word := by
  constructor
  · rintro ⟨early, silent, same | ⟨rest, same, behind⟩⟩
    · rw [← same] at silent
      exact ⟨word, silent, .inl rfl⟩
    · cases early with
      | nil => cases same
      | cons first early =>
        obtain ⟨rfl, inner⟩ := List.cons.inj same
        exact ⟨early, silent, .inr ⟨rest, inner, behind⟩⟩
  · rintro ⟨early, silent, same | ⟨rest, same, behind⟩⟩
    · exact ⟨.call call :: early, silent, .inl (by rw [same])⟩
    · exact ⟨.call call :: early, silent, .inr ⟨rest, by rw [same]; rfl, behind⟩⟩

theorem responseMessage_headers :
    ResponseMessage (.frame FrameType.headers :: word) ↔ ResponseBehind word := by
  constructor
  · rintro ⟨early, silent, same | ⟨rest, same, behind⟩⟩
    · rw [← same] at silent
      cases silent
    · cases early with
      | nil =>
        rw [(List.cons.inj same).2]
        exact behind
      | cons first early =>
        obtain ⟨rfl, -⟩ := List.cons.inj same
        cases silent
  · exact fun behind => ⟨[], rfl, .inr ⟨word, rfl, behind⟩⟩

theorem not_responseMessage (other : frameType ≠ FrameType.headers) :
    ¬ ResponseMessage (.frame frameType :: word) := by
  rintro ⟨early, silent, same | ⟨rest, same, behind⟩⟩
  · rw [← same] at silent
    cases silent
  · cases early with
    | nil => exact other (Token.frame.inj (List.cons.inj same).1)
    | cons first early =>
      obtain ⟨rfl, -⟩ := List.cons.inj same
      cases silent

theorem responseMessage_nil : ResponseMessage [] := ⟨[], rfl, .inl rfl⟩

/-- What is left of a message in each state of it. A request has to be there unless `blank`. -/
def messageLanguage (role : Role) (blank : Bool) (sequence : Sequence) (word : List Token) : Prop :=
  match sequence with
  | .start =>
    match role with
    | .server => (blank = true ∧ frameTypes word = []) ∨ RequestMessage (frameTypes word)
    | .client => ResponseMessage word
  | .interim => ResponseBehind word
  | .header | .body => Trailed (frameTypes word)
  | .trailers => frameTypes word = []
  | .awaitSettings | .control | .tunnel => False

/-- The states of a message. -/
def InMessage (sequence : Sequence) : Prop :=
  sequence ≠ .awaitSettings ∧ sequence ≠ .control ∧ sequence ≠ .tunnel

@[elab_as_elim]
theorem InMessage.cases {motive : (sequence : Sequence) → InMessage sequence → Prop}
    (start : motive .start ⟨nofun, nofun, nofun⟩) (interim : motive .interim ⟨nofun, nofun, nofun⟩)
    (header : motive .header ⟨nofun, nofun, nofun⟩) (body : motive .body ⟨nofun, nofun, nofun⟩)
    (trailers : motive .trailers ⟨nofun, nofun, nofun⟩) (sequence : Sequence)
    (inside : InMessage sequence) : motive sequence inside := by
  cases sequence with
  | awaitSettings => exact absurd rfl inside.1
  | control => exact absurd rfl inside.2.1
  | tunnel => exact absurd rfl inside.2.2
  | start => exact start
  | interim => exact interim
  | header => exact header
  | body => exact body
  | trailers => exact trailers

/-- The types a stream of messages lets pass in every state. -/
def passing (kind : StreamKind) (role : Role) (frameType : FrameType) : Bool :=
  unknown frameType ||
    (kind = .request && role = .client && frameType = FrameType.pushPromise)

/-- The tokens of a message that matter: no type that passes, and no tunnel. -/
def OfMessage (kind : StreamKind) (role : Role) : Token → Prop
  | .frame frameType => passing kind role frameType = false
  | .call call => call = .finalResponse

section Messages

variable {kind : StreamKind} {role : Role}

/-- What HEADERS lead to. -/
def behindHeaders (role : Role) : Sequence → Option Sequence
  | .start => some (match role with
    | .server => .header
    | .client => .interim)
  | .interim => some .interim
  | .header | .body => some .trailers
  | _ => none

/-- What DATA leads to. -/
def behindData : Sequence → Option Sequence
  | .interim | .header | .body => some .body
  | _ => none

variable {sequence : Sequence}

theorem next_message (message : kind ≠ .control) (inside : InMessage sequence)
    (matters : passing kind role frameType = false) :
    nextSequence kind role sequence (.frame frameType) =
      if frameType = FrameType.headers then behindHeaders role sequence
      else if frameType = FrameType.data then behindData sequence
      else none := by
  obtain ⟨strange, promised⟩ := Bool.or_eq_false_iff.mp matters
  unfold unknown at strange
  rcases reserved : FrameType.isReservedHttp2 frameType with _ | _
  · have known : FrameType.isKnown frameType = true := by
      rw [reserved] at strange
      simpa using strange
    rcases FrameType.isKnown_cases known with rfl | rfl | rfl | rfl | rfl | rfl | rfl
    all_goals
      cases kind with
      | control => exact absurd rfl message
      | _ =>
        cases role
        all_goals
          cases sequence, inside using InMessage.cases
          all_goals first
            | rfl
            | exact absurd promised (by decide)
  · rw [next_reserved kind role sequence reserved]
    rcases isReserved_cases reserved with rfl | rfl | rfl | rfl
    all_goals rfl

theorem next_finalResponse (sequence : Sequence) :
    nextSequence kind role sequence (.call .finalResponse) =
      some (if sequence = .interim then .header else sequence) := by
  cases sequence <;> rfl

/-- The messages a stream takes are those of the language. -/
theorem follow_message (message : kind ≠ .control) (blank : Bool)
    (matters : ∀ token ∈ word, OfMessage kind role token) :
    (∃ after, follow (nextSequence kind role) .start word = some after ∧
        ¬ (role = .server ∧ blank = false ∧ after = .start)) ↔
      messageLanguage role blank .start word := by
  refine @follow_language _ _ (nextSequence kind role) InMessage
    (fun after => ¬ (role = .server ∧ blank = false ∧ after = .start)) (OfMessage kind role)
    (messageLanguage role blank) ?_ ?_ ?_ .start ⟨nofun, nofun, nofun⟩ word matters
  · intro sequence token after inside matters taken
    cases token with
    | frame frameType =>
      rw [next_message message inside matters] at taken
      split at taken
      · cases sequence <;> cases role <;> cases taken <;> exact ⟨nofun, nofun, nofun⟩
      · split at taken
        · cases sequence <;> cases taken <;> exact ⟨nofun, nofun, nofun⟩
        · cases taken
    | call call =>
      cases matters
      rw [next_finalResponse] at taken
      split at taken
      · cases taken
        exact ⟨nofun, nofun, nofun⟩
      · cases taken
        exact inside
  · intro sequence inside
    cases sequence, inside using InMessage.cases with
    | start =>
      cases role with
      | server =>
        cases blank with
        | true => exact iff_of_true (.inl ⟨rfl, rfl⟩) fun both => nomatch both.2.1
        | false =>
          refine iff_of_false ?_ fun clean => clean ⟨rfl, rfl, rfl⟩
          rintro (⟨wrong, -⟩ | ⟨rest, wrong, -⟩)
          · cases wrong
          · cases wrong
      | client => exact iff_of_true responseMessage_nil fun both => nomatch both.1
    | interim => exact iff_of_true responseBehind_nil fun both => nomatch both.2.2
    | header => exact iff_of_true trailed_nil fun both => nomatch both.2.2
    | body => exact iff_of_true trailed_nil fun both => nomatch both.2.2
    | trailers => exact iff_of_true rfl fun both => nomatch both.2.2
  · intro sequence token rest inside matters
    cases token with
    | call call =>
      cases matters
      have taken := @next_finalResponse kind role sequence
      rw [exists_taken taken]
      cases sequence, inside using InMessage.cases with
      | start =>
        cases role with
        | server => exact Iff.rfl
        | client => exact responseMessage_call
      | interim =>
        exact (@responseBehind_other (.call .finalResponse) rest nofun).trans
          (and_iff_right (.inr rfl))
      | header => exact Iff.rfl
      | body => exact Iff.rfl
      | trailers => exact Iff.rfl
    | frame frameType =>
      have taken := next_message message inside matters
      by_cases headers : frameType = FrameType.headers
      · rw [if_pos headers] at taken
        subst headers
        cases sequence, inside using InMessage.cases with
        | start =>
          rw [exists_taken taken]
          cases role with
          | server =>
            constructor
            · rintro (⟨-, wrong⟩ | ⟨types, same, trailed⟩)
              · cases wrong
              · cases same
                exact trailed
            · exact fun trailed => .inr ⟨_, rfl, trailed⟩
          | client => exact responseMessage_headers
        | interim => rw [exists_taken taken]; exact responseBehind_headers
        | header => rw [exists_taken taken]; exact trailed_headers
        | body => rw [exists_taken taken]; exact trailed_headers
        | trailers => exact iff_of_false nofun (not_exists_taken taken)
      · have noHeaders : Token.frame frameType ≠ .frame FrameType.headers := fun same =>
          headers (Token.frame.inj same)
        rw [if_neg headers] at taken
        by_cases data : frameType = FrameType.data
        · rw [if_pos data] at taken
          subst data
          cases sequence, inside using InMessage.cases with
          | start =>
            refine iff_of_false ?_ (not_exists_taken taken)
            cases role with
            | server =>
              rintro (⟨-, wrong⟩ | ⟨types, same, -⟩)
              · cases wrong
              · cases same
            | client => exact not_responseMessage headers
          | interim =>
            rw [exists_taken taken]
            exact (responseBehind_other noHeaders).trans (and_iff_right (.inl rfl))
          | header => rw [exists_taken taken]; exact trailed_data
          | body => rw [exists_taken taken]; exact trailed_data
          | trailers => exact iff_of_false nofun (not_exists_taken taken)
        · rw [if_neg data] at taken
          refine iff_of_false ?_ (not_exists_taken taken)
          cases sequence with
          | awaitSettings => exact id
          | control => exact id
          | tunnel => exact id
          | start =>
            cases role with
            | server =>
              rintro (⟨-, wrong⟩ | ⟨types, same, -⟩)
              · cases wrong
              · exact headers (List.cons.inj same).1
            | client => exact not_responseMessage headers
          | interim =>
            rw [show messageLanguage role blank .interim _ = ResponseBehind _ from rfl,
              responseBehind_other noHeaders]
            rintro ⟨same | same, -⟩
            · exact data (Token.frame.inj same)
            · cases same
          | header => exact not_trailed headers data
          | body => exact not_trailed headers data
          | trailers => exact nofun

def mattering (kind : StreamKind) (role : Role) : Token → Bool
  | .frame frameType => !passing kind role frameType
  | .call _ => true

/-- The tokens of a stream that matter to its messages. -/
def significant (kind : StreamKind) (role : Role) (word : List Token) : List Token :=
  word.filter (mattering kind role)

/-- A type that passes leaves a message where it is. -/
theorem next_passing (message : kind ≠ .control) (inside : InMessage sequence)
    (passes : passing kind role frameType = true) :
    nextSequence kind role sequence (.frame frameType) = some sequence := by
  rcases Bool.or_eq_true_iff.mp passes with skipped | promised
  · exact next_unknown kind role inside.1 skipped
  · obtain ⟨⟨rfl, rfl⟩, rfl⟩ : (kind = .request ∧ role = .client) ∧
        frameType = FrameType.pushPromise := by simpa using promised
    cases sequence, inside using InMessage.cases
    all_goals rfl

variable {after : Sequence} {token : Token}

theorem next_inMessage (message : kind ≠ .control) (inside : InMessage sequence)
    (plain : token ≠ .call .tunnel) (taken : nextSequence kind role sequence token = some after) :
    InMessage after := by
  cases token with
  | call call =>
    cases call with
    | tunnel => exact absurd rfl plain
    | finalResponse =>
      rw [next_finalResponse] at taken
      split at taken
      · cases taken
        exact ⟨nofun, nofun, nofun⟩
      · cases taken
        exact inside
  | frame frameType =>
    rcases passes : passing kind role frameType with _ | _
    · rw [next_message message inside passes] at taken
      split at taken
      · cases sequence <;> cases role <;> cases taken <;> exact ⟨nofun, nofun, nofun⟩
      · split at taken
        · cases sequence <;> cases taken <;> exact ⟨nofun, nofun, nofun⟩
        · cases taken
    · rw [next_passing message inside passes] at taken
      cases taken
      exact inside

/-- Without a tunnel a stream takes the messages of the language, whatever passes between them. -/
theorem follow_plain (message : kind ≠ .control) (blank : Bool) (plain : .call .tunnel ∉ word) :
    (∃ after, follow (nextSequence kind role) .start word = some after ∧
        ¬ (role = .server ∧ blank = false ∧ after = .start)) ↔
      messageLanguage role blank .start (significant kind role word) := by
  have kept : ∀ sequence token after, InMessage sequence → token ∈ word →
      nextSequence kind role sequence token = some after → InMessage after := by
    intro sequence token after inside member taken
    refine next_inMessage message inside (fun same => plain ?_) taken
    rw [← same]
    exact member
  have idle : ∀ sequence token, InMessage sequence → token ∈ word →
      mattering kind role token = false →
      nextSequence kind role sequence token = some sequence := by
    intro sequence token inside _ dropped
    cases token with
    | frame frameType => exact next_passing message inside ((Bool.not_eq_false' _).mp dropped)
    | call _ => cases dropped
  rw [@follow_filter _ _ (nextSequence kind role) InMessage (mattering kind role) word kept idle
    .start ⟨nofun, nofun, nofun⟩]
  refine follow_message message blank fun token member => ?_
  obtain ⟨inWord, matters⟩ := List.mem_filter.mp member
  cases token with
  | frame frameType => exact (Bool.not_eq_true' _).mp matters
  | call call =>
    cases call with
    | tunnel => exact absurd inWord plain
    | finalResponse => rfl

theorem next_tunnel_call (message : kind ≠ .control) (call : Call) :
    nextSequence kind role .tunnel (.call call) = some .tunnel := by
  cases kind with
  | control => exact absurd rfl message
  | _ => cases call <;> rfl

theorem next_tunnel_frame (message : kind ≠ .control) (frameType : FrameType) :
    nextSequence kind role .tunnel (.frame frameType) =
      if unknown frameType = true ∨ frameType = FrameType.data then some .tunnel else none := by
  by_cases skipped : unknown frameType = true
  · rw [if_pos (.inl skipped)]
    exact @next_unknown kind role .tunnel nofun _ skipped
  · rcases reserved : FrameType.isReservedHttp2 frameType with _ | _
    · have known : FrameType.isKnown frameType = true := by
        unfold unknown at skipped
        rw [reserved] at skipped
        simpa using skipped
      rcases FrameType.isKnown_cases known with rfl | rfl | rfl | rfl | rfl | rfl | rfl
      all_goals
        cases kind with
        | control => exact absurd rfl message
        | _ => cases role <;> rfl
    · rw [next_reserved kind role .tunnel reserved]
      rcases isReserved_cases reserved with rfl | rfl | rfl | rfl
      all_goals rfl

theorem next_tunnel (message : kind ≠ .control)
    (taken : nextSequence kind role .tunnel token = some after) : after = .tunnel := by
  cases token with
  | call call =>
    rw [next_tunnel_call message] at taken
    exact (Option.some_inj.mp taken).symm
  | frame frameType =>
    rw [next_tunnel_frame message] at taken
    split at taken
    · exact (Option.some_inj.mp taken).symm
    · cases taken

/-- In a tunnel only DATA and unknown types are taken. -/
theorem follow_tunnel (message : kind ≠ .control) (word : List Token) :
    (∃ after, follow (nextSequence kind role) .tunnel word = some after ∧ after ≠ .start) ↔
      ∀ frameType ∈ frameTypes word, unknown frameType = true ∨ frameType = FrameType.data := by
  refine @follow_language _ _ (nextSequence kind role) (· = .tunnel) (· ≠ .start) (fun _ => True)
    (fun _ word => ∀ frameType ∈ frameTypes word,
      unknown frameType = true ∨ frameType = FrameType.data) ?_ ?_ ?_ .tunnel rfl word
    fun _ _ => trivial
  · rintro _ token after rfl - taken
    exact next_tunnel message taken
  · rintro _ rfl
    exact iff_of_true nofun nofun
  · rintro _ token rest rfl -
    cases token with
    | call call =>
      rw [exists_taken (next_tunnel_call message call)]
      exact Iff.rfl
    | frame frameType =>
      have taken := @next_tunnel_frame kind role message frameType
      by_cases fits : unknown frameType = true ∨ frameType = FrameType.data
      · rw [if_pos fits] at taken
        rw [exists_taken taken]
        exact List.forall_mem_cons.trans (and_iff_right fits)
      · rw [if_neg fits] at taken
        exact iff_of_false (fun all => fits (all frameType List.mem_cons_self))
          (not_exists_taken taken)

theorem next_opened (message : kind ≠ .control) (sequence : Sequence) :
    nextSequence kind role sequence (.call .tunnel) = some .tunnel := by
  cases kind with
  | control => exact absurd rfl message
  | _ => rfl

/-- A stream with a tunnel: a message so far, then DATA. -/
theorem follow_tunnelled (message : kind ≠ .control) {before behind : List Token}
    (plain : .call .tunnel ∉ before) :
    (∃ after, follow (nextSequence kind role) .start (before ++ .call .tunnel :: behind) =
        some after ∧ after ≠ .start) ↔
      messageLanguage role true .start (significant kind role before) ∧
        ∀ frameType ∈ frameTypes behind, unknown frameType = true ∨ frameType = FrameType.data := by
  rw [← follow_tunnel message behind, ← follow_plain message true plain, follow_append]
  rcases follow (nextSequence kind role) .start before with _ | sequence
  · exact iff_of_false nofun nofun
  · rw [Option.bind_some, follow_cons (next_opened message sequence)]
    exact ⟨fun taken => ⟨⟨sequence, rfl, fun both => nomatch both.2.1⟩, taken⟩, fun both => both.2⟩

/-- The types a control stream takes behind its settings. -/
def OfControl (role : Role) (frameType : FrameType) : Prop :=
  unknown frameType = true ∨ frameType = FrameType.cancelPush ∨ frameType = FrameType.goaway ∨
    (frameType = FrameType.maxPushId ∧ role = .server)

/-- What is left of a control stream. -/
def controlLanguage (role : Role) (sequence : Sequence) (word : List Token) : Prop :=
  match sequence with
  | .awaitSettings => frameTypes word = [] ∨ ∃ rest,
      frameTypes word = FrameType.settings :: rest ∧ ∀ frameType ∈ rest, OfControl role frameType
  | _ => ∀ frameType ∈ frameTypes word, OfControl role frameType

theorem next_control (role : Role) (frameType : FrameType) :
    (OfControl role frameType → nextSequence .control role .control (.frame frameType) =
      some .control) ∧
    (¬ OfControl role frameType → nextSequence .control role .control (.frame frameType) = none) := by
  unfold OfControl
  by_cases skipped : unknown frameType = true
  · exact ⟨fun _ => @next_unknown .control role .control nofun _ skipped,
      fun none_ => absurd (.inl skipped) none_⟩
  · rcases reserved : FrameType.isReservedHttp2 frameType with _ | _
    · have known : FrameType.isKnown frameType = true := by
        unfold unknown at skipped
        rw [reserved] at skipped
        simpa using skipped
      rcases FrameType.isKnown_cases known with rfl | rfl | rfl | rfl | rfl | rfl | rfl
      all_goals
        cases role
        all_goals
          constructor
          · intro fits
            first
            | rfl
            | exact absurd fits (by decide)
          · intro apart
            first
            | rfl
            | exact absurd (by decide) apart
    · rw [next_reserved .control role .control reserved]
      refine ⟨fun fits => ?_, fun _ => rfl⟩
      rcases isReserved_cases reserved with rfl | rfl | rfl | rfl
      all_goals exact absurd fits (by cases role <;> decide)

theorem next_settings (role : Role) (frameType : FrameType) :
    nextSequence .control role .awaitSettings (.frame frameType) =
      if frameType = FrameType.settings then some .control else none := by
  by_cases settings : frameType = FrameType.settings
  · subst settings
    cases role <;> rfl
  · rw [if_neg settings]
    unfold nextSequence check
    dsimp only
    rw [if_pos ⟨rfl, settings⟩]
    rfl

theorem follow_control (role : Role) (word : List Token) :
    (∃ after, follow (nextSequence .control role) .awaitSettings word = some after) ↔
      controlLanguage role .awaitSettings word := by
  have onCall : ∀ sequence call, sequence = .awaitSettings ∨ sequence = .control →
      nextSequence .control role sequence (.call call) = some sequence := by
    rintro sequence call (rfl | rfl)
    all_goals cases call <;> rfl
  have any : (∃ after, follow (nextSequence .control role) .awaitSettings word = some after) ↔
      ∃ after, follow (nextSequence .control role) .awaitSettings word = some after ∧ True :=
    exists_congr fun _ => (and_iff_left trivial).symm
  rw [any]
  refine @follow_language _ _ (nextSequence .control role)
    (fun sequence => sequence = .awaitSettings ∨ sequence = .control) (fun _ => True)
    (fun _ => True) (controlLanguage role) ?_ ?_ ?_ .awaitSettings (.inl rfl) word
    fun _ _ => trivial
  · intro sequence token after live _ taken
    cases token with
    | call call =>
      rw [onCall sequence call live] at taken
      cases taken
      exact live
    | frame frameType =>
      rcases live with rfl | rfl
      · rw [next_settings] at taken
        split at taken
        · cases taken
          exact .inr rfl
        · cases taken
      · by_cases fits : OfControl role frameType
        · rw [(next_control role frameType).1 fits] at taken
          cases taken
          exact .inr rfl
        · rw [(next_control role frameType).2 fits] at taken
          cases taken
  · rintro sequence (rfl | rfl)
    · exact iff_of_true (.inl rfl) trivial
    · exact iff_of_true nofun trivial
  · intro sequence token rest live _
    cases token with
    | call call =>
      rw [exists_taken (onCall sequence call live)]
      rcases live with rfl | rfl
      · exact Iff.rfl
      · exact Iff.rfl
    | frame frameType =>
      rcases live with rfl | rfl
      · have taken := next_settings role frameType
        by_cases settings : frameType = FrameType.settings
        · rw [if_pos settings] at taken
          rw [exists_taken taken, settings]
          constructor
          · rintro (wrong | ⟨types, same, fit⟩)
            · cases wrong
            · cases same
              exact fit
          · exact fun fit => .inr ⟨_, rfl, fit⟩
        · rw [if_neg settings] at taken
          refine iff_of_false ?_ (not_exists_taken taken)
          rintro (wrong | ⟨types, same, -⟩)
          · cases wrong
          · exact settings (List.cons.inj same).1
      · by_cases fits : OfControl role frameType
        · rw [exists_taken ((next_control role frameType).1 fits)]
          exact List.forall_mem_cons.trans (and_iff_right fits)
        · exact iff_of_false (fun all => fits (all frameType List.mem_cons_self))
            (not_exists_taken ((next_control role frameType).2 fits))

end Messages

/-! ### What a stream accepts -/

/-- The known types of a message stream: what matters to it, without the calls. -/
def messageTypes (kind : StreamKind) (role : Role) (word : List Token) : List FrameType :=
  frameTypes (significant kind role word)

/-- Only DATA and unknown types. -/
def OnlyData (word : List Token) : Prop :=
  ∀ frameType ∈ frameTypes word, unknown frameType = true ∨ frameType = FrameType.data

/-- What happens on a stream: without a tunnel it is a message, and up to the first call that opens a
tunnel it is a message so far, with nothing but DATA behind. -/
def Stream (word : List Token) (message soFar : List Token → Prop) : Prop :=
  (.call .tunnel ∉ word ∧ message word) ∨ ∃ before behind,
    word = before ++ .call .tunnel :: behind ∧ .call .tunnel ∉ before ∧ soFar before ∧
      OnlyData behind

theorem tunnel_cases (word : List Token) :
    .call .tunnel ∉ word ∨ ∃ before behind,
      word = before ++ .call .tunnel :: behind ∧ .call .tunnel ∉ before := by
  by_cases tunnel : Token.call .tunnel ∈ word
  · obtain ⟨before, behind, same, plain⟩ := List.eq_append_cons_of_mem tunnel
    exact .inr ⟨before, behind, same, plain⟩
  · exact .inl tunnel

/-- Two ways to split a word at its first tunnel are one. -/
theorem tunnel_unique {before behind before' behind' : List Token}
    (same : before ++ .call .tunnel :: behind = before' ++ .call .tunnel :: behind')
    (plain : .call .tunnel ∉ before) (plain' : .call .tunnel ∉ before') :
    before = before' ∧ behind = behind' := by
  induction before generalizing before' with
  | nil =>
    cases before' with
    | nil => exact ⟨rfl, (List.cons.inj same).2⟩
    | cons first rest => exact absurd ((List.cons.inj same).1 ▸ List.mem_cons_self) plain'
  | cons first rest inductionHypothesis =>
    cases before' with
    | nil => exact absurd ((List.cons.inj same).1 ▸ List.mem_cons_self) plain
    | cons other others =>
      obtain ⟨rfl, tails⟩ := List.cons.inj same
      obtain ⟨rfl, rfl⟩ := inductionHypothesis tails
        (fun member => plain (List.mem_cons_of_mem _ member))
        (fun member => plain' (List.mem_cons_of_mem _ member))
      exact ⟨rfl, rfl⟩

theorem follow_stream {kind : StreamKind} {role : Role} (message : kind ≠ .control)
    (word : List Token) (blank : Bool) (server : role = .client → blank = true) :
    (∃ after, follow (nextSequence kind role) .start word = some after ∧
        ¬ (blank = false ∧ after = .start)) ↔
      Stream word
        (fun word => messageLanguage role blank .start (significant kind role word))
        (fun word => messageLanguage role true .start (significant kind role word)) := by
  have clean : ∀ after : Sequence, ¬ (blank = false ∧ after = .start) ↔
      ¬ (role = .server ∧ blank = false ∧ after = .start) := by
    intro after
    cases role with
    | server => simp
    | client => simp [server rfl]
  simp only [clean]
  rcases tunnel_cases word with plain | ⟨before, behind, rfl, plain⟩
  · rw [follow_plain message blank plain]
    constructor
    · exact fun inLanguage => .inl ⟨plain, inLanguage⟩
    · rintro (⟨-, inLanguage⟩ | ⟨before, behind, rfl, -⟩)
      · exact inLanguage
      · exact absurd (List.mem_append_right _ List.mem_cons_self) plain
  · have left : ∀ after, follow (nextSequence kind role) .start
        (before ++ .call .tunnel :: behind) = some after → after ≠ .start := by
      intro after taken
      rw [follow_append] at taken
      obtain ⟨sequence, -, taken⟩ := Option.bind_eq_some_iff.mp taken
      rw [follow_cons (next_opened message sequence)] at taken
      have stays : after = .tunnel :=
        @follow_keeps _ _ (nextSequence kind role) (· = .tunnel) behind
          (fun state symbol after inside _ taken => by
            subst inside
            exact next_tunnel message taken) .tunnel after rfl taken
      rw [stays]
      exact nofun
    have tunnelled := @follow_tunnelled kind role message before behind plain
    constructor
    · rintro ⟨after, taken, -⟩
      obtain ⟨soFar, data⟩ := tunnelled.mp ⟨after, taken, left after taken⟩
      exact .inr ⟨before, behind, rfl, plain, soFar, data⟩
    · rintro (⟨none_, -⟩ | ⟨before', behind', same, plain', soFar, data⟩)
      · exact absurd (List.mem_append_right _ List.mem_cons_self) none_
      · obtain ⟨rfl, rfl⟩ := tunnel_unique same plain plain'
        obtain ⟨after, taken, apart⟩ := tunnelled.mpr ⟨soFar, data⟩
        exact ⟨after, taken, fun both => apart both.2.2⟩

/-- The decoder accepts exactly these streams, for any limits and any payloads that are valid for
their types, however long. A server takes a request: HEADERS, DATA frames and at most one HEADERS
frame. A client takes responses, with PUSH_PROMISE frames anywhere on a request stream. Behind a
tunnel both take DATA only. A control stream starts with SETTINGS, whatever else could be skipped,
and then takes CANCEL_PUSH, GOAWAY and, for a server, MAX_PUSH_ID. Other unknown types may stand
anywhere; a type reserved from HTTP/2 may stand nowhere. -/
theorem decode_accepts {limits : FrameLimits} {frames : List Sent}
    (valid : ∀ sent ∈ frames, sent.Valid limits) :
    (Accepted .request .server limits frames ↔ Stream (tokens frames)
      (fun word => RequestMessage (messageTypes .request .server word))
      (fun word => messageTypes .request .server word = [] ∨
        RequestMessage (messageTypes .request .server word))) ∧
    (Accepted .request .client limits frames ↔ Stream (tokens frames)
      (fun word => ResponseMessage (significant .request .client word))
      (fun word => ResponseMessage (significant .request .client word))) ∧
    (Accepted .push .client limits frames ↔ Stream (tokens frames)
      (fun word => ResponseMessage (significant .push .client word))
      (fun word => ResponseMessage (significant .push .client word))) ∧
    (∀ role, Undisturbed .control role limits frames ↔ frameTypes (tokens frames) = [] ∨
      ∃ rest, frameTypes (tokens frames) = FrameType.settings :: rest ∧
        ∀ frameType ∈ rest, OfControl role frameType) ∧
    (∀ sent ∈ frames, FrameType.isReservedHttp2 sent.frameType = true →
      ∀ kind role, ¬ Undisturbed kind role limits frames) ∧
    ∀ (otherLimits : FrameLimits) (others : List Sent), (∀ sent ∈ others, sent.Valid otherLimits) →
      tokens others = tokens frames → ∀ kind role,
        (Undisturbed kind role otherLimits others ↔ Undisturbed kind role limits frames) ∧
        (kind ≠ .control →
          (Accepted kind role otherLimits others ↔ Accepted kind role limits frames)) := by
  refine ⟨?_, ?_, ?_, fun role => ?_, fun sent member reserved kind role => ?_,
    fun otherLimits others validOthers same kind role => ⟨?_, fun message => ?_⟩⟩
  · have stream := @follow_stream .request .server nofun (tokens frames) false nofun
    have server : (fun word => messageLanguage .server false .start
        (significant .request .server word)) =
        fun word => RequestMessage (messageTypes .request .server word) := by
      funext word
      exact propext ⟨fun either => either.resolve_left nofun, .inr⟩
    have soFar : (fun word => messageLanguage .server true .start
        (significant .request .server word)) =
        fun word => messageTypes .request .server word = [] ∨
          RequestMessage (messageTypes .request .server word) := by
      funext word
      exact propext (or_congr_left (and_iff_right rfl))
    rw [server, soFar] at stream
    rw [@accepted_iff .request .server limits frames valid nofun, ← stream]
    refine exists_congr fun after => and_congr_right fun _ => ?_
    simp
  · rw [@accepted_iff .request .client limits frames valid nofun]
    refine Iff.trans ?_ (@follow_stream .request .client nofun (tokens frames) true fun _ => rfl)
    refine exists_congr fun after => and_congr_right fun _ => ?_
    simp
  · rw [@accepted_iff .push .client limits frames valid nofun]
    refine Iff.trans ?_ (@follow_stream .push .client nofun (tokens frames) true fun _ => rfl)
    refine exists_congr fun after => and_congr_right fun _ => ?_
    simp
  · rw [undisturbed_iff valid]
    exact follow_control role (tokens frames)
  · rw [undisturbed_iff valid]
    have inside : Token.frame sent.frameType ∈ tokens frames :=
      List.mem_flatten.mpr ⟨sent.tokens, List.mem_map_of_mem member, List.mem_cons_self⟩
    rw [@follow_refused _ _ (nextSequence kind role) (fun _ => True) (tokens frames)
      (.frame sent.frameType) (fun _ _ _ _ _ _ => trivial)
      (fun sequence _ => next_reserved kind role sequence reserved) inside _ trivial]
    exact nofun
  · rw [undisturbed_iff valid, undisturbed_iff validOthers, same]
  · rw [accepted_iff valid message, accepted_iff validOthers message, same]

/-- A response whose header section is longer than the limit, marked as final, with one DATA frame
and trailers. -/
def markedResponse : List Sent :=
  [⟨FrameType.headers, [1, 3], [0, 0, 0], [.finalResponse]⟩, ⟨0x21, [0x21, 0], [], []⟩,
    ⟨FrameType.data, [0, 1], [97], []⟩, ⟨FrameType.headers, [0x40, 1, 0], [], []⟩]

theorem markedResponse_valid : ∀ sent ∈ markedResponse, sent.Valid ⟨2, 16⟩ := by
  intro sent member
  unfold markedResponse at member
  simp only [List.mem_cons, List.not_mem_nil, or_false] at member
  rcases member with rfl | rfl | rfl | rfl
  · exact ⟨by decide, fun _ _ => ⟨_, rfl⟩, nofun⟩
  · exact ⟨by decide, nofun, nofun⟩
  · exact ⟨by decide, fun _ apart => absurd rfl apart, nofun⟩
  · exact ⟨by decide, fun _ _ => ⟨_, rfl⟩, nofun⟩

theorem decode_accepts_marked : Accepted .request .client ⟨2, 16⟩ markedResponse := by
  refine (decode_accepts markedResponse_valid).2.1.mpr (.inl ⟨by decide, [], rfl, .inr ?_⟩)
  refine ⟨[.call .finalResponse, .frame FrameType.data, .frame FrameType.headers], rfl, 0, .inr ?_⟩
  exact ⟨[.frame FrameType.data, .frame FrameType.headers], ⟨1, .inr rfl⟩, .inr rfl⟩

/-- DATA before any HEADERS is refused on a stream a client reads, though HEADERS frames may be any
number. -/
theorem decode_accepts_headless :
    ¬ ∀ (limits : FrameLimits) (frames : List Sent), (∀ sent ∈ frames, sent.Valid limits) →
      ∀ headers data : Nat, tokens frames =
        List.replicate headers (.frame FrameType.headers) ++
          List.replicate data (.frame FrameType.data) →
        Accepted .request .client limits frames := by
  intro claimed
  have accepted := claimed ⟨16, 16⟩ [⟨FrameType.data, [0, 1], [97], []⟩]
    (fun sent member => by
      rw [List.mem_singleton.mp member]
      exact ⟨by decide, fun _ apart => absurd rfl apart, nofun⟩) 0 1 rfl
  have refused : (readAll .request .client ⟨16, 16⟩
      [⟨FrameType.data, [0, 1], [97], []⟩]).state.failure = some (.outOfSequence 0) := by
    decide
  have undisturbed := accepted.1.1
  rw [refused] at undisturbed
  cases undisturbed

end ZeroServer.H3
