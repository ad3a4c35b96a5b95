/-
This file reads back what a session ever appended to its output: a sequence of whole, final,
unmasked frames with lengths in the shortest form. A Close is the last of them exactly when no ping
is answered while the session waits for the peer's Close.
-/

import ZeroServer.Ws.Bounded

namespace ZeroServer.Ws

open Http1 Lib
open Simd (Utf8Validator)

/-! ### Reading frames of a server -/

/-- A frame as its opcode and its payload. -/
abbrev Frame := Opcode × Bytes

/-- The payload length in the shortest form, and how many bytes of the rest extend it. -/
def shortestLength (short : UInt8) (rest : Bytes) : Option (Nat × Nat) :=
  if short ≤ 125 then some (short.toNat, 0)
  else if short = 126 then
    if 2 ≤ rest.length ∧ 125 < beValue (rest.take 2) then some (beValue (rest.take 2), 2) else none
  else if short = 127 then
    if 8 ≤ rest.length ∧ 0xFFFF < beValue (rest.take 8) then some (beValue (rest.take 8), 8)
    else none
  else none

/-- Read a whole, final, unmasked frame with its length in the shortest form. -/
def serverFrame : Bytes → Option (Frame × Bytes)
  | first :: second :: rest =>
    if first &&& 0xF0 = 0x80 then
      (Opcode.fromBits (first &&& 0x0F)).bind fun opcode =>
        (shortestLength second rest).bind fun (len, extended) =>
          if extended + len ≤ rest.length then
            some ((opcode, (rest.drop extended).take len), rest.drop (extended + len))
          else none
    else none
  | _ => none

theorem serverFrame_shorter {bytes rest : Bytes} {frame : Frame}
    (read : serverFrame bytes = some (frame, rest)) : rest.length < bytes.length := by
  unfold serverFrame at read
  split at read
  · split_ifs at read
    obtain ⟨opcode, -, read⟩ := Option.bind_eq_some_iff.mp read
    obtain ⟨⟨len, extended⟩, -, read⟩ := Option.bind_eq_some_iff.mp read
    dsimp only at read
    split_ifs at read
    cases read
    rw [List.length_drop, List.length_cons, List.length_cons]
    omega
  · cases read

/-- Read frames up to the end of the bytes. -/
def serverFrames (bytes : Bytes) : Option (List Frame) :=
  if bytes = [] then some []
  else
    match _read : serverFrame bytes with
    | none => none
    | some (frame, rest) => (serverFrames rest).map (frame :: ·)
termination_by bytes.length
decreasing_by exact serverFrame_shorter _read

/-! ### What is written reads back -/

variable {frames : List Frame}

theorem first_opcode (opcode : Opcode) :
    (0x80 ||| opcode.bits) &&& 0xF0 = 0x80 ∧
      Opcode.fromBits ((0x80 ||| opcode.bits) &&& 0x0F) = some opcode := by
  cases opcode <;> decide

/-- A frame is read back, with what follows it left. -/
theorem serverFrame_frame (opcode : Opcode) {payload : Bytes} (fits : payload.length < 2 ^ 64)
    (rest : Bytes) :
    serverFrame (frame opcode payload ++ rest) = some ((opcode, payload), rest) := by
  obtain ⟨final, isOpcode⟩ := first_opcode opcode
  have extendedBy : ∀ {short : UInt8} {extra : Bytes},
      shortestLength short (extra ++ (payload ++ rest)) = some (payload.length, extra.length) →
      serverFrame ((0x80 ||| opcode.bits) :: short :: (extra ++ (payload ++ rest))) =
        some ((opcode, payload), rest) := by
    intro short extra length
    unfold serverFrame
    dsimp only
    rw [if_pos final, isOpcode, Option.bind_some, length, Option.bind_some]
    dsimp only
    rw [if_pos (by simp only [List.length_append]; omega), List.drop_left, List.take_left,
      ← List.drop_drop, List.drop_left, List.drop_left]
  unfold frame encode
  rw [if_pos rfl, List.append_assoc]
  split
  · rename_i short
    have byte : (UInt8.ofNat payload.length).toNat = payload.length :=
      UInt8.toNat_ofNat_of_lt' (Nat.lt_of_le_of_lt short (by decide))
    refine @extendedBy _ [] ?_
    unfold shortestLength
    rw [if_pos (UInt8.le_iff_toNat_le.mpr (byte.symm ▸ short)), byte]
    rfl
  · rename_i long
    have longer : 125 < payload.length := Nat.lt_of_not_le long
    split
    · rename_i short
      have length : (beBytes 2 payload.length).length = 2 := length_beBytes 2 _
      have value : beValue (beBytes 2 payload.length) = payload.length :=
        beValue_beBytes (Nat.lt_of_le_of_lt short (by decide))
      refine extendedBy ?_
      unfold shortestLength
      rw [if_neg (by decide), if_pos rfl, List.take_left' length, value, length,
        if_pos ⟨by rw [List.length_append, length]; exact Nat.le_add_right _ _, longer⟩]
    · rename_i long
      have length : (beBytes 8 payload.length).length = 8 := length_beBytes 8 _
      have value : beValue (beBytes 8 payload.length) = payload.length := beValue_beBytes fits
      refine extendedBy ?_
      unfold shortestLength
      rw [if_neg (by decide), if_neg (by decide), if_pos rfl, List.take_left' length, value,
        length, if_pos ⟨by rw [List.length_append, length]; exact Nat.le_add_right _ _,
          Nat.lt_of_not_le long⟩]

/-- The bytes of frames. -/
def wire (frames : List Frame) : Bytes := frames.flatMap fun sent => frame sent.1 sent.2

theorem wire_append (first second : List Frame) :
    wire (first ++ second) = wire first ++ wire second :=
  List.flatMap_append

theorem serverFrames_wire (fit : ∀ sent ∈ frames, sent.2.length < 2 ^ 64) :
    serverFrames (wire frames) = some frames := by
  induction frames with
  | nil =>
    rw [serverFrames]
    exact if_pos rfl
  | cons sent frames inductionHypothesis =>
    obtain ⟨fits, fit⟩ := List.forall_mem_cons.mp fit
    have read := serverFrame_frame sent.1 fits (wire frames)
    have some_ : frame sent.1 sent.2 ++ wire frames ≠ [] := by
      intro empty
      rw [empty] at read
      cases read
    rw [wire, List.flatMap_cons, ← wire, serverFrames, if_neg some_]
    split
    · rename_i missing
      rw [missing] at read
      cases read
    · rename_i found
      rw [found] at read
      cases read
      rw [inductionHypothesis fit]
      rfl

/-! ### What a call appends -/

/-- A Close body that is empty or starts with a code that may stand in a Close frame. -/
def ValidClose (body : Bytes) : Prop :=
  body = [] ∨ ∃ code reason, CloseCode.isValid code = true ∧ body = code.bytes ++ reason

/-- Every Close is the last frame, and its body is valid. -/
def ClosesLast (frames : List Frame) : Prop :=
  ∀ before body after, frames = before ++ (.close, body) :: after → after = [] ∧ ValidClose body

theorem closesLast_opened (none_ : ∀ body, (Opcode.close, body) ∉ frames) : ClosesLast frames := by
  rintro before body after rfl
  exact absurd (List.mem_append_right before List.mem_cons_self) (none_ body)

/-- Sent bytes are frames of a server, of which a Close is the last. -/
def WellSent (sent : Bytes) : Prop :=
  ∃ frames, serverFrames sent = some frames ∧ ClosesLast frames

namespace Session

/-- The bytes a call appends to the output. -/
def appended (session : Session) : Call → Bytes
  | .consumeOutput _ => []
  | call => (session.call call).output.drop session.output.length

/-- The slices a call is given have the lengths a slice has, and a frame that is sent encoded was
built by one of the functions that check it. -/
def Allowed : Call → Prop
  | .sendText text => (Utf8.encode text).length < 2 ^ 63
  | .sendBinary data => data.length < 2 ^ 63
  | .sendEncoded frame => ∃ payload : Bytes, payload.length < 2 ^ 63 ∧
      ((∃ opcode, writeMessage opcode payload = .ok frame) ∨ writePing payload = .ok frame)
  | _ => True

/-- A whole ping within the budget is fed while the session waits for the peer's Close. -/
def PingedLate (session : Session) (call : Call) : Prop :=
  ∃ input nowMs header, call = .feed input nowMs ∧ session.state = .closeSent ∧
    session.closeReceived = none ∧ session.partialFrame = none ∧
    decode input 0 = .ok (some header) ∧ header.opcode = .ping ∧
    header.headerLen + header.len ≤ input.length ∧
    (session.counted nowMs).controlFrames ≤ session.limits.maxControlFramesPerSecond

/-- What a call does to the output and to whether the session is open; a pong behind a Close needs
its own reason. -/
inductive Effect (late : Prop) (session after : Session) : List Frame → Prop where
  | quiet (opened : after.state = .opened ↔ session.state = .opened)
      (output : after.output = session.output) : Effect late session after []
  | message {opcode : Opcode} {payload : Bytes} (before : session.state = .opened)
      (behind : after.state = .opened) (other : opcode ≠ .close) (fits : payload.length < 2 ^ 64)
      (output : after.output = session.output ++ frame opcode payload) :
      Effect late session after [(opcode, payload)]
  | closing {body : Bytes} (before : session.state = .opened) (behind : after.state ≠ .opened)
      (fits : body.length < 2 ^ 64) (valid : ValidClose body)
      (output : after.output = session.output ++ frame .close body) :
      Effect late session after [(.close, body)]
  | late {payload : Bytes} (reason : late) (before : session.state ≠ .opened)
      (behind : after.state ≠ .opened) (fits : payload.length < 2 ^ 64)
      (output : after.output = session.output ++ frame .pong payload) :
      Effect late session after [(.pong, payload)]

variable {late : Prop} {session after : Session} {frames : List Frame}

/-- An effect looks at the state and the output only. -/
theorem Effect.congr {start : Session} (effect : Effect late session after frames)
    (state : session.state = start.state) (output : session.output = start.output) :
    Effect late start after frames := by
  cases effect with
  | quiet opened same => exact .quiet (state ▸ opened) (output ▸ same)
  | message before behind other fits same =>
    exact .message (state ▸ before) behind other fits (output ▸ same)
  | closing before behind fits valid same =>
    exact .closing (state ▸ before) behind fits valid (output ▸ same)
  | late reason before behind fits same =>
    exact .late reason (state ▸ before) behind fits (output ▸ same)

theorem refl_effect (session : Session) : Effect late session session [] := .quiet Iff.rfl rfl

/-- The body written for a code is empty or starts with a code that may be sent. -/
theorem body_valid (code : CloseCode) :
    ValidClose ((Close.body code []).toOption.getD []) ∧
      ((Close.body code []).toOption.getD []).length < 2 ^ 64 := by
  unfold Close.body
  split
  · exact ⟨.inl rfl, by decide⟩
  · split
    · exact ⟨.inl rfl, by decide⟩
    · rename_i valid
      obtain ⟨valid, -⟩ := not_or.mp valid
      exact ⟨.inr ⟨code, [], Decidable.not_not.mp valid, rfl⟩, show 2 < 2 ^ 64 by decide⟩

/-- A Close the server starts carries a code that may be sent. -/
theorem startBody_valid {code : CloseCode} {reason : List Char} {body : Bytes}
    (started : Close.startBody code reason = .ok body) :
    ValidClose body ∧ body.length < 2 ^ 64 := by
  unfold Close.startBody at started
  split_ifs at started with none_ sendable long
  · cases started
    exact ⟨.inl rfl, by decide⟩
  · have valid : code.isValid = true := by
      unfold CloseCode.isSendable at sendable
      unfold CloseCode.isValid
      simp only [Bool.or_eq_true, Bool.and_eq_true, decide_eq_true_eq] at sendable ⊢
      omega
    unfold Close.body at started
    rw [if_neg none_, if_neg (not_or.mpr ⟨not_not_intro valid, long⟩)] at started
    cases started
    refine ⟨.inr ⟨code, _, valid, rfl⟩, ?_⟩
    have two : code.bytes.length = 2 := rfl
    rw [List.length_append, two]
    exact Nat.lt_of_le_of_lt (Nat.add_le_add_left (Nat.le_of_not_lt long) 2) (by decide)

/-- What is built to be sent encoded is a frame that is no Close. -/
theorem built_frame {payload sent : Bytes}
    (built : (∃ opcode, writeMessage opcode payload = .ok sent) ∨ writePing payload = .ok sent) :
    ∃ opcode, opcode ≠ .close ∧ sent = frame opcode payload := by
  rcases built with ⟨opcode, built⟩ | built
  · unfold writeMessage at built
    split at built
    · split_ifs at built
      cases built
      exact ⟨.text, nofun, rfl⟩
    · cases built
      exact ⟨.binary, nofun, rfl⟩
    · cases built
  · unfold writePing at built
    split_ifs at built
    cases built
    exact ⟨.ping, nofun, rfl⟩

theorem fail_effect (session : Session) (code : CloseCode) :
    ∃ frames, Effect late session (session.fail code) frames := by
  obtain ⟨valid, fits⟩ := body_valid code
  unfold fail
  by_cases live : session.state = .opened
  · rw [if_pos live]
    exact ⟨_, .closing live nofun fits valid rfl⟩
  · rw [if_neg live]
    exact ⟨_, .quiet (iff_of_false nofun live) rfl⟩

theorem settle_fields (session : Session) :
    session.settle.state = session.state ∧ session.settle.output = session.output ∧
      session.settle.closeReceived = session.closeReceived ∧
      session.settle.partialFrame = session.partialFrame ∧
      session.settle.limits = session.limits ∧
      ∀ nowMs, (session.settle.counted nowMs).controlFrames =
        (session.counted nowMs).controlFrames := by
  unfold settle
  split
  · refine ⟨rfl, rfl, rfl, rfl, rfl, fun nowMs => ?_⟩
    unfold counted
    split <;> rfl
  · exact ⟨rfl, rfl, rfl, rfl, rfl, fun _ => rfl⟩

theorem finishMessage_effect (session : Session) :
    ∃ frames, Effect late session session.finishMessage.1 frames := by
  unfold finishMessage
  dsimp only
  cases session.message with
  | none => exact ⟨_, .quiet Iff.rfl rfl⟩
  | some kind =>
    cases kind with
    | binary => exact ⟨_, .quiet Iff.rfl rfl⟩
    | text =>
      dsimp only
      split
      · obtain ⟨frames, effect⟩ := @fail_effect late { session with
          message := none, fragments := 0, delivered := true, utf8 := .new } .invalidPayload
        exact ⟨frames, effect.congr rfl rfl⟩
      · exact ⟨_, .quiet Iff.rfl rfl⟩

theorem gather_effect (session : Session) (headerLen : Nat) (input : Bytes) :
    ∃ frames, Effect late session (session.gather headerLen input).1 frames := by
  unfold gather
  cases arriving : session.partialFrame with
  | none =>
    have nothing : session.absorb input = (session, .ok (0, false)) := by
      unfold absorb
      rw [arriving]
    rw [nothing]
    exact ⟨_, refl_effect session⟩
  | some part =>
    rcases absorb_cases arriving input with ⟨-, -, utf8, same⟩ | ⟨utf8, -, -, same⟩
    · obtain ⟨frames, effect⟩ := @fail_effect late { session with utf8 } .invalidPayload
      rw [same]
      exact ⟨frames, effect.congr rfl rfl⟩
    · rw [same]
      dsimp only
      split
      · obtain ⟨frames, effect⟩ := @finishMessage_effect late
          (session.absorbed part (chunkOf part input) utf8)
        refine ⟨frames, ?_⟩
        rcases finishing : (session.absorbed part (chunkOf part input) utf8).finishMessage
          with ⟨last, code | event⟩ <;> rw [finishing] at effect <;> exact effect.congr rfl rfl
      · exact ⟨_, .quiet Iff.rfl rfl⟩

theorem answer_effect (session : Session) (opcode : Opcode) {payload : Bytes}
    (fits : payload.length < 2 ^ 64)
    (reason : opcode = .ping → session.closeReceived = none → session.state ≠ .opened → late) :
    ∃ frames, Effect late session (session.answer opcode payload).1 frames := by
  have echoes : ∀ (code : CloseCode), ∃ frames, Effect late session
      { (if session.state = .opened then
          writeFrame { session with closeReceived := some code } .close
            ((Close.body code []).toOption.getD [])
        else { session with closeReceived := some code }) with state := .closed } frames := by
    intro code
    obtain ⟨valid, fits⟩ := body_valid code
    by_cases live : session.state = .opened
    · rw [if_pos live]
      exact ⟨_, .closing live nofun fits valid rfl⟩
    · rw [if_neg live]
      exact ⟨_, .quiet (iff_of_false nofun live) rfl⟩
  unfold answer
  cases opcode with
  | ping =>
    dsimp only
    by_cases unanswered : session.closeReceived = none
    · rw [if_pos (Option.isNone_iff_eq_none.mpr unanswered)]
      by_cases live : session.state = .opened
      · exact ⟨_, @Effect.message _ _ _ .pong _ live live nofun fits rfl⟩
      · exact ⟨_, .late (reason rfl unanswered live) live live fits rfl⟩
    · rw [if_neg (mt Option.isNone_iff_eq_none.mp unanswered)]
      exact ⟨_, refl_effect session⟩
  | pong => exact ⟨_, refl_effect session⟩
  | continuation | text | binary | close =>
    dsimp only
    cases Close.parse payload with
    | error code => exact fail_effect session code
    | ok close => exact echoes close.code

theorem counted_fields (session : Session) (nowMs : Nat) :
    (session.counted nowMs).state = session.state ∧
      (session.counted nowMs).output = session.output ∧
      (session.counted nowMs).closeReceived = session.closeReceived ∧
      (session.counted nowMs).limits = session.limits := by
  unfold counted
  split <;> exact ⟨rfl, rfl, rfl, rfl⟩

theorem control_effect (session : Session) {header : Header} {input : Bytes} (nowMs : Nat)
    (short : header.len ≤ maxControlPayload)
    (reason : header.opcode = .ping → session.closeReceived = none → session.state ≠ .opened →
      header.headerLen + header.len ≤ input.length →
      (session.counted nowMs).controlFrames ≤ session.limits.maxControlFramesPerSecond → late) :
    ∃ frames, Effect late session (session.control header input nowMs).1 frames := by
  obtain ⟨state, output, closeReceived, limits⟩ := counted_fields session nowMs
  unfold control
  dsimp only
  cases found : getRange input header.headerLen (header.headerLen + header.len) with
  | none => exact ⟨_, refl_effect session⟩
  | some payload =>
    have length := length_getRange found
    have inside := (getRange_eq_some.mp found).2.1
    have fits : (unmask payload header.mask).length < 2 ^ 64 := by
      rw [length_unmask, length]
      exact Nat.lt_of_le_of_lt (by omega) (show maxControlPayload < 2 ^ 64 by decide)
    dsimp only
    split
    · obtain ⟨frames, effect⟩ := @fail_effect late (session.counted nowMs) .policyViolation
      exact ⟨frames, effect.congr state output⟩
    · rename_i within
      have answered := @answer_effect late (session.counted nowMs) header.opcode
        (unmask payload header.mask) fits fun isPing unanswered waits =>
          reason isPing (closeReceived ▸ unanswered) (state ▸ waits) inside
            (Nat.le_of_not_lt (limits ▸ within))
      obtain ⟨frames, effect⟩ := answered
      refine ⟨frames, ?_⟩
      rcases answering : (session.counted nowMs).answer header.opcode (unmask payload header.mask)
        with ⟨after, code | event⟩ <;> rw [answering] at effect <;>
        exact effect.congr state output

theorem data_effect (session : Session) (header : Header) (input : Bytes) :
    ∃ frames, Effect late session (session.data header input).1 frames := by
  have fails : ∀ (fragments : Nat) code, ∃ frames,
      Effect late session (fail { session with fragments } code) frames := by
    intro fragments code
    obtain ⟨frames, effect⟩ := @fail_effect late { session with fragments } code
    exact ⟨frames, effect.congr rfl rfl⟩
  unfold data
  cases session.kindOf header.opcode with
  | none => exact fail_effect session _
  | some kind =>
    dsimp only
    split
    · exact fails _ _
    · split
      · cases getRange input header.headerLen (header.headerLen + header.len) with
        | none => exact fails _ _
        | some payload =>
          dsimp only
          cases kind with
          | binary => exact ⟨_, .quiet Iff.rfl rfl⟩
          | text =>
            unfold deliver
            dsimp only
            cases Utf8.decode (unmask payload header.mask) with
            | none => exact fails _ _
            | some text => exact ⟨_, .quiet Iff.rfl rfl⟩
      · obtain ⟨frames, effect⟩ := @gather_effect late
          { session with
            fragments := saturating 32 (session.fragments + 1)
            message := some kind
            partialFrame := some ⟨header.fin, header.mask, header.len, 0⟩ }
          header.headerLen (input.drop header.headerLen)
        exact ⟨frames, effect.congr rfl rfl⟩

/-- What fed bytes make the session append. -/
theorem feed_effect (session : Session) (input : Bytes) (nowMs : Nat) :
    ∃ frames, Effect (session.PingedLate (.feed input nowMs)) session
      (session.feed input nowMs).1 frames := by
  obtain ⟨state, output, closeReceived, partialFrame, limits, controlFrames⟩ :=
    settle_fields session
  suffices ∃ frames, Effect (session.PingedLate (.feed input nowMs)) session.settle
      (session.feed input nowMs).1 frames by
    obtain ⟨frames, effect⟩ := this
    exact ⟨frames, effect.congr state output⟩
  unfold feed
  dsimp only
  split
  · exact ⟨_, refl_effect _⟩
  · rename_i live
    split
    · exact gather_effect _ _ _
    · rename_i whole
      have whole : session.partialFrame = none := by
        rw [partialFrame] at whole
        simpa using whole
      rcases decoded : decode input 0 with code | _ | header
      · exact fail_effect _ _
      · exact ⟨_, refl_effect _⟩
      · dsimp only
        split
        · rename_i isControl
          refine control_effect _ nowMs ((decode_some decoded).2.2 isControl).2
            fun isPing unanswered waits inside within => ?_
          refine ⟨input, nowMs, header, rfl, ?_, closeReceived ▸ unanswered, whole, decoded, isPing,
            inside, by rwa [limits, controlFrames] at within⟩
          rw [state] at live waits
          cases standing : session.state with
          | opened => exact absurd standing waits
          | closeSent => rfl
          | closed => exact absurd (.inl standing) live
          | failed => exact absurd (.inr standing) live
        · exact data_effect _ _ _

variable {call : Call}

/-- A late ping is answered. -/
theorem PingedLate.answered (late : session.PingedLate call) :
    (session.call call).output ≠ session.output := by
  obtain ⟨input, nowMs, header, rfl, waits, unanswered, whole, decoded, isPing, inside, within⟩ :=
    late
  obtain ⟨state, output, closeReceived, partialFrame, limits, controlFrames⟩ :=
    settle_fields session
  have isControl : header.opcode.isControl = true := by
    rw [isPing]
    rfl
  have fed : session.feed input nowMs = session.settle.control header input nowMs := by
    unfold feed
    dsimp only
    rw [if_neg (by rw [state, waits]; exact fun ended => ended.elim nofun nofun),
      if_neg (by rw [partialFrame, whole]; exact nofun), decoded]
    exact if_pos isControl
  have counted := counted_fields session.settle nowMs
  obtain ⟨payload, found⟩ : ∃ payload,
      getRange input header.headerLen (header.headerLen + header.len) = some payload :=
    ⟨_, getRange_eq_some.mpr ⟨Nat.le_add_right _ _, inside, rfl⟩⟩
  have controlled : (session.settle.control header input nowMs).1 =
      (session.settle.counted nowMs).writeFrame .pong (unmask payload header.mask) := by
    unfold control
    dsimp only
    rw [found]
    dsimp only
    rw [if_neg (by rw [counted.2.2.2, limits, controlFrames]; exact Nat.not_lt_of_le within),
      isPing]
    unfold answer
    dsimp only
    rw [if_pos (by rw [counted.2.2.1, closeReceived, unanswered]; rfl)]
  have written : (session.feed input nowMs).1.output =
      session.output ++ frame .pong (unmask payload header.mask) := by
    rw [fed, controlled, writeFrame, counted.2.1, output]
  intro same
  have nothing := List.append_right_eq_self.mp (written.symm.trans same)
  have short := congrArg List.length nothing
  unfold frame encode at short
  dsimp only at short
  split_ifs at short <;> simp at short

/-- What a call but taking output off makes the session append. -/
theorem call_effect (session : Session) (allowed : Allowed call)
    (writes : ∀ written, call ≠ .consumeOutput written) :
    ∃ frames, Effect (session.PingedLate call) session (session.call call) frames := by
  have queues : ∀ {late : Prop} {opcode payload}, opcode ≠ .close → payload.length < 2 ^ 63 →
      ∃ frames, Effect late session (session.queue (frame opcode payload)).1 frames := by
    intro late opcode payload other fits
    unfold queue ensureOpen
    by_cases live : session.state = .opened
    · rw [if_pos live]
      exact ⟨_, .message live live other (Nat.lt_trans fits (by decide)) rfl⟩
    · rw [if_neg live]
      exact ⟨_, refl_effect session⟩
  have closes : ∀ {late : Prop} code reason,
      ∃ frames, Effect late session (session.close code reason).1 frames := by
    intro late code reason
    unfold close ensureOpen
    by_cases live : session.state = .opened
    · rw [if_pos live]
      dsimp only
      cases started : Close.startBody code reason with
      | error => exact ⟨_, refl_effect session⟩
      | ok body =>
        obtain ⟨valid, fits⟩ := startBody_valid started
        exact ⟨_, .closing live nofun fits valid rfl⟩
    · rw [if_neg live]
      exact ⟨_, refl_effect session⟩
  cases call with
  | feed input nowMs => exact feed_effect session input nowMs
  | sendText text => exact queues nofun allowed
  | sendBinary data => exact queues nofun allowed
  | sendEncoded sent =>
    obtain ⟨payload, fits, built⟩ := allowed
    obtain ⟨opcode, other, rfl⟩ := built_frame built
    exact queues other fits
  | ping data =>
    have pings : ∃ frames, Effect (session.PingedLate (.ping data)) session
        (session.ping data).1 frames := by
      unfold Session.ping ensureOpen
      by_cases live : session.state = .opened
      · rw [if_pos live]
        dsimp only
        split
        · exact ⟨_, refl_effect session⟩
        · rename_i short
          have fits : data.length < 2 ^ 64 :=
            Nat.lt_of_le_of_lt (Nat.le_of_not_lt short) (by decide)
          exact ⟨_, @Effect.message _ _ _ .ping _ live live nofun fits rfl⟩
      · rw [if_neg live]
        exact ⟨_, refl_effect session⟩
    exact pings
  | close code reason => exact closes code reason
  | goingAway => exact closes _ _
  | consumeOutput written => exact absurd rfl (writes written)

/-! ### Runs -/

/-- No ping is fed late over the calls. -/
def Undisturbed : Session → List Call → Prop
  | _, [] => True
  | session, call :: calls => ¬ session.PingedLate call ∧ Undisturbed (session.call call) calls

/-- The session and what it appended so far, after one more call. -/
def send (state : Session × Bytes) (call : Call) : Session × Bytes :=
  (state.1.call call, state.2 ++ state.1.appended call)

/-- The frames sent so far: a Close is among them once the session is open no longer. -/
structure Sent (session : Session) (frames : List Frame) : Prop where
  fit : ∀ sent ∈ frames, sent.2.length < 2 ^ 64
  opened : session.state = .opened ↔ ∀ body, (Opcode.close, body) ∉ frames

/-- What one call appends. -/
theorem call_sent {session : Session} (sent : session.Sent frames) (allowed : Allowed call) :
    ∃ more, session.appended call = wire more ∧ (session.call call).Sent (frames ++ more) ∧
      (ClosesLast (frames ++ more) ↔ ClosesLast frames ∧ ¬ session.PingedLate call) := by
  by_cases writes : ∃ written, call = .consumeOutput written
  · obtain ⟨written, rfl⟩ := writes
    refine ⟨[], rfl, ⟨by rw [List.append_nil]; exact sent.fit,
      by rw [List.append_nil]; exact sent.opened⟩, ?_⟩
    rw [List.append_nil]
    refine ⟨fun closes => ⟨closes, ?_⟩, And.left⟩
    rintro ⟨input, nowMs, header, same, -⟩
    cases same
  have writes := not_exists.mp writes
  obtain ⟨more, effect⟩ := session.call_effect allowed writes
  have added : (session.call call).output = session.output ++ wire more := by
    cases effect with
    | quiet _ output => rw [output, wire, List.flatMap_nil, List.append_nil]
    | message _ _ _ _ output | closing _ _ _ _ output | late _ _ _ _ output =>
      rw [output, wire, List.flatMap_singleton]
  have appends : session.appended call = wire more := by
    have dropped : session.appended call =
        (session.call call).output.drop session.output.length := by
      cases call with
      | consumeOutput written => exact absurd rfl (writes written)
      | _ => rfl
    rw [dropped, added, List.drop_left]
  have late_waits : session.PingedLate call → session.state ≠ .opened := by
    rintro ⟨_, _, _, -, waits, -⟩ live
    rw [waits] at live
    cases live
  refine ⟨more, appends, ?_⟩
  cases effect with
  | quiet opened output =>
    rw [List.append_nil]
    exact ⟨⟨sent.fit, opened.trans sent.opened⟩,
      fun closes => ⟨closes, fun late => late.answered output⟩, And.left⟩
  | @message opcode payload before behind other fits output =>
    have none_ : ∀ body, (Opcode.close, body) ∉ frames ++ [(opcode, payload)] := by
      intro body member
      rcases List.mem_append.mp member with earlier | last
      · exact sent.opened.mp before body earlier
      · exact other (congrArg Prod.fst (List.mem_singleton.mp last)).symm
    exact ⟨⟨List.forall_mem_append.mpr ⟨sent.fit, List.forall_mem_singleton.mpr fits⟩,
      iff_of_true behind none_⟩, iff_of_true (closesLast_opened none_)
        ⟨closesLast_opened (sent.opened.mp before), fun late => late_waits late before⟩⟩
  | @closing body before behind fits valid output =>
    have last : ClosesLast (frames ++ [(.close, body)]) := by
      intro early other after same
      rcases List.eq_nil_or_concat after with rfl | ⟨between, final, rfl⟩
      · obtain ⟨-, same⟩ := List.append_inj' same rfl
        cases same
        exact ⟨rfl, valid⟩
      · rw [List.concat_eq_append, ← List.cons_append, ← List.append_assoc] at same
        obtain ⟨earlier, -⟩ := List.append_inj' same rfl
        exact absurd (earlier ▸ List.mem_append_right early List.mem_cons_self)
          (sent.opened.mp before other)
    refine ⟨⟨List.forall_mem_append.mpr ⟨sent.fit, List.forall_mem_singleton.mpr fits⟩,
      iff_of_false behind fun none_ =>
        none_ body (List.mem_append_right _ (List.mem_singleton.mpr rfl))⟩,
      iff_of_true last
        ⟨closesLast_opened (sent.opened.mp before), fun late => late_waits late before⟩⟩
  | @late payload reason before behind fits output =>
    have closed : ∃ body, (Opcode.close, body) ∈ frames := by
      by_contra none_
      exact before (sent.opened.mpr fun body member => none_ ⟨body, member⟩)
    obtain ⟨body, member⟩ := closed
    refine ⟨⟨List.forall_mem_append.mpr ⟨sent.fit, List.forall_mem_singleton.mpr fits⟩,
      iff_of_false behind fun none_ => none_ body (List.mem_append_left _ member)⟩,
      iff_of_false (fun closes => ?_) fun both => both.2 reason⟩
    obtain ⟨early, after, rfl⟩ := List.append_of_mem member
    have last := (closes early body (after ++ [(.pong, payload)])
      (by rw [List.append_assoc, List.cons_append])).1
    exact List.append_ne_nil_of_right_ne_nil after (List.cons_ne_nil _ _) last

/-- What a run appends. -/
theorem run_sent {session : Session} (sent : session.Sent frames) {calls : List Call}
    (allowed : ∀ call ∈ calls, Allowed call) :
    ∃ more, (calls.foldl send (session, wire frames)).2 = wire (frames ++ more) ∧
      (∀ sent ∈ frames ++ more, sent.2.length < 2 ^ 64) ∧
      (ClosesLast (frames ++ more) ↔ ClosesLast frames ∧ session.Undisturbed calls) := by
  induction calls generalizing session frames with
  | nil =>
    refine ⟨[], ?_, ?_, ?_⟩
    · rw [List.append_nil]
      rfl
    · rw [List.append_nil]
      exact sent.fit
    · rw [List.append_nil]
      exact ⟨fun closes => ⟨closes, trivial⟩, And.left⟩
  | cons call calls inductionHypothesis =>
    obtain ⟨callAllowed, allowed⟩ := List.forall_mem_cons.mp allowed
    obtain ⟨first, appends, kept, one⟩ := call_sent sent callAllowed
    obtain ⟨later, ran, fit, many⟩ := inductionHypothesis kept allowed
    refine ⟨first ++ later, ?_, ?_, ?_⟩
    · rw [List.foldl_cons, send, appends, ← wire_append, ran, List.append_assoc]
    · rw [← List.append_assoc]
      exact fit
    · rw [← List.append_assoc, many, one, and_assoc]
      rfl

end Session

/-- What a session ever appended to its output over some calls. -/
def sentBy (limits : WebSocketLimits) (calls : List Call) : Bytes :=
  (calls.foldl Session.send (.new limits, [])).2

/-- What a session ever appends is a sequence of whole, final, unmasked frames in the shortest form,
and a Close is the last of them, with a valid body, exactly when no ping was fed late. -/
theorem sentBy_wellSent_iff (limits : WebSocketLimits) (calls : List Call)
    (allowed : ∀ call ∈ calls, Session.Allowed call) :
    (∃ frames, serverFrames (sentBy limits calls) = some frames) ∧
      (WellSent (sentBy limits calls) ↔ (Session.new limits).Undisturbed calls) := by
  have start : (Session.new limits).Sent [] := ⟨nofun, iff_of_true rfl fun _ => nofun⟩
  obtain ⟨frames, ran, fit, closes⟩ := Session.run_sent start allowed
  have read : serverFrames (sentBy limits calls) = some frames := by
    have sent : sentBy limits calls = wire frames := ran
    rw [sent]
    exact serverFrames_wire fit
  refine ⟨⟨frames, read⟩, ?_⟩
  have initial : ClosesLast [] := closesLast_opened fun _ => nofun
  constructor
  · rintro ⟨others, again, last⟩
    rw [read] at again
    cases again
    exact (closes.mp last).2
  · exact fun undisturbed => ⟨frames, read, closes.mpr ⟨initial, undisturbed⟩⟩

theorem sentBy_wellSent_iff_greeting :
    let limits : WebSocketLimits := ⟨100, 2, 2⟩
    let calls : List Call := [.sendText ['h', 'i'], .close ⟨1000⟩ []]
    (∃ frames, serverFrames (sentBy limits calls) = some frames) ∧
      (WellSent (sentBy limits calls) ↔ (Session.new limits).Undisturbed calls) :=
  sentBy_wellSent_iff _ _ (List.forall_mem_cons.mpr
    ⟨show (Utf8.encode ['h', 'i']).length < 2 ^ 63 by decide,
      List.forall_mem_singleton.mpr trivial⟩)

/-- A ping fed after the session sent its Close is answered behind the Close. -/
theorem pong_after_close :
    let limits : WebSocketLimits := ⟨100, 2, 2⟩
    let calls : List Call := [.close ⟨1000⟩ [], .feed [0x89, 0x80, 0, 0, 0, 0] 0]
    (∀ call ∈ calls, Session.Allowed call) ∧ ¬ WellSent (sentBy limits calls) := by
  intro limits calls
  refine ⟨List.forall_mem_cons.mpr ⟨trivial, List.forall_mem_singleton.mpr trivial⟩, ?_⟩
  have sent : sentBy limits calls = wire [(.close, [3, 232]), (.pong, [])] := by decide
  have fit : ∀ sent ∈ [(Opcode.close, ([3, 232] : Bytes)), (.pong, [])],
      sent.2.length < 2 ^ 64 := by decide
  rintro ⟨frames, read, closes⟩
  rw [sent, serverFrames_wire fit] at read
  cases read
  exact nomatch (closes [] [3, 232] [(.pong, [])] rfl).1

end ZeroServer.Ws
