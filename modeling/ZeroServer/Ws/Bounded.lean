/-
This file proves that the memory of a session stays within its limits over every sequence of calls,
with its fields in step with each other, and that a session that is closed or has failed takes no
notice of anything that comes later.
-/

import ZeroServer.Ws.Session

namespace ZeroServer.Ws

open Http1 Lib
open Simd (Utf8Validator)

/-! ### Calls -/

/-- A call on a session. -/
inductive Call where
  | feed (input : Bytes) (nowMs : Nat)
  | sendText (text : List Char)
  | sendBinary (data : Bytes)
  | sendEncoded (frame : Bytes)
  | ping (data : Bytes)
  | close (code : CloseCode) (reason : List Char)
  | goingAway
  | consumeOutput (written : Nat)
  deriving DecidableEq

namespace Session

/-- The session after a call. -/
def call (session : Session) : Call → Session
  | .feed input nowMs => (session.feed input nowMs).1
  | .sendText text => (session.sendText text).1
  | .sendBinary data => (session.sendBinary data).1
  | .sendEncoded frame => (session.sendEncoded frame).1
  | .ping data => (session.ping data).1
  | .close code reason => (session.close code reason).1
  | .goingAway => session.goingAway.1
  | .consumeOutput written => session.consumeOutput written

/-- The payload octets a partial frame has not brought yet. -/
def awaited (session : Session) : Nat := (session.partialFrame.map Partial.remaining).getD 0

/-! ### The invariant -/

/-- The fields of a session with some limits are in step, and its memory is within them. -/
structure Within (limits : WebSocketLimits) (session : Session) : Prop where
  configured : session.limits = limits
  memory : session.buffer.length + session.awaited ≤ limits.maxMessage
  inMessage : session.partialFrame.isSome = true → session.message.isSome = true
  start : session.message ≠ some .text → session.utf8 = .new

/-- A session that has not failed is within its limit on fragments too. -/
structure Bounded (limits : WebSocketLimits) (session : Session) : Prop
    extends Within limits session where
  fragments : session.state = .failed ∨ session.fragments ≤ limits.maxFragments

theorem new_bounded (limits : WebSocketLimits) : Bounded limits (new limits) where
  configured := rfl
  memory := Nat.zero_le _
  inMessage := nofun
  start := fun _ => rfl
  fragments := .inr (Nat.zero_le _)

variable {limits : WebSocketLimits} {session : Session}

/-- The invariant does not look at the output or at the control frames. -/
theorem Bounded.congr {other : Session} (bounded : Bounded limits session)
    (configured : other.limits = session.limits) (buffer : other.buffer = session.buffer)
    (partialFrame : other.partialFrame = session.partialFrame)
    (message : other.message = session.message) (utf8 : other.utf8 = session.utf8)
    (fragments : other.fragments = session.fragments)
    (state : session.state = .failed → other.state = .failed) : Bounded limits other where
  configured := configured.trans bounded.configured
  memory := by
    unfold awaited
    rw [buffer, partialFrame]
    exact bounded.memory
  fragments := by
    rw [fragments]
    exact bounded.fragments.imp_left state
  inMessage := by
    rw [partialFrame, message]
    exact bounded.inMessage
  start := by
    rw [message, utf8]
    exact bounded.start

theorem writeFrame_bounded (bounded : Bounded limits session) (opcode : Opcode) (payload : Bytes) :
    Bounded limits (session.writeFrame opcode payload) := bounded.congr rfl rfl rfl rfl rfl rfl id

/-- A failure keeps the fields and lifts the bound on fragments. -/
theorem fail_fields (session : Session) (code : CloseCode) :
    ∃ output, session.fail code = { session with output, state := .failed } := by
  unfold fail
  split
  · exact ⟨_, rfl⟩
  · exact ⟨session.output, rfl⟩

theorem fail_bounded (within : Within limits session) (code : CloseCode) :
    Bounded limits (session.fail code) := by
  obtain ⟨output, same⟩ := session.fail_fields code
  rw [same]
  exact ⟨⟨within.configured, within.memory, within.inMessage, within.start⟩, .inl rfl⟩

theorem settle_bounded (bounded : Bounded limits session) : Bounded limits session.settle := by
  unfold settle
  split
  · exact ⟨⟨bounded.configured,
      Nat.le_trans (Nat.add_le_add_right (Nat.zero_le _) _) bounded.memory, bounded.inMessage,
      bounded.start⟩, bounded.fragments⟩
  · exact bounded

/-- What is absorbed moves from what is awaited into the buffer. -/
theorem absorb_bounded (bounded : Bounded limits session) (input : Bytes) :
    Bounded limits (session.absorb input).1 := by
  cases arriving : session.partialFrame with
  | none =>
    unfold absorb
    rw [arriving]
    exact bounded
  | some part =>
    have inside : session.message.isSome = true := bounded.inMessage (by rw [arriving]; rfl)
    have memory : session.buffer.length + part.remaining ≤ limits.maxMessage := by
      have known := bounded.memory
      unfold awaited at known
      rwa [arriving] at known
    have taken := length_chunkOf part input
    rcases absorb_cases arriving input with ⟨isText, -, utf8, same⟩ | ⟨utf8, -, kept, same⟩
    · rw [same]
      exact @fail_bounded _ { session with utf8 } ⟨bounded.configured, bounded.memory,
        bounded.inMessage, fun binary => absurd isText binary⟩ _
    · rw [same]
      refine ⟨⟨bounded.configured, ?_, fun _ => inside, fun binary => ?_⟩, bounded.fragments⟩
      · unfold awaited absorbed
        dsimp only
        rw [List.length_append]
        split
        · rw [Option.map_some, Option.getD_some, behind_remaining]
          omega
        · dsimp only [Option.map_none, Option.getD_none]
          omega
      · exact (kept binary).trans (bounded.start binary)

/-- A message is finished when nothing of it is awaited. -/
theorem finishMessage_bounded (bounded : Bounded limits session)
    (whole : session.partialFrame = none) : Bounded limits session.finishMessage.1 := by
  have nothing : session.awaited = 0 := by
    unfold awaited
    rw [whole]
    rfl
  have memory : session.buffer.length + 0 ≤ limits.maxMessage := nothing ▸ bounded.memory
  have kept : ∀ (utf8 : Utf8Validator), utf8 = .new →
      Bounded limits { session with message := none, fragments := 0, delivered := true, utf8 } := by
    intro utf8 reset
    refine ⟨⟨bounded.configured, ?_, fun arriving => ?_, fun _ => reset⟩, .inr (Nat.zero_le _)⟩
    · unfold awaited
      dsimp only
      rwa [whole]
    · dsimp only at arriving
      rw [whole] at arriving
      cases arriving
  unfold finishMessage
  dsimp only
  cases inside : session.message with
  | none => exact kept _ (bounded.start (by rw [inside]; exact nofun))
  | some kind =>
    cases kind with
    | binary => exact kept _ (bounded.start (by rw [inside]; exact nofun))
    | text =>
      have finished := kept .new rfl
      dsimp only
      split
      · exact fail_bounded finished.toWithin _
      · exact finished

theorem gather_bounded (bounded : Bounded limits session) (headerLen : Nat) (input : Bytes) :
    Bounded limits (session.gather headerLen input).1 := by
  have taken := absorb_bounded bounded input
  unfold gather
  rcases absorbing : session.absorb input with ⟨after, code | ⟨used, done⟩⟩
  · rw [absorbing] at taken
    exact taken
  · rw [absorbing] at taken
    dsimp only
    cases done with
    | false => exact taken
    | true =>
      have whole : after.partialFrame = none := by
        cases arriving : session.partialFrame with
        | none =>
          unfold absorb at absorbing
          rw [arriving] at absorbing
          cases absorbing
        | some part =>
          rcases absorb_cases arriving input with ⟨-, -, _, same⟩ | ⟨utf8, -, -, same⟩
          · rw [same] at absorbing
            cases absorbing
          · rw [same] at absorbing
            obtain ⟨rfl, answers⟩ := Prod.mk.inj absorbing
            have done := (Prod.mk.inj (Except.ok.inj answers)).2
            rw [absorbed_whole (of_decide_eq_true (Bool.and_eq_true_iff.mp done).1)]
      have finished := finishMessage_bounded taken whole
      rw [if_pos rfl]
      rcases finishing : after.finishMessage with ⟨last, code | event⟩
      · rw [finishing] at finished
        exact finished
      · rw [finishing] at finished
        exact finished

/-! ### Frames -/

theorem counted_bounded (bounded : Bounded limits session) (nowMs : Nat) :
    Bounded limits (session.counted nowMs) := by
  unfold counted
  split <;> exact bounded.congr rfl rfl rfl rfl rfl rfl id

theorem answer_bounded (bounded : Bounded limits session) (live : session.state ≠ .failed)
    (opcode : Opcode) (payload : Bytes) : Bounded limits (session.answer opcode payload).1 := by
  have fails : ∀ code, Bounded limits (session.fail code) :=
    fail_bounded bounded.toWithin
  have closes : ∀ closeReceived output,
      Bounded limits { session with closeReceived, output, state := .closed } := fun _ _ =>
    bounded.congr rfl rfl rfl rfl rfl rfl fun failed => absurd failed live
  have closing : ∀ code, Bounded limits
      { (if session.state = .opened then
          writeFrame { session with closeReceived := some code } .close
            ((Close.body code []).toOption.getD [])
        else { session with closeReceived := some code }) with state := .closed } := by
    intro code
    split <;> exact closes _ _
  unfold answer
  cases opcode with
  | ping =>
    dsimp only
    split
    · exact writeFrame_bounded bounded _ _
    · exact bounded
  | pong => exact bounded
  | continuation | text | binary | close =>
    dsimp only
    cases Close.parse payload with
    | error code => exact fails code
    | ok close => exact closing close.code

theorem control_bounded (bounded : Bounded limits session) (live : session.state ≠ .failed)
    (header : Header) (input : Bytes) (nowMs : Nat) :
    Bounded limits (session.control header input nowMs).1 := by
  have countedBounded := counted_bounded bounded nowMs
  have countedLive : (session.counted nowMs).state ≠ .failed := by
    unfold counted
    split <;> exact live
  unfold control
  dsimp only
  cases getRange input header.headerLen (header.headerLen + header.len) with
  | none => exact bounded
  | some payload =>
    dsimp only
    split
    · exact fail_bounded countedBounded.toWithin _
    · have answered := answer_bounded countedBounded countedLive header.opcode
        (unmask payload header.mask)
      rcases answering : (session.counted nowMs).answer header.opcode (unmask payload header.mask)
        with ⟨after, code | event⟩ <;> rw [answering] at answered <;> exact answered

/-- The message a data frame belongs to goes on, or the validator is at its start. -/
theorem kindOf_start (bounded : Bounded limits session) {opcode : Opcode} {kind : Kind}
    (belongs : session.kindOf opcode = some kind) (binary : kind ≠ .text) :
    session.utf8 = .new := by
  refine bounded.start fun isText => ?_
  unfold kindOf at belongs
  rw [isText] at belongs
  cases opcode <;> first | exact absurd (Option.some.inj belongs).symm binary | cases belongs

theorem deliver_bounded (bounded : Bounded limits session) (kind : Kind) (payload : Bytes) :
    Bounded limits (session.deliver kind payload).1 := by
  unfold deliver
  cases kind with
  | binary => exact bounded
  | text =>
    dsimp only
    cases Utf8.decode payload with
    | none => exact fail_bounded bounded.toWithin _
    | some text => exact bounded

theorem data_bounded (bounded : Bounded limits session)
    (header : Header) (input : Bytes) : Bounded limits (session.data header input).1 := by
  unfold data
  cases belongs : session.kindOf header.opcode with
  | none => exact fail_bounded bounded.toWithin _
  | some kind =>
    have start := kindOf_start bounded belongs
    dsimp only
    split
    · exact @fail_bounded _ { session with fragments := saturating 32 (session.fragments + 1) }
        ⟨bounded.configured, bounded.memory, bounded.inMessage, bounded.start⟩ _
    · rename_i small
      obtain ⟨memory, fragments⟩ := not_or.mp small
      split
      · have emptied : Bounded limits { session with fragments := 0 } :=
          ⟨⟨bounded.configured, bounded.memory, bounded.inMessage, bounded.start⟩,
            .inr (Nat.zero_le _)⟩
        cases getRange input header.headerLen (header.headerLen + header.len) with
        | none => exact fail_bounded emptied.toWithin _
        | some payload =>
          have delivered := deliver_bounded emptied kind (unmask payload header.mask)
          dsimp only
          rcases delivering : deliver { session with fragments := 0 } kind
            (unmask payload header.mask) with ⟨after, code | event⟩ <;>
            rw [delivering] at delivered <;> exact delivered
      · rw [bounded.configured] at memory fragments
        have begun : Bounded limits
            { session with
              fragments := saturating 32 (session.fragments + 1)
              message := some kind
              partialFrame := some ⟨header.fin, header.mask, header.len, 0⟩ } :=
          ⟨⟨bounded.configured, Nat.le_of_not_lt memory, fun _ => rfl,
            fun binary => start fun text => binary (congrArg some text)⟩,
            .inr (Nat.le_of_not_lt fragments)⟩
        exact gather_bounded begun _ _

theorem feed_bounded (bounded : Bounded limits session) (input : Bytes) (nowMs : Nat) :
    Bounded limits (session.feed input nowMs).1 := by
  have settled := settle_bounded bounded
  unfold feed
  generalize session.settle = session at settled
  dsimp only
  split
  · exact settled
  · rename_i live
    split
    · exact gather_bounded settled _ _
    · rcases decode input 0 with code | _ | header
      · exact fail_bounded settled.toWithin _
      · exact settled
      · dsimp only
        split
        · exact control_bounded settled (fun failed => live (.inr failed)) header input nowMs
        · exact data_bounded settled header input

/-! ### Sends -/

theorem ensureOpen_closed (finished : session.state = .closed ∨ session.state = .failed) :
    session.ensureOpen = .error .closed := by
  refine if_neg fun live => ?_
  rw [live] at finished
  exact finished.elim nofun nofun

theorem queue_bounded (bounded : Bounded limits session) (bytes : Bytes) :
    Bounded limits (session.queue bytes).1 := by
  unfold queue
  cases session.ensureOpen with
  | error => exact bounded
  | ok => exact bounded.congr rfl rfl rfl rfl rfl rfl id

theorem ping_bounded (bounded : Bounded limits session) (data : Bytes) :
    Bounded limits (session.ping data).1 := by
  unfold ping
  cases session.ensureOpen with
  | error => exact bounded
  | ok =>
    dsimp only
    split
    · exact bounded
    · exact writeFrame_bounded bounded _ _

theorem close_bounded (bounded : Bounded limits session) (code : CloseCode) (reason : List Char) :
    Bounded limits (session.close code reason).1 := by
  unfold close
  cases live : session.ensureOpen with
  | error => exact bounded
  | ok =>
    have notFailed : session.state ≠ .failed := by
      intro failed
      rw [ensureOpen_closed (.inr failed)] at live
      cases live
    dsimp only
    cases Close.startBody code reason with
    | error => exact bounded
    | ok body => exact bounded.congr rfl rfl rfl rfl rfl rfl fun failed => absurd failed notFailed

/-- Every call keeps the invariant. -/
theorem call_bounded (bounded : Bounded limits session) (call : Call) :
    Bounded limits (session.call call) := by
  cases call with
  | feed input nowMs => exact feed_bounded bounded input nowMs
  | sendText text => exact queue_bounded bounded _
  | sendBinary data => exact queue_bounded bounded _
  | sendEncoded frame => exact queue_bounded bounded _
  | ping data => exact ping_bounded bounded data
  | close code reason => exact close_bounded bounded code reason
  | goingAway => exact close_bounded bounded _ _
  | consumeOutput written => exact bounded.congr rfl rfl rfl rfl rfl rfl id

/-! ### Terminal states -/

/-- The connection is over. -/
def Finished (session : Session) : Prop := session.state = .closed ∨ session.state = .failed

theorem Finished.feed (finished : session.Finished) (input : Bytes) (nowMs : Nat) :
    session.feed input nowMs = (session.settle, .ok ⟨input.length, none⟩) := by
  unfold Session.feed
  dsimp only
  rw [if_pos (by rw [settle_state]; exact finished)]

theorem Finished.queue (finished : session.Finished) (bytes : Bytes) :
    session.queue bytes = (session, .error .closed) := by
  unfold Session.queue
  rw [ensureOpen_closed finished]

theorem Finished.ping (finished : session.Finished) (data : Bytes) :
    session.ping data = (session, .error .closed) := by
  unfold Session.ping
  rw [ensureOpen_closed finished]

theorem Finished.close (finished : session.Finished) (code : CloseCode) (reason : List Char) :
    session.close code reason = (session, .error .closed) := by
  unfold Session.close
  rw [ensureOpen_closed finished]

/-- Nothing reopens a connection that is over. -/
theorem Finished.call (finished : session.Finished) (call : Call) :
    (session.call call).Finished := by
  have refused : ∀ {after : Session × Except Error Unit}, after = (session, .error .closed) →
      after.1.Finished := fun same => same ▸ finished
  cases call with
  | feed input nowMs =>
    have stays : (session.feed input nowMs).1.Finished := by
      rw [finished.feed, Finished, settle_state]
      exact finished
    exact stays
  | sendText text => exact refused (finished.queue _)
  | sendBinary data => exact refused (finished.queue _)
  | sendEncoded frame => exact refused (finished.queue _)
  | ping data => exact refused (finished.ping _)
  | close code reason => exact refused (finished.close _ _)
  | goingAway => exact refused (finished.close _ _)
  | consumeOutput written => exact finished

end Session

/-! ### Runs -/

theorem calls_bounded (limits : WebSocketLimits) (calls : List Call) :
    Session.Bounded limits (calls.foldl Session.call (.new limits)) := by
  induction calls using List.reverseRecOn with
  | nil => exact Session.new_bounded limits
  | append_singleton calls call inductionHypothesis =>
    rw [List.foldl_append]
    exact Session.call_bounded inductionHypothesis call

theorem calls_finished {session : Session} (finished : session.Finished) (calls : List Call) :
    (calls.foldl Session.call session).Finished := by
  induction calls generalizing session with
  | nil => exact finished
  | cons call calls inductionHypothesis => exact inductionHypothesis (finished.call call)

/-- The memory of a session is bounded in every state a sequence of calls reaches, its fields are in
step, and once it is closed or has failed nothing that comes later changes its output or is sent. -/
theorem session_bounded (limits : WebSocketLimits) (calls : List Call) :
    let session := calls.foldl Session.call (.new limits)
    session.buffer.length + ((session.partialFrame.map Partial.remaining).getD 0) ≤
      limits.maxMessage ∧
    (session.state = .failed ∨ session.fragments ≤ limits.maxFragments) ∧
    (session.partialFrame.isSome = true → session.message.isSome = true) ∧
    (session.message ≠ some .text → session.utf8 = .new) ∧
    (session.state = .closed ∨ session.state = .failed → ∀ later : List Call,
      let after := later.foldl Session.call session
      (∀ input nowMs, (after.feed input nowMs).2 = .ok ⟨input.length, none⟩ ∧
        (after.feed input nowMs).1.output = after.output) ∧
      (∀ text, after.sendText text = (after, .error .closed)) ∧
      (∀ data, after.sendBinary data = (after, .error .closed)) ∧
      (∀ frame, after.sendEncoded frame = (after, .error .closed)) ∧
      (∀ data, after.ping data = (after, .error .closed)) ∧
      (∀ code reason, after.close code reason = (after, .error .closed)) ∧
      after.goingAway = (after, .error .closed)) := by
  intro session
  have bounded := calls_bounded limits calls
  refine ⟨bounded.memory, bounded.fragments, bounded.inMessage, bounded.start,
    fun finished later => ?_⟩
  have ended : (later.foldl Session.call session).Finished := calls_finished finished later
  refine ⟨fun input nowMs => ?_, fun text => ended.queue _, fun data => ended.queue _,
    fun frame => ended.queue _, ended.ping, ended.close, ended.close _ _⟩
  rw [ended.feed]
  exact ⟨rfl, Session.settle_output _⟩

theorem session_bounded_failed :
    let limits : WebSocketLimits := ⟨100, 2, 2⟩
    let session := [Call.feed [0x81, 0x00] 0].foldl Session.call (.new limits)
    session.state = .failed ∧
      session.sendText ['a'] = (session, .error .closed) ∧
      (session.feed [0x81] 0).2 = .ok ⟨1, none⟩ := by
  have failed : ([Call.feed [0x81, 0x00] 0].foldl Session.call
      (.new ⟨100, 2, 2⟩)).state = .failed := by decide
  obtain ⟨-, -, -, -, absorbs⟩ := session_bounded ⟨100, 2, 2⟩ [Call.feed [0x81, 0x00] 0]
  obtain ⟨feeds, texts, -⟩ := absorbs (.inr failed) []
  exact ⟨failed, texts ['a'], (feeds [0x81] 0).1⟩

end ZeroServer.Ws
