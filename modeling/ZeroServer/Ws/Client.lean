/-
This file proves that a session delivers exactly what its client sent: messages cut into fragments
at any place and masked with any keys, and the pings and pongs between the fragments.
-/

import ZeroServer.Ws.Reader

namespace ZeroServer.Ws

open Http1 Lib
open Simd (Utf8Validator)

/-! ### Frames of a client -/

/-- A frame a client sends. -/
structure ClientFrame where
  fin : Bool
  opcode : Opcode
  key : Key
  payload : Bytes

/-- A length in the shortest form: the short length, and the bytes that extend it. -/
def shortest (len : Nat) : UInt8 × Bytes :=
  if len < 126 then (UInt8.ofNat len, [])
  else if len ≤ 0xFFFF then (126, beBytes 2 len)
  else (127, beBytes 8 len)

def Key.bytes (key : Key) : Bytes := [key.k0, key.k1, key.k2, key.k3]

/-- A masked frame with its length in the shortest form. -/
def ClientFrame.encode (frame : ClientFrame) : Bytes :=
  let first := (if frame.fin then 0x80 else 0x00) ||| frame.opcode.bits
  let (short, extra) := shortest frame.payload.length
  first :: (0x80 ||| short) ::
    (extra ++ (frame.key.bytes ++ unmask frame.payload frame.key))

/-- A frame the base framing allows: a control frame is whole and short. -/
structure ClientFrame.Allowed (frame : ClientFrame) : Prop where
  control : frame.opcode.isControl = true →
    frame.fin = true ∧ frame.payload.length ≤ maxControlPayload
  fits : frame.payload.length < 2 ^ 63

theorem first_bits (fin : Bool) (opcode : Opcode) :
    let first := (if fin then 0x80 else 0x00) ||| opcode.bits
    decide (first &&& 0x80 ≠ 0) = fin ∧ (first >>> 4) &&& 0x07 = 0 ∧
      Opcode.fromBits (first &&& 0x0F) = some opcode := by
  cases fin <;> cases opcode <;> decide

theorem masked_bits {short : UInt8} (small : short < 0x80) :
    (0x80 ||| short) &&& 0x7F = short ∧ (0x80 ||| short) &&& 0x80 ≠ 0 := by
  have all : ∀ byte : Fin 256, (⟨⟨byte⟩⟩ : UInt8) < 0x80 →
      (0x80 ||| (⟨⟨byte⟩⟩ : UInt8)) &&& 0x7F = ⟨⟨byte⟩⟩ ∧
        (0x80 ||| (⟨⟨byte⟩⟩ : UInt8)) &&& 0x80 ≠ 0 := by decide +kernel
  exact all short.toBitVec.toFin small

/-- Masking twice with one key gives the payload back. -/
theorem unmask_unmask (payload : Bytes) (key : Key) :
    unmask (unmask payload key) key = payload := by
  unfold unmask
  rw [List.mapIdx_mapIdx]
  refine List.ext_getElem (List.length_mapIdx) fun index _ _ => ?_
  rw [List.getElem_mapIdx]
  dsimp only [Function.comp]
  rw [UInt8.xor_assoc, UInt8.xor_self, UInt8.xor_zero]

theorem shortest_extends {len : Nat} (fits : len < 2 ^ 63) :
    (shortest len).1 < 0x80 ∧
      (len ≤ maxControlPayload → (shortest len).1.toNat ≤ maxControlPayload) ∧
      ∀ more, extendedLength (shortest len).1 ((shortest len).2 ++ more) =
        .ok (some (len, (shortest len).2.length)) := by
  unfold shortest
  by_cases short : len < 126
  · rw [if_pos short]
    have byte : (UInt8.ofNat len).toNat = len :=
      UInt8.toNat_ofNat_of_lt' (Nat.lt_trans short (by decide))
    have small : (UInt8.ofNat len).toNat ≤ maxControlPayload :=
      Nat.le_trans (Nat.le_of_eq byte) (Nat.le_of_lt_succ short)
    refine ⟨?_, fun _ => small, fun more => ?_⟩
    · rw [UInt8.lt_iff_toNat_lt, byte]
      exact Nat.lt_trans short (by decide)
    · rw [extendedLength_short small, byte]
      rfl
  rw [if_neg short]
  by_cases medium : len ≤ 0xFFFF
  · rw [if_pos medium]
    have value : beValue (beBytes 2 len) = len :=
      beValue_beBytes (Nat.lt_of_le_of_lt medium (by decide))
    refine ⟨(by decide : (126 : UInt8) < 0x80),
      fun small => absurd (Nat.lt_succ_of_le small) short, fun more => ?_⟩
    unfold extendedLength
    dsimp only
    rw [if_pos rfl, if_neg (by rw [List.length_append, length_beBytes]; omega),
      List.take_left' (length_beBytes 2 len), value, if_neg short, length_beBytes]
  · rw [if_neg medium]
    have value : beValue (beBytes 8 len) = len :=
      beValue_beBytes (Nat.lt_trans fits (by decide))
    refine ⟨(by decide : (127 : UInt8) < 0x80),
      fun small => absurd (Nat.lt_succ_of_le small) short, fun more => ?_⟩
    unfold extendedLength
    dsimp only
    rw [if_neg (by decide), if_pos rfl, if_neg (by rw [List.length_append, length_beBytes]; omega),
      List.take_left' (length_beBytes 8 len), value, if_neg (by omega), length_beBytes]

/-- The header of an encoded frame is read back, behind it the masked payload. -/
theorem decode_sent {frame : ClientFrame} (allowed : frame.Allowed) (rest : Bytes) :
    ∃ headerLen, decode (frame.encode ++ rest) 0 =
        .ok (some ⟨frame.fin, 0, frame.opcode, frame.key, frame.payload.length, headerLen⟩) ∧
      frame.encode.length = headerLen + frame.payload.length ∧
      (frame.encode ++ rest).drop headerLen = unmask frame.payload frame.key ++ rest := by
  obtain ⟨fin, opcode, key, payload⟩ := frame
  obtain ⟨control, fits⟩ := allowed
  dsimp only at control fits
  obtain ⟨isFin, noRsv, isOpcode⟩ := first_bits fin opcode
  obtain ⟨small, whole, length⟩ := shortest_extends fits
  unfold ClientFrame.encode
  dsimp only
  generalize shortest payload.length = form at small whole length ⊢
  obtain ⟨short, extra⟩ := form
  dsimp only at small whole length ⊢
  simp only [List.cons_append, List.append_assoc]
  refine ⟨6 + extra.length, ?_, ?_, ?_⟩
  · obtain ⟨seven, masked⟩ := masked_bits small
    have notBroken : ¬ (opcode.isControl && (!fin || maxControlPayload < short.toNat)) = true := by
      rw [Bool.and_eq_true, Bool.or_eq_true]
      rintro ⟨isControl, unfinished | long⟩
      · rw [(control isControl).1] at unfinished
        cases unfinished
      · exact Nat.not_lt_of_le (whole (control isControl).2) (of_decide_eq_true long)
    unfold decode
    dsimp only
    rw [noRsv, if_neg (by decide), isOpcode]
    dsimp only
    rw [seven, isFin, if_neg notBroken, if_neg masked, length]
    unfold keyed
    dsimp only
    rw [List.drop_left]
    rfl
  · simp only [List.length_append, List.length_cons, Session.length_unmask]
    rw [show key.bytes.length = 4 from rfl]
    omega
  · rw [Nat.add_comm 6, show extra.length + 6 = extra.length + 4 + 2 from rfl,
      List.drop_succ_cons, List.drop_succ_cons, ← List.drop_drop, List.drop_left]
    rfl

/-! ### Between two frames -/

variable {more : Bytes} {nowMs : Nat}

/-- What a client sent of a message so far. -/
structure Sent where
  message : Option Kind := none
  bytes : Bytes := []
  fragments : Nat := 0

/-- A settled session between two frames of its client. -/
structure Resting (limits : WebSocketLimits) (sent : Sent) (window : Nat × Nat) (output : Bytes)
    (session : Session) : Prop where
  steady : session.Steady
  settled : session.delivered = false
  configured : session.limits = limits
  opened : session.state = .opened
  unclosed : session.closeReceived = none
  whole : session.partialFrame = none
  message : session.message = sent.message
  bytes : session.buffer = sent.bytes
  fragments : session.fragments = saturating 32 sent.fragments
  window : (session.windowStart, session.controlFrames) = window
  output : session.output = output

/-- What a whole message is reported as. -/
def Kind.event (kind : Kind) (bytes : Bytes) : Option Event :=
  match kind with
  | .text => (Utf8.decode bytes).map .text
  | .binary => some (.binary bytes)

/-- Bytes that are text, when the message they are of is. -/
def Kind.Carries (kind : Kind) (bytes : Bytes) : Prop := kind = .text → Text Utf8.IsChar bytes

variable {limits : WebSocketLimits} {sent : Sent} {window : Nat × Nat} {output : Bytes}
  {session : Session}

theorem Resting.new (limits : WebSocketLimits) : Resting limits {} (0, 0) [] (.new limits) :=
  ⟨.new limits, rfl, rfl, rfl, rfl, rfl, rfl, rfl, rfl, rfl, rfl⟩

theorem Resting.of_settled (settled : session.delivered = false)
    (resting : Resting limits sent window output session) :
    Resting limits sent window output session.settle :=
  (Session.settle_eq settled).symm ▸ resting

/-- What the validator holds of the message in progress. -/
theorem Resting.reads (resting : Resting limits sent window output session) {opcode : Opcode}
    (belongs : session.kindOf opcode = some .text) :
    ∃ text part, Simd.Reads session.utf8 text part ∧ sent.bytes = text ++ part := by
  have continues : session.message = some .text ∨ session.message = none := by
    unfold Session.kindOf at belongs
    split at belongs
    · rename_i same
      exact .inl (same.trans belongs)
    · exact .inr ‹_›
    · exact .inr ‹_›
    · cases belongs
  rcases continues with isText | none_
  · obtain ⟨text, part, reads, same⟩ := resting.steady.reads isText
    exact ⟨text, part, reads, resting.bytes ▸ same⟩
  · have isStart : session.utf8 = .new := resting.steady.start (by rw [none_]; exact nofun)
    have emptied := (resting.steady.idle none_).2
    rw [Session.settle_eq resting.settled, resting.bytes] at emptied
    exact ⟨[], [], isStart ▸ Simd.Reads.new, emptied⟩

/-- Text is taken, and complete where the message is. -/
theorem feed_carried {utf8 : Utf8Validator} {text part payload : Bytes}
    (reads : Simd.Reads utf8 text part)
    (carried : Text Utf8.IsChar (text ++ part ++ payload ++ more)) :
    ∃ next, utf8.feed payload = (next, .ok ()) ∧ (more = [] → next.isComplete = true) := by
  unfold Utf8Validator.feed
  rw [Utf8Validator.feedFrom_eq_feedBytes reads.counted]
  rcases fed : utf8.feedBytes 0 payload with ⟨next, error | _⟩
  · obtain ⟨position, count, -, faulty, -⟩ := reads.feed_error fed more
    exact absurd carried faulty.not_text
  · refine ⟨next, rfl, ?_⟩
    rintro rfl
    rw [List.append_nil] at carried
    obtain ⟨text', part', later, same⟩ := reads.feed_ok fed
    rcases later.finish with ⟨complete, -⟩ | ⟨-, faulty⟩
    · exact complete
    · rw [same] at faulty
      exact absurd carried faulty.not_text

/-- The session behind a data frame that is gathered whole. -/
theorem gather_frame (resting : Resting limits sent window output session) {frame : ClientFrame}
    {kind : Kind} (belongs : session.kindOf frame.opcode = some kind)
    (carries : kind.Carries (sent.bytes ++ frame.payload ++ more))
    (ended : frame.fin = true → more = []) (headerLen : Nat) (rest : Bytes) :
    ∃ last, (session.begun kind ⟨frame.fin, 0, frame.opcode, frame.key, frame.payload.length,
          headerLen⟩).gather headerLen (unmask frame.payload frame.key ++ rest) =
        (last, .ok ⟨headerLen + frame.payload.length,
          if frame.fin then kind.event (sent.bytes ++ frame.payload) else none⟩) ∧
      (last.settle.Steady → Resting limits
        (if frame.fin then {}
          else ⟨some kind, sent.bytes ++ frame.payload, sent.fragments + 1⟩)
        window output last.settle) := by
  obtain ⟨fin, opcode, key, payload⟩ := frame
  dsimp only at carries ended ⊢
  have reads := @Resting.reads _ _ _ _ _ resting opcode
  obtain ⟨steady, settled, configured, opened, unclosed, whole, message, bytes, fragments, window_,
    output_⟩ := resting
  have counted : saturating 32 (session.fragments + 1) = saturating 32 (sent.fragments + 1) := by
    rw [fragments]
    unfold saturating
    omega
  have chunk : Session.chunkOf ⟨fin, key, payload.length, 0⟩ (unmask payload key ++ rest) =
      payload := by
    unfold Session.chunkOf
    dsimp only
    rw [List.take_left' (Session.length_unmask payload key)]
    exact unmask_unmask payload key
  have taken : ∃ next,
      (session.begun kind ⟨fin, 0, opcode, key, payload.length, headerLen⟩).validated payload =
        (next, true) ∧ (more = [] → kind = .text → next.isComplete = true) := by
    cases kind with
    | binary => exact ⟨session.utf8, Session.validated_binary
      (show some Kind.binary ≠ some .text from nofun) payload, fun _ => nofun⟩
    | text =>
      obtain ⟨text, part, isReads, same⟩ := reads belongs
      obtain ⟨next, fed, complete⟩ := feed_carried isReads (same ▸ carries rfl)
      refine ⟨next, ?_, fun isEnd _ => complete isEnd⟩
      rw [Session.validated_text rfl]
      exact congrArg (fun result => (result.1, result.2.isOk)) fed
  obtain ⟨next, valid, complete⟩ := taken
  have absorbs : (session.begun kind ⟨fin, 0, opcode, key, payload.length, headerLen⟩).absorb
      (unmask payload key ++ rest) =
      ({ session.begun kind ⟨fin, 0, opcode, key, payload.length, headerLen⟩ with
          utf8 := next
          buffer := session.buffer ++ payload
          partialFrame := none }, .ok (payload.length, fin)) := by
    rw [Session.absorb_eq rfl, chunk, valid, if_pos rfl, Session.absorbed_whole (Nat.le_refl _),
      decide_eq_true (Nat.le_refl _), Bool.true_and]
    rfl
  unfold Session.gather
  rw [absorbs]
  dsimp only
  cases fin with
  | false =>
    refine ⟨_, rfl, fun later => .of_settled settled ?_⟩
    rw [Session.settle_eq] at later
    · exact ⟨later, settled, configured, opened, unclosed, rfl, rfl, congrArg (· ++ payload) bytes,
        counted, window_, output_⟩
    · exact settled
  | true =>
    rw [if_pos rfl]
    cases kind with
    | binary =>
      unfold Session.finishMessage
      dsimp only [Session.begun]
      rw [bytes]
      refine ⟨_, rfl, fun later => ?_⟩
      exact ⟨later, rfl, configured, opened, unclosed, rfl, rfl, rfl, rfl, window_, output_⟩
    | text =>
      unfold Session.finishMessage
      dsimp only [Session.begun]
      rw [complete (ended rfl) rfl, bytes]
      refine ⟨_, rfl, fun later => ?_⟩
      exact ⟨later, rfl, configured, opened, unclosed, rfl, rfl, rfl, rfl, window_, output_⟩

/-- A frame of the client is decoded and handled by its opcode. -/
theorem feed_encoded (resting : Resting limits sent window output session) {frame : ClientFrame}
    (allowed : frame.Allowed) (rest : Bytes) (nowMs : Nat) :
    ∃ headerLen, frame.encode.length = headerLen + frame.payload.length ∧
      (frame.encode ++ rest).drop headerLen = unmask frame.payload frame.key ++ rest ∧
      let header : Header :=
        ⟨frame.fin, 0, frame.opcode, frame.key, frame.payload.length, headerLen⟩
      session.feed (frame.encode ++ rest) nowMs =
        if frame.opcode.isControl then session.control header (frame.encode ++ rest) nowMs
        else session.data header (frame.encode ++ rest) := by
  obtain ⟨headerLen, decoded, length, behind⟩ := decode_sent allowed rest
  refine ⟨headerLen, length, behind, ?_⟩
  have live : ¬ (session.state = .closed ∨ session.state = .failed) := by
    rw [resting.opened]
    exact nofun
  unfold Session.feed
  dsimp only
  rw [Session.settle_eq resting.settled, if_neg live,
    if_neg (by rw [resting.whole]; exact Bool.false_ne_true), decoded]

/-- A data frame within the limits is taken, and reported once it ends its message. -/
theorem feed_data (resting : Resting limits sent window output session) {frame : ClientFrame}
    (allowed : frame.Allowed) (isData : frame.opcode.isControl = false) {kind : Kind}
    (belongs : session.kindOf frame.opcode = some kind)
    (memory : sent.bytes.length + frame.payload.length ≤ limits.maxMessage)
    (few : sent.fragments + 1 ≤ limits.maxFragments)
    (carries : kind.Carries (sent.bytes ++ frame.payload ++ more))
    (ended : frame.fin = true → more = []) (rest : Bytes) (nowMs : Nat) :
    ∃ after, session.feed (frame.encode ++ rest) nowMs =
        (after, .ok ⟨frame.encode.length,
          if frame.fin then kind.event (sent.bytes ++ frame.payload) else none⟩) ∧
      Resting limits
        (if frame.fin then {}
          else ⟨some kind, sent.bytes ++ frame.payload, sent.fragments + 1⟩)
        window output after.settle := by
  obtain ⟨headerLen, length, behind, feeds⟩ := feed_encoded resting allowed rest nowMs
  rw [isData] at feeds
  dsimp only at feeds
  rw [if_neg Bool.false_ne_true] at feeds
  obtain ⟨last, gathered, lasts⟩ := gather_frame resting belongs carries ended headerLen rest
  have counted : saturating 32 (session.fragments + 1) ≤ sent.fragments + 1 := by
    rw [resting.fragments]
    unfold saturating
    omega
  have small : ¬ (session.limits.maxMessage < session.buffer.length + frame.payload.length ∨
      session.limits.maxFragments < saturating 32 (session.fragments + 1)) := by
    rw [resting.configured, resting.bytes]
    omega
  have alike := (@Session.data_gather _ resting.steady resting.settled
    ⟨frame.fin, 0, frame.opcode, frame.key, frame.payload.length, headerLen⟩ _ belongs small
    (frame.encode ++ rest)).1
  rw [behind, gathered, ← feeds, ← length] at alike
  rcases fed : session.feed (frame.encode ++ rest) nowMs with ⟨after, code | step⟩
  · rw [fed] at alike
    cases alike
  · have later := Session.settle_steady (Session.feed_steady resting.steady fed)
    rw [fed] at alike
    cases alike with
    | ok same =>
      refine ⟨after, rfl, ?_⟩
      rw [same] at later ⊢
      exact lasts later

/-- A window of the control-frame budget behind one more frame: its start and its count. -/
def counts (window : Nat × Nat) (nowMs : Nat) : Nat × Nat :=
  if saturating 64 (window.1 + controlWindowMs) ≤ nowMs then (nowMs, saturating 32 (0 + 1))
  else (window.1, saturating 32 (window.2 + 1))

theorem counted_counts (session : Session) (nowMs : Nat) :
    session.counted nowMs =
      { session with
        windowStart := (counts (session.windowStart, session.controlFrames) nowMs).1
        controlFrames := (counts (session.windowStart, session.controlFrames) nowMs).2 } := by
  unfold Session.counted counts
  split <;> rfl

/-- A ping or a pong within the budget is reported, and a ping is answered. -/
theorem feed_control (resting : Resting limits sent window output session) {frame : ClientFrame}
    (allowed : frame.Allowed) {event : Event} {answer : Bytes}
    (answers : frame.opcode = .ping ∧ event = .ping frame.payload ∧
        answer = Ws.frame .pong frame.payload ∨
      frame.opcode = .pong ∧ event = .pong frame.payload ∧ answer = [])
    (budget : (counts window nowMs).2 ≤ limits.maxControlFramesPerSecond) (rest : Bytes) :
    ∃ after, session.feed (frame.encode ++ rest) nowMs =
        (after, .ok ⟨frame.encode.length, some event⟩) ∧
      Resting limits sent (counts window nowMs) (output ++ answer) after.settle := by
  obtain ⟨headerLen, length, behind, feeds⟩ := feed_encoded resting allowed rest nowMs
  have isControl : frame.opcode.isControl = true := by
    rcases answers with ⟨same, -⟩ | ⟨same, -⟩ <;> rw [same] <;> rfl
  rw [isControl] at feeds
  dsimp only at feeds
  rw [if_pos rfl] at feeds
  have found : getRange (frame.encode ++ rest) headerLen (headerLen + frame.payload.length) =
      some (unmask frame.payload frame.key) := by
    refine getRange_eq_some.mpr ⟨Nat.le_add_right _ _, ?_, ?_⟩
    · rw [List.length_append, length]
      exact Nat.le_add_right _ _
    · rw [Nat.add_sub_cancel_left, behind]
      exact List.take_left' (Session.length_unmask _ _)
  rw [feeds]
  obtain ⟨steady, settled, configured, opened, unclosed, whole, message, bytes, fragments, window_,
    output_⟩ := resting
  unfold Session.control
  dsimp only
  rw [found]
  dsimp only
  rw [counted_counts, window_, unmask_unmask, ← length]
  generalize counts window nowMs = next at budget ⊢
  dsimp only
  rw [configured, if_neg (Nat.not_lt_of_le budget)]
  unfold Session.answer
  rcases answers with ⟨same, rfl, rfl⟩ | ⟨same, rfl, rfl⟩
  · rw [same]
    dsimp only
    rw [unclosed, if_pos (show (none : Option CloseCode).isNone = true from rfl)]
    exact ⟨_, rfl, .of_settled settled ⟨steady.congr rfl rfl rfl rfl rfl, settled, rfl,
      opened, rfl, whole, message, bytes, fragments, rfl, congrArg (· ++ _) output_⟩⟩
  · rw [same]
    refine ⟨_, rfl, .of_settled settled ⟨steady.congr rfl rfl rfl rfl rfl, settled, rfl,
      opened, unclosed, whole, message, bytes, fragments, rfl, ?_⟩⟩
    rw [List.append_nil]
    exact output_

/-! ### Frames one after the other -/

/-- Where a conversation stands between two frames. -/
structure Place where
  sent : Sent := {}
  window : Nat × Nat := (0, 0)
  output : Bytes := []

/-- A settled session that stands at a place. -/
def Place.Holds (limits : WebSocketLimits) (place : Place) (session : Session) : Prop :=
  Resting limits place.sent place.window place.output session

/-- The place behind control frames at some times that were answered, and the data frames. -/
def Place.behind (place : Place) (sent : Sent) (times : List Nat) (answers : Bytes) : Place :=
  ⟨sent, times.foldl counts place.window, place.output ++ answers⟩

/-- A frame, at its time, leads every session from one place to another. -/
def Takes (limits : WebSocketLimits) (place : Place) (nowMs : Nat) (frame : ClientFrame)
    (event : Option Event) (next : Place) : Prop :=
  ∀ session, place.Holds limits session → ∀ rest,
    ∃ after, session.feed (frame.encode ++ rest) nowMs =
        (after, .ok ⟨frame.encode.length, event⟩) ∧ next.Holds limits after.settle

/-- Frames, each at its time, lead from one place to another with the events on the way. -/
inductive Leads (limits : WebSocketLimits) :
    Place → List (Nat × ClientFrame) → List Event → Place → Prop
  | nil (place : Place) : Leads limits place [] [] place
  | cons {place next last : Place} {nowMs : Nat} {frame : ClientFrame} {event : Option Event}
      {timed : List (Nat × ClientFrame)} {events : List Event}
      (takes : Takes limits place nowMs frame event next)
      (later : Leads limits next timed events last) :
      Leads limits place ((nowMs, frame) :: timed) (event.toList ++ events) last

variable {place : Place}

variable {last : Place}

theorem Leads.append {next : Place} {first second : List (Nat × ClientFrame)}
    {before after : List Event} (leads : Leads limits place first before next)
    (later : Leads limits next second after last) :
    Leads limits place (first ++ second) (before ++ after) last := by
  induction leads with
  | nil => exact later
  | cons takes _ inductionHypothesis =>
    rw [List.append_assoc]
    exact .cons takes (inductionHypothesis later)

theorem Leads.split {first second : List (Nat × ClientFrame)} {events : List Event}
    (leads : Leads limits place (first ++ second) events last) :
    ∃ next before after, Leads limits place first before next ∧
      Leads limits next second after last ∧ events = before ++ after := by
  induction first generalizing place events with
  | nil => exact ⟨place, [], events, .nil place, leads, rfl⟩
  | cons frame first inductionHypothesis =>
    cases leads with
    | @cons _ next _ _ _ event _ _ takes later =>
      obtain ⟨middle, before, after, leadsFirst, leadsSecond, rfl⟩ := inductionHypothesis later
      exact ⟨middle, event.toList ++ before, after, .cons takes leadsFirst, leadsSecond,
        (List.append_assoc _ _ _).symm⟩

theorem encode_pos (frame : ClientFrame) : 0 < frame.encode.length := Nat.succ_pos _

/-- A session that rests waits for the next frame. -/
theorem Resting.waits (resting : Resting limits sent window output session) (nowMs : Nat) :
    session.feed [] nowMs = (session, .ok ⟨0, none⟩) := by
  unfold Session.feed
  dsimp only
  rw [Session.settle_eq resting.settled, if_neg (by rw [resting.opened]; exact nofun),
    if_neg (by rw [resting.whole]; exact Bool.false_ne_true)]
  rfl

/-- Frames in one read are taken one after the other. -/
theorem Leads.drive {frames : List ClientFrame} {events : List Event}
    (leads : Leads limits place (frames.map (nowMs, ·)) events last) {reader : Reader}
    (holds : place.Holds limits reader.session.settle) :
    ∃ after, Reader.drive nowMs reader (frames.flatMap ClientFrame.encode) =
        ({ reader with session := after, events := reader.events ++ events }, []) ∧
      last.Holds limits after.settle := by
  induction frames generalizing place reader events with
  | nil =>
    cases leads
    have waits := Resting.waits holds nowMs
    rw [Session.feed_settle] at waits
    refine ⟨_, ?_, (Session.settle_settle reader.session).symm ▸ holds⟩
    rw [List.flatMap_nil, Reader.drive_ok waits, if_pos rfl, List.append_nil]
  | cons frame frames inductionHypothesis =>
    cases leads with
    | @cons _ next _ _ _ event _ later_ takes later =>
      obtain ⟨after, fed, standing⟩ := takes _ holds (frames.flatMap ClientFrame.encode)
      rw [Session.feed_settle] at fed
      have goes : (⟨frame.encode.length, event⟩ : Step) ≠ ⟨0, none⟩ := fun same =>
        Nat.ne_of_gt (encode_pos frame) (congrArg Step.consumed same)
      obtain ⟨final, driven, ends⟩ := @inductionHypothesis next later_ later
        { reader with session := after, events := reader.events ++ event.toList } standing
      refine ⟨final, ?_, ends⟩
      rw [List.flatMap_cons, Reader.drive_ok fed, if_neg goes, List.drop_left, driven,
        List.append_assoc]

/-- Frames in several reads are taken one after the other. -/
theorem Leads.readAll {reads : List (Nat × List ClientFrame)} {place last : Place}
    {events : List Event}
    (leads : Leads limits place (reads.flatMap fun read => read.2.map (read.1, ·)) events last)
    {reader : Reader} (live : reader.failed = none)
    (holds : place.Holds limits reader.session.settle) :
    let final := Reader.readAll reader []
      (reads.map fun read => (read.1, read.2.flatMap ClientFrame.encode))
    final.events = reader.events ++ events ∧ final.failed = none ∧
      last.Holds limits final.session.settle := by
  induction reads generalizing place reader events with
  | nil =>
    cases leads
    exact ⟨(List.append_nil _).symm, live, holds⟩
  | cons read reads inductionHypothesis =>
    rw [List.flatMap_cons] at leads
    obtain ⟨next, before, after, leadsFirst, leadsLater, rfl⟩ := leads.split
    obtain ⟨middle, driven, standing⟩ := leadsFirst.drive holds
    rw [List.map_cons, Reader.readAll]
    dsimp only
    rw [List.nil_append, driven]
    dsimp only
    rw [live, if_neg (show ¬ (none : Option CloseCode).isSome = true from Bool.false_ne_true),
      ← List.append_assoc]
    exact @inductionHypothesis next after leadsLater ⟨middle, reader.events ++ before, none⟩ rfl
      standing

/-! ### The control-frame budget -/

/-- Control frames at some times that a window of the budget has room for. -/
def Affords (budget : Nat) : Nat × Nat → List Nat → Prop
  | _, [] => True
  | window, nowMs :: times =>
    (counts window nowMs).2 ≤ budget ∧ Affords budget (counts window nowMs) times

theorem affords_append {budget : Nat} {window : Nat × Nat} {first second : List Nat} :
    Affords budget window (first ++ second) ↔
      Affords budget window first ∧ Affords budget (first.foldl counts window) second := by
  induction first generalizing window with
  | nil => exact ⟨fun affords => ⟨trivial, affords⟩, fun affords => affords.2⟩
  | cons nowMs first inductionHypothesis =>
    rw [List.cons_append, Affords, Affords, inductionHypothesis, List.foldl_cons, and_assoc]

/-- No second holds more control frames than the budget. -/
def WithinBudget (budget : Nat) (times : List Nat) : Prop :=
  ∀ inside, inside <:+: times →
    (∀ first ∈ inside, ∀ last ∈ inside, last < first + controlWindowMs) → inside.length ≤ budget

/-- The frames a window counts are within one second. -/
theorem affords_of_within {budget : Nat} {window : Nat × Nat} {recent times : List Nat}
    (within : WithinBudget budget (recent ++ times)) (clock : times.Pairwise (· ≤ ·))
    (counted : window.2 ≤ recent.length)
    (inside : ∀ nowMs ∈ recent, window.1 ≤ nowMs ∧ nowMs < window.1 + controlWindowMs)
    (coming : ∀ nowMs ∈ times, window.1 ≤ nowMs) : Affords budget window times := by
  induction times generalizing window recent with
  | nil => exact trivial
  | cons nowMs times inductionHypothesis =>
    obtain ⟨later, clock⟩ := List.pairwise_cons.mp clock
    rw [Affords]
    unfold counts
    by_cases fresh : saturating 64 (window.1 + controlWindowMs) ≤ nowMs
    · rw [if_pos fresh]
      have one : saturating 32 (0 + 1) = 1 := by decide
      rw [one]
      have alone : ∀ other ∈ [nowMs], nowMs ≤ other ∧ other < nowMs + controlWindowMs := by
        intro other same
        rw [List.mem_singleton.mp same]
        exact ⟨Nat.le_refl _, Nat.lt_add_of_pos_right (by decide)⟩
      refine ⟨within [nowMs] ⟨recent, times, by rw [List.append_assoc]; rfl⟩ ?_, ?_⟩
      · intro first isFirst last isLast
        rw [List.mem_singleton.mp isFirst]
        exact (alone last isLast).2
      · refine @inductionHypothesis (nowMs, 1) [nowMs] ?_ clock (Nat.le_refl _) alone later
        exact fun part infixed => within part (infixed.trans (List.suffix_append recent _).isInfix)
    · rw [if_neg fresh]
      have before : nowMs < window.1 + controlWindowMs := by
        unfold saturating at fresh
        omega
      have grown : saturating 32 (window.2 + 1) ≤ recent.length + 1 := by
        unfold saturating
        omega
      have together : ∀ other ∈ recent ++ [nowMs],
          window.1 ≤ other ∧ other < window.1 + controlWindowMs := by
        intro other member
        rcases List.mem_append.mp member with old | new
        · exact inside other old
        · rw [List.mem_singleton.mp new]
          exact ⟨coming nowMs List.mem_cons_self, before⟩
      have length : (recent ++ [nowMs]).length = recent.length + 1 := List.length_append
      have whole : recent ++ nowMs :: times = recent ++ [nowMs] ++ times := by
        rw [List.append_assoc]
        rfl
      refine ⟨Nat.le_trans grown (length ▸ within (recent ++ [nowMs]) ?_ ?_), ?_⟩
      · exact ⟨[], times, whole.symm⟩
      · intro first isFirst last isLast
        exact Nat.lt_of_lt_of_le (together last isLast).2
          (Nat.add_le_add_right (together first isFirst).1 _)
      · exact @inductionHypothesis (window.1, saturating 32 (window.2 + 1)) (recent ++ [nowMs])
          (whole ▸ within) clock (length ▸ grown) together
          (fun other member => coming other (List.mem_cons_of_mem _ member))

/-! ### Conversations -/

/-- A ping or a pong a client sends. -/
structure Control where
  isPing : Bool
  key : Key
  data : Bytes
  short : data.length ≤ maxControlPayload

namespace Control

def frame (control : Control) : ClientFrame :=
  ⟨true, if control.isPing then .ping else .pong, control.key, control.data⟩

def event (control : Control) : Event :=
  if control.isPing then .ping control.data else .pong control.data

def answer (control : Control) : Bytes :=
  if control.isPing then Ws.frame .pong control.data else []

end Control

/-- A fragment of a message, of a length the base framing has a form for. -/
structure Fragment where
  key : Key
  data : Bytes
  fits : data.length < 2 ^ 63

/-- What a message says. -/
inductive Content where
  | text (text : List Char)
  | binary (data : Bytes)

namespace Content

def kind : Content → Kind
  | .text _ => .text
  | .binary _ => .binary

def bytes : Content → Bytes
  | .text chars => Utf8.encode chars
  | .binary data => data

def event : Content → Event
  | .text chars => .text chars
  | .binary data => .binary data

end Content

def Kind.opcode : Kind → Opcode
  | .text => .text
  | .binary => .binary

/-- A message cut into fragments, with the control frames in front of each further one. -/
structure Message where
  content : Content
  first : Fragment
  later : List (List Control × Fragment)
  cut : first.data ++ later.flatMap (·.2.data) = content.bytes

/-- The frames behind the first one of a message. -/
def continued : List (List Control × Fragment) → List ClientFrame
  | [] => []
  | (controls, fragment) :: later =>
    controls.map Control.frame ++
      ⟨later.isEmpty, .continuation, fragment.key, fragment.data⟩ :: continued later

def Message.frames (message : Message) : List ClientFrame :=
  ⟨message.later.isEmpty, message.content.kind.opcode, message.first.key, message.first.data⟩ ::
    continued message.later

/-- What a client sends between two messages, and a message. -/
inductive Item where
  | control (control : Control)
  | message (message : Message)

namespace Item

def frames : Item → List ClientFrame
  | .control alone => [alone.frame]
  | .message cut => cut.frames

/-- The control frames of an item. -/
def controls : Item → List Control
  | .control alone => [alone]
  | .message cut => cut.later.flatMap (·.1)

/-- The events of an item, the message behind the control frames between its fragments. -/
def events : Item → List Event
  | .control alone => [alone.event]
  | .message cut => cut.later.flatMap (·.1.map Control.event) ++ [cut.content.event]

/-- A message within the limits. -/
def Fits (limits : WebSocketLimits) : Item → Prop
  | .control _ => True
  | .message cut => cut.content.bytes.length ≤ limits.maxMessage ∧
      cut.later.length + 1 ≤ limits.maxFragments

end Item

/-- The times of the control frames among frames at their times. -/
def controlTimes (timed : List (Nat × ClientFrame)) : List Nat :=
  (timed.filter (·.2.opcode.isControl)).map (·.1)

theorem controlTimes_nil : controlTimes [] = [] := rfl

theorem controlTimes_append (first second : List (Nat × ClientFrame)) :
    controlTimes (first ++ second) = controlTimes first ++ controlTimes second := by
  unfold controlTimes
  rw [List.filter_append, List.map_append]

theorem controlTimes_data {frame : ClientFrame} (isData : frame.opcode.isControl = false)
    (timed : List (Nat × ClientFrame)) :
    controlTimes ((nowMs, frame) :: timed) = controlTimes timed := by
  unfold controlTimes
  rw [List.filter_cons_of_neg (by rw [isData]; exact Bool.false_ne_true)]

theorem Control.isControl (control : Control) : control.frame.opcode.isControl = true := by
  unfold frame
  dsimp only
  split <;> rfl

theorem controlTimes_control (control : Control) (timed : List (Nat × ClientFrame)) :
    controlTimes ((nowMs, control.frame) :: timed) = nowMs :: controlTimes timed := by
  have isControl : (nowMs, control.frame).2.opcode.isControl = true := control.isControl
  unfold controlTimes
  rw [List.filter_cons, if_pos isControl, List.map_cons]

/-- What a message is reported as. -/
theorem Content.event_kind (content : Content) :
    content.kind.event content.bytes = some content.event := by
  cases content with
  | binary data => rfl
  | text text =>
    unfold Content.kind Content.bytes Kind.event
    dsimp only
    rw [Utf8.decode_encoded]
    rfl

theorem Content.carries (content : Content) : content.kind.Carries content.bytes := by
  intro isText
  cases content with
  | binary data => cases isText
  | text text => exact Utf8.text_iff.mpr ⟨text, rfl⟩

/-! ### Conversations are delivered -/

/-- A control frame within the budget. -/
theorem control_takes (control : Control)
    (budget : (counts place.window nowMs).2 ≤ limits.maxControlFramesPerSecond) :
    Takes limits place nowMs control.frame (some control.event)
      ⟨place.sent, counts place.window nowMs, place.output ++ control.answer⟩ := by
  intro session holds rest
  have allowed : control.frame.Allowed := ⟨fun _ => ⟨rfl, control.short⟩,
    Nat.lt_of_le_of_lt control.short (by unfold maxControlPayload; omega)⟩
  have answers : control.frame.opcode = .ping ∧ control.event = .ping control.frame.payload ∧
        control.answer = Ws.frame .pong control.frame.payload ∨
      control.frame.opcode = .pong ∧ control.event = .pong control.frame.payload ∧
        control.answer = [] := by
    unfold Control.frame Control.event Control.answer
    cases control.isPing
    · exact .inr ⟨rfl, rfl, rfl⟩
    · exact .inl ⟨rfl, rfl, rfl⟩
  unfold Place.Holds at holds ⊢
  dsimp only
  exact feed_control holds allowed answers budget rest

/-- Control frames one after the other. -/
theorem controls_lead {controls : List Control} {timed : List (Nat × ClientFrame)}
    (frames : timed.map (·.2) = controls.map Control.frame) {place : Place}
    (affords : Affords limits.maxControlFramesPerSecond place.window (controlTimes timed)) :
    Leads limits place timed (controls.map Control.event)
      (place.behind place.sent (controlTimes timed) (controls.flatMap Control.answer)) := by
  induction controls generalizing timed place with
  | nil =>
    obtain rfl := List.map_eq_nil_iff.mp frames
    unfold Place.behind
    rw [List.flatMap_nil, List.append_nil]
    exact .nil place
  | cons control controls inductionHypothesis =>
    obtain ⟨⟨nowMs, frame⟩, timed, rfl, rfl, others⟩ := List.map_eq_cons_iff.mp frames
    rw [controlTimes_control] at affords ⊢
    obtain ⟨room, affords⟩ := affords
    have later := @inductionHypothesis timed others
      ⟨place.sent, counts place.window nowMs, place.output ++ control.answer⟩
      (by dsimp only; exact affords)
    unfold Place.behind at later ⊢
    dsimp only at later
    rw [List.flatMap_cons, ← List.append_assoc, List.foldl_cons]
    exact .cons (control_takes control room) later

/-- A fragment of a message within the limits. -/
theorem fragment_takes {place : Place} (content : Content) {opcode : Opcode}
    (belongs : opcode = .continuation ∧ place.sent.message = some content.kind ∨
      opcode = content.kind.opcode ∧ place.sent.message = none) (fragment : Fragment) {more : Bytes}
    (cut : place.sent.bytes ++ fragment.data ++ more = content.bytes)
    (memory : content.bytes.length ≤ limits.maxMessage)
    (few : place.sent.fragments + 1 ≤ limits.maxFragments) {fin : Bool}
    (ended : fin = true → more = []) (nowMs : Nat) :
    Takes limits place nowMs ⟨fin, opcode, fragment.key, fragment.data⟩
      (if fin then some content.event else none)
      ⟨if fin then {}
        else ⟨some content.kind, place.sent.bytes ++ fragment.data, place.sent.fragments + 1⟩,
        place.window, place.output⟩ := by
  intro session holds rest
  have isData : opcode.isControl = false := by
    rcases belongs with ⟨rfl, -⟩ | ⟨rfl, -⟩
    · rfl
    · cases content.kind <;> rfl
  have kind : session.kindOf opcode = some content.kind := by
    unfold Session.kindOf
    rw [holds.message]
    rcases belongs with ⟨rfl, inside⟩ | ⟨rfl, none_⟩
    · rw [inside]
    · rw [none_]
      cases content <;> rfl
  have allowed : (⟨fin, opcode, fragment.key, fragment.data⟩ : ClientFrame).Allowed :=
    ⟨fun isControl => absurd (isControl.symm.trans isData) Bool.true_eq_false.mp, fragment.fits⟩
  have fits : place.sent.bytes.length + fragment.data.length ≤ limits.maxMessage := by
    refine Nat.le_trans ?_ memory
    rw [← cut, List.length_append, List.length_append]
    exact Nat.le_add_right _ _
  have taken := feed_data holds allowed isData kind fits few (cut ▸ content.carries) ended rest
    nowMs
  have reported : (if fin then content.kind.event (place.sent.bytes ++ fragment.data) else none) =
      if fin then some content.event else none := by
    cases fin with
    | false => rfl
    | true =>
      rw [ended rfl, List.append_nil] at cut
      rw [cut, content.event_kind]
  dsimp only at taken
  rw [reported] at taken
  exact taken

/-- The fragments of a message behind its first one, with the control frames in front of them. -/
theorem continued_lead (content : Content) {later : List (List Control × Fragment)}
    (some_ : later ≠ []) {timed : List (Nat × ClientFrame)}
    (frames : timed.map (·.2) = continued later) {place : Place}
    (inside : place.sent.message = some content.kind)
    (cut : place.sent.bytes ++ later.flatMap (·.2.data) = content.bytes)
    (memory : content.bytes.length ≤ limits.maxMessage)
    (few : place.sent.fragments + later.length ≤ limits.maxFragments)
    (affords : Affords limits.maxControlFramesPerSecond place.window (controlTimes timed)) :
    Leads limits place timed (later.flatMap (·.1.map Control.event) ++ [content.event])
      (place.behind {} (controlTimes timed) ((later.flatMap (·.1)).flatMap Control.answer)) := by
  induction later generalizing timed place with
  | nil => exact absurd rfl some_
  | cons item later inductionHypothesis =>
    obtain ⟨controls, fragment⟩ := item
    obtain ⟨before, behind, rfl, first, second⟩ := List.map_eq_append_iff.mp frames
    obtain ⟨⟨nowMs, frame⟩, behind, rfl, isFrame, others⟩ := List.map_eq_cons_iff.mp second
    dsimp only at isFrame
    subst isFrame
    have times : controlTimes (before ++ (nowMs, ⟨later.isEmpty, .continuation, fragment.key,
        fragment.data⟩) :: behind) = controlTimes before ++ controlTimes behind := by
      rw [controlTimes_append,
        controlTimes_data (show Opcode.isControl .continuation = false from rfl)]
    rw [times, affords_append] at affords
    rw [List.flatMap_cons, ← List.append_assoc] at cut
    rw [List.length_cons] at few
    have controlled := controls_lead first affords.1
    have taken := @fragment_takes limits
      (place.behind place.sent (controlTimes before) (controls.flatMap Control.answer)) content
      .continuation (.inl ⟨rfl, inside⟩) fragment _ cut memory
      (show place.sent.fragments + 1 ≤ limits.maxFragments by omega) later.isEmpty
      (by rw [List.isEmpty_iff]; rintro rfl; rfl) nowMs
    rw [times, List.flatMap_cons, List.flatMap_cons, List.append_assoc]
    refine .append controlled ?_
    cases later with
    | nil =>
      obtain rfl := List.map_eq_nil_iff.mp others
      have ends := Leads.cons taken (.nil _)
      unfold Place.behind at ends ⊢
      simp only [List.flatMap_nil, List.append_nil, controlTimes_nil]
      exact ends
    | cons item later =>
      have goesOn := @inductionHypothesis (List.cons_ne_nil _ _) behind others
        ⟨⟨some content.kind, place.sent.bytes ++ fragment.data, place.sent.fragments + 1⟩,
          (controlTimes before).foldl counts place.window,
          place.output ++ controls.flatMap Control.answer⟩ rfl cut
        (by rw [Nat.add_assoc, Nat.add_comm 1]; exact few) affords.2
      have leads := Leads.cons taken goesOn
      unfold Place.behind at leads ⊢
      rw [List.flatMap_append, ← List.append_assoc, List.foldl_append]
      exact leads

/-- A whole message within the limits. -/
theorem message_leads (message : Message)
    (memory : message.content.bytes.length ≤ limits.maxMessage)
    (few : message.later.length + 1 ≤ limits.maxFragments) {timed : List (Nat × ClientFrame)}
    (frames : timed.map (·.2) = message.frames) (idle : place.sent = {})
    (affords : Affords limits.maxControlFramesPerSecond place.window (controlTimes timed)) :
    Leads limits place timed (Item.message message).events
      (place.behind {} (controlTimes timed)
        ((Item.message message).controls.flatMap Control.answer)) := by
  obtain ⟨content, first, later, cut⟩ := message
  obtain ⟨sent, window, output⟩ := place
  dsimp only at idle
  subst idle
  obtain ⟨⟨nowMs, frame⟩, behind, rfl, isFrame, others⟩ := List.map_eq_cons_iff.mp frames
  dsimp only at isFrame memory few cut
  subst isFrame
  have isData : content.kind.opcode.isControl = false := by cases content.kind <;> rfl
  have taken := @fragment_takes limits ⟨{}, window, output⟩ content content.kind.opcode
    (.inr ⟨rfl, rfl⟩) first _ cut memory (show 0 + 1 ≤ limits.maxFragments by omega) later.isEmpty
    (by rw [List.isEmpty_iff]; rintro rfl; rfl) nowMs
  rw [controlTimes_data isData] at affords ⊢
  unfold Item.events Item.controls
  dsimp only
  cases later with
  | nil =>
    obtain rfl := List.map_eq_nil_iff.mp others
    have ends := Leads.cons taken (.nil _)
    unfold Place.behind
    simp only [List.flatMap_nil, List.append_nil, controlTimes_nil]
    exact ends
  | cons item later =>
    have goesOn := @continued_lead limits content _ (List.cons_ne_nil _ _) _ others
      ⟨⟨some content.kind, [] ++ first.data, 0 + 1⟩, window, output⟩ rfl cut memory
      (by rw [Nat.zero_add, Nat.add_comm]; exact few) affords
    exact Leads.cons taken goesOn

/-- A conversation within the limits leads to no message in progress, every ping answered. -/
theorem items_lead {items : List Item} (fits : ∀ item ∈ items, item.Fits limits)
    {timed : List (Nat × ClientFrame)} (frames : timed.map (·.2) = items.flatMap Item.frames)
    {place : Place} (idle : place.sent = {})
    (affords : Affords limits.maxControlFramesPerSecond place.window (controlTimes timed)) :
    Leads limits place timed (items.flatMap Item.events)
      (place.behind {} (controlTimes timed)
        ((items.flatMap Item.controls).flatMap Control.answer)) := by
  induction items generalizing timed place with
  | nil =>
    obtain rfl := List.map_eq_nil_iff.mp frames
    obtain ⟨sent, window, output⟩ := place
    dsimp only at idle
    subst idle
    unfold Place.behind
    simp only [List.flatMap_nil, List.append_nil, controlTimes_nil]
    exact .nil _
  | cons item items inductionHypothesis =>
    rw [List.flatMap_cons] at frames
    obtain ⟨before, behind, rfl, first, second⟩ := List.map_eq_append_iff.mp frames
    rw [controlTimes_append, affords_append] at affords
    rw [controlTimes_append, List.flatMap_cons, List.flatMap_cons, List.flatMap_append]
    have leads : Leads limits place before item.events
        (place.behind {} (controlTimes before) (item.controls.flatMap Control.answer)) := by
      cases item with
      | control control =>
        have alone := @controls_lead limits [control] before first place affords.1
        rw [idle] at alone
        exact alone
      | message message =>
        obtain ⟨memory, few⟩ := fits _ List.mem_cons_self
        exact message_leads message memory few first idle affords.1
    have later := @inductionHypothesis
      (fun other member => fits other (List.mem_cons_of_mem _ member)) behind second
      (place.behind {} (controlTimes before) (item.controls.flatMap Control.answer)) rfl affords.2
    have joined : (place.behind {} (controlTimes before)
        (item.controls.flatMap Control.answer)).behind {} (controlTimes behind)
          ((items.flatMap Item.controls).flatMap Control.answer) =
        place.behind {} (controlTimes before ++ controlTimes behind)
          (item.controls.flatMap Control.answer ++
            (items.flatMap Item.controls).flatMap Control.answer) := by
      unfold Place.behind
      rw [List.foldl_append, List.append_assoc]
    exact joined ▸ leads.append later

/-- Frames read in order of the clock have their control frames in order of the clock. -/
theorem controlTimes_sorted {reads : List (Nat × List ClientFrame)}
    (clock : (reads.map (·.1)).Pairwise (· ≤ ·)) :
    (controlTimes (reads.flatMap fun read => read.2.map (read.1, ·))).Pairwise (· ≤ ·) := by
  unfold controlTimes
  rw [List.pairwise_map] at clock ⊢
  refine List.Pairwise.filter _ (List.pairwise_flatMap.mpr ⟨fun read _ => ?_, ?_⟩)
  · exact List.pairwise_map.mpr (List.pairwise_of_forall fun _ _ => Nat.le_refl _)
  · refine clock.imp fun {first second} before left isLeft right isRight => ?_
    obtain ⟨_, -, rfl⟩ := List.mem_map.mp isLeft
    obtain ⟨_, -, rfl⟩ := List.mem_map.mp isRight
    exact before

/-- A session delivers exactly the messages of its client, reports every ping and pong and answers
every ping, in order and without a failure. -/
theorem conversation_delivered (limits : WebSocketLimits) (items : List Item)
    (fits : ∀ item ∈ items, item.Fits limits) (reads : List (Nat × List ClientFrame))
    (frames : reads.flatMap (·.2) = items.flatMap Item.frames)
    (clock : (reads.map (·.1)).Pairwise (· ≤ ·))
    (budget : WithinBudget limits.maxControlFramesPerSecond
      (controlTimes (reads.flatMap fun read => read.2.map (read.1, ·)))) :
    let reader := Reader.readAll ⟨.new limits, [], none⟩ []
      (reads.map fun read => (read.1, read.2.flatMap ClientFrame.encode))
    reader.events = items.flatMap Item.events ∧ reader.failed = none ∧
      reader.session.output = (items.flatMap Item.controls).flatMap Control.answer := by
  have sent : (reads.flatMap fun read => read.2.map (read.1, ·)).map (·.2) =
      items.flatMap Item.frames := by
    rw [← frames, List.map_flatMap]
    refine congrArg (reads.flatMap ·) (funext fun read => ?_)
    rw [List.map_map]
    exact List.map_id _
  have affords : Affords limits.maxControlFramesPerSecond (0, 0)
      (controlTimes (reads.flatMap fun read => read.2.map (read.1, ·))) :=
    @affords_of_within _ (0, 0) [] _ budget (controlTimes_sorted clock) (Nat.le_refl _) nofun
      fun _ _ => Nat.zero_le _
  have leads := @items_lead limits items fits _ sent {} rfl affords
  obtain ⟨events, live, holds⟩ := @Leads.readAll limits reads _ _ _ leads
    ⟨.new limits, [], none⟩ rfl (Resting.new limits)
  exact ⟨events, live, (Session.settle_output _).symm.trans holds.output⟩

/-- Few control frames are within the budget at any times. -/
theorem within_of_length {budget : Nat} {times : List Nat} (few : times.length ≤ budget) :
    WithinBudget budget times := fun _ infixed _ => Nat.le_trans infixed.length_le few

/-- A ping between the two fragments of a text, the second fragment a second later. -/
def greeting : List Item :=
  [.message ⟨.text ['H', 'i'], ⟨⟨1, 2, 3, 4⟩, [0x48], by decide⟩,
    [([⟨true, ⟨5, 6, 7, 8⟩, [9], by decide⟩], ⟨⟨0, 0, 0, 0⟩, [0x69], by decide⟩)], by decide⟩]

theorem conversation_delivered_greeting :
    let reader := Reader.readAll ⟨.new ⟨2, 2, 1⟩, [], none⟩ []
      ([(0, (greeting.flatMap Item.frames).take 2),
        (1000, (greeting.flatMap Item.frames).drop 2)].map fun read =>
          (read.1, read.2.flatMap ClientFrame.encode))
    reader.events = [.ping [9], .text ['H', 'i']] ∧ reader.failed = none ∧
      reader.session.output = [0x8A, 0x01, 0x09] := by
  have fits : ∀ item ∈ greeting, item.Fits ⟨2, 2, 1⟩ := by
    intro item member
    rw [List.mem_singleton.mp member]
    exact ⟨by decide, by decide⟩
  exact conversation_delivered ⟨2, 2, 1⟩ greeting fits
    [(0, (greeting.flatMap Item.frames).take 2), (1000, (greeting.flatMap Item.frames).drop 2)]
    (by rfl) (by decide) (within_of_length (by decide))

end ZeroServer.Ws
