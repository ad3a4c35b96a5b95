/-
This file proves what longer input changes in a feed of a session: a frame that is delivered from
the input is delivered as one that arrives in pieces and is gathered, and what waits or goes on is
done with whatever follows.
-/

import ZeroServer.Ws.Session

namespace ZeroServer.Ws

open Http1 Lib
open Simd (Utf8Validator)

/-! ### Equal results -/

namespace Session

/-- Two results that no later call tells apart. -/
inductive Alike : Session × Except CloseCode Step → Session × Except CloseCode Step → Prop
  | ok {left right : Session} {step : Step} (settled : left.settle = right.settle) :
      Alike (left, .ok step) (right, .ok step)
  | error {left right : Session} {code : CloseCode} (output : left.output = right.output) :
      Alike (left, .error code) (right, .error code)

theorem Alike.refl (result : Session × Except CloseCode Step) : Alike result result := by
  rcases result with ⟨session, code | step⟩
  · exact .error rfl
  · exact .ok rfl

theorem Alike.trans {first second third : Session × Except CloseCode Step}
    (left : Alike first second) (right : Alike second third) : Alike first third := by
  cases left with
  | ok settled =>
    cases right with
    | ok later => exact .ok (settled.trans later)
  | error output =>
    cases right with
    | error later => exact .error (output.trans later)

theorem Alike.symm {first second : Session × Except CloseCode Step} (alike : Alike first second) :
    Alike second first := by
  cases alike with
  | ok settled => exact .ok settled.symm
  | error output => exact .error output.symm

/-- A failure depends on the state and the output before it. -/
theorem fail_alike {left right : Session} (state : left.state = right.state)
    (output : left.output = right.output) (code : CloseCode) :
    Alike (left.fail code, .error code) (right.fail code, .error code) := by
  refine .error ?_
  unfold fail
  rw [state]
  split
  · exact congrArg (· ++ _) output
  · exact output

/-- What a settled session keeps between two feeds. -/
structure Steady (session : Session) : Prop where
  idle : session.message = none → session.partialFrame = none ∧ session.settle.buffer = []
  live : session.message ≠ none → session.delivered = false
  awaits : ∀ part, session.partialFrame = some part →
    0 < part.remaining ∧ part.offset < 2 ^ 64
  start : session.message ≠ some .text → session.utf8 = .new
  reads : session.message = some .text → ∃ text part, Simd.Reads session.utf8 text part ∧
    session.buffer = text ++ part

theorem Steady.counted {session : Session} (steady : session.Steady) :
    Simd.Counted session.utf8 := by
  by_cases isText : session.message = some .text
  · obtain ⟨text, part, reads, -⟩ := steady.reads isText
    exact reads.counted
  · rw [steady.start isText]
    exact Simd.Reads.new.counted

/-! ### Gathering in pieces -/

variable {session : Session} {part : Partial} {input : Bytes} {header : Header}

variable {bytes payload : Bytes}

/-- The octets of the frame in progress come in two pieces. -/
theorem chunkOf_append (short : input.length < part.remaining) (more : Bytes) :
    chunkOf part (input ++ more) =
      chunkOf part input ++ chunkOf (behind part input.length) more := by
  unfold chunkOf behind
  rw [List.take_append, List.take_of_length_le (Nat.le_of_lt short), unmask_append,
    rotateKey_rotateKey]

/-- A frame in progress that is all in the input is taken whatever follows. -/
theorem chunkOf_whole (whole : part.remaining ≤ input.length) (more : Bytes) :
    chunkOf part (input ++ more) = chunkOf part input := by
  unfold chunkOf
  rw [List.take_append_of_le_length whole]

/-- Text fed in two chunks is valid when both are, one after the other. -/
theorem validated_append (counted : Simd.Counted session.utf8) (first second : Bytes) :
    ((session.validated first).2 = false → (session.validated (first ++ second)).2 = false) ∧
      ((session.validated first).2 = true →
        session.validated (first ++ second) =
          { session with utf8 := (session.validated first).1 }.validated second) := by
  unfold validated
  dsimp only
  by_cases isText : session.message = some .text
  · rw [if_pos isText, if_pos isText, if_pos isText]
    obtain ⟨valid, invalid⟩ := Simd.Utf8Validator.feed_append counted first second
    refine ⟨invalid, fun taken => ?_⟩
    rcases fed : session.utf8.feed first with ⟨next, error | _⟩
    · rw [fed] at taken
      cases taken
    · obtain ⟨same, ok⟩ := valid next fed
      exact Prod.ext same ok
  · rw [if_neg isText, if_neg isText, if_neg isText]
    exact ⟨id, fun _ => rfl⟩

/-- What is taken in two pieces is taken as one. -/
theorem absorbed_append (session : Session) (part : Partial) (first second : Bytes)
    (middle last : Utf8Validator) :
    session.absorbed part (first ++ second) last =
      (session.absorbed part first middle).absorbed (behind part first.length) second last := by
  have remaining : part.remaining - (first ++ second).length =
      part.remaining - first.length - second.length := by
    rw [List.length_append]
    omega
  have same : behind part (first ++ second).length =
      behind (behind part first.length) second.length := by
    unfold behind
    dsimp only
    rw [Partial.mk.injEq]
    refine ⟨rfl, rfl, remaining, ?_⟩
    rw [List.length_append]
    omega
  unfold absorbed
  dsimp only
  rw [same, remaining, List.append_assoc]
  rfl

/-- What is gathered in two pieces is gathered as one. -/
theorem gather_append (counted : Simd.Counted session.utf8)
    (arriving : session.partialFrame = some part) (headerLen : Nat)
    (short : input.length < part.remaining) :
    (∃ left, session.gather headerLen input = (left, .error .invalidPayload) ∧
      ∀ more, Alike (session.gather headerLen (input ++ more)) (left, .error .invalidPayload)) ∨
    ∃ utf8,
      (session.message = some .text → session.utf8.feed (chunkOf part input) = (utf8, .ok ())) ∧
      (session.message ≠ some .text → utf8 = session.utf8) ∧
      session.gather headerLen input =
        (session.absorbed part (chunkOf part input) utf8, .ok ⟨headerLen + input.length, none⟩) ∧
      ∀ more, Alike (session.gather headerLen (input ++ more))
        ((session.absorbed part (chunkOf part input) utf8).gather (headerLen + input.length)
          more) := by
  have length : (chunkOf part input).length = input.length := by
    rw [length_chunkOf]
    omega
  have shorter : ¬ part.remaining ≤ (chunkOf part input).length := by omega
  have twice := validated_append counted (chunkOf part input)
  rcases valid : session.validated (chunkOf part input) with ⟨utf8, - | -⟩
  · rw [valid] at twice
    have failing : ∀ more, ∃ other, session.absorb (input ++ more) =
        ({ session with utf8 := other }.fail .invalidPayload, .error .invalidPayload) := by
      intro more
      have invalid := (twice (chunkOf (behind part input.length) more)).1 rfl
      rw [absorb_eq arriving, chunkOf_append short, invalid]
      exact ⟨_, rfl⟩
    refine .inl ⟨{ session with utf8 }.fail .invalidPayload, ?_, fun more => ?_⟩
    · unfold gather
      rw [absorb_eq arriving, valid]
      rfl
    · obtain ⟨other, failed⟩ := failing more
      have same : session.gather headerLen (input ++ more) =
          ({ session with utf8 := other }.fail .invalidPayload, .error .invalidPayload) := by
        unfold gather
        rw [failed]
      rw [same]
      exact @fail_alike { session with utf8 := other } { session with utf8 } rfl rfl _
  · rw [valid] at twice
    have known : (session.message = some .text →
        session.utf8.feed (chunkOf part input) = (utf8, .ok ())) ∧
        (session.message ≠ some .text → utf8 = session.utf8) := by
      unfold validated at valid
      constructor
      · intro isText
        rw [if_pos isText] at valid
        obtain ⟨same, ok⟩ := Prod.mk.inj valid
        rcases fed : session.utf8.feed (chunkOf part input) with ⟨next, error | _⟩
        · rw [fed] at ok
          cases ok
        · rw [fed] at same
          exact congrArg (·, _) same
      · intro binary
        rw [if_neg binary] at valid
        exact (Prod.mk.inj valid).1.symm
    refine .inr ⟨utf8, known.1, known.2, ?_, fun more => ?_⟩
    · unfold gather
      rw [absorb_eq arriving, valid, if_pos rfl, length, decide_eq_false (length ▸ shorter)]
      rfl
    · have again := (twice (chunkOf (behind part input.length) more)).2 rfl
      have next : (session.absorbed part (chunkOf part input) utf8).partialFrame =
          some (behind part input.length) := by
        unfold absorbed
        rw [length, if_pos (by omega)]
      have validating : session.validated
          (chunkOf part input ++ chunkOf (behind part input.length) more) =
          (session.absorbed part (chunkOf part input) utf8).validated
            (chunkOf (behind part input.length) more) := again
      have count : (chunkOf part input ++ chunkOf (behind part input.length) more).length =
          input.length + (chunkOf (behind part input.length) more).length := by
        rw [List.length_append, length]
      have done : decide (part.remaining ≤
          (chunkOf part input ++ chunkOf (behind part input.length) more).length) =
          decide ((behind part input.length).remaining ≤
            (chunkOf (behind part input.length) more).length) := by
        rw [count]
        exact decide_eq_decide.mpr (by rw [behind_remaining]; omega)
      have taken : ∀ last, session.absorbed part
          (chunkOf part input ++ chunkOf (behind part input.length) more) last =
          (session.absorbed part (chunkOf part input) utf8).absorbed (behind part input.length)
            (chunkOf (behind part input.length) more) last := fun last =>
        length ▸ absorbed_append session part _ _ utf8 last
      unfold gather
      rw [absorb_eq arriving, absorb_eq next, chunkOf_append short, validating]
      rcases (session.absorbed part (chunkOf part input) utf8).validated
        (chunkOf (behind part input.length) more) with ⟨last, - | -⟩
      · exact @fail_alike { session with utf8 := last }
          { session.absorbed part (chunkOf part input) utf8 with utf8 := last } rfl rfl _
      · dsimp only
        rw [if_pos rfl, if_pos rfl, taken, done, count]
        dsimp only [behind]
        rw [Nat.add_assoc]
        exact .refl _

/-- A frame that is all there is gathered the same whatever follows. -/
theorem gather_whole (arriving : session.partialFrame = some part) (headerLen : Nat)
    (whole : part.remaining ≤ input.length) (more : Bytes) :
    session.gather headerLen (input ++ more) = session.gather headerLen input := by
  unfold gather
  rw [absorb_eq arriving, absorb_eq arriving, chunkOf_whole whole]

/-- Bytes decode when they are a text. -/
theorem decode_none (broken : ¬ Text Utf8.IsChar bytes) : Utf8.decode bytes = none := by
  cases decoded : Utf8.decode bytes with
  | none => rfl
  | some chars => exact absurd (Utf8.text_iff.mpr ⟨chars, Utf8.encode_of_decode decoded⟩) broken

theorem decode_some_of_text (isText : Text Utf8.IsChar bytes) :
    ∃ chars, Utf8.decode bytes = some chars := by
  obtain ⟨chars, same⟩ := Utf8.text_iff.mp isText
  exact ⟨chars, same ▸ Utf8.decode_encoded chars⟩

/-- What the validator says of bytes in one chunk is whether they decode. -/
theorem feed_decode (bytes : Bytes) :
    (((Utf8Validator.new.feed bytes).2.isOk = false ∨
        (Utf8Validator.new.feed bytes).1.isComplete = false) ∧ Utf8.decode bytes = none) ∨
      (Utf8Validator.new.feed bytes).2.isOk = true ∧
        (Utf8Validator.new.feed bytes).1.isComplete = true ∧
        ∃ chars, Utf8.decode bytes = some chars := by
  unfold Utf8Validator.feed
  rw [Utf8Validator.feedFrom_eq_feedBytes Simd.Reads.new.counted]
  rcases fed : Utf8Validator.new.feedBytes 0 bytes with ⟨next, error | _⟩
  · obtain ⟨position, count, -, faulty, -⟩ := Simd.Reads.new.feed_error fed []
    rw [List.append_nil] at faulty
    exact .inl ⟨.inl rfl, decode_none faulty.not_text⟩
  · obtain ⟨text, part, reads, whole⟩ := Simd.Reads.new.feed_ok fed
    rw [List.nil_append, List.nil_append] at whole
    rcases reads.finish with ⟨complete, isText⟩ | ⟨inside, faulty⟩
    · exact .inr ⟨rfl, complete, decode_some_of_text (whole ▸ isText)⟩
    · exact .inl ⟨.inr inside, decode_none (whole ▸ faulty.not_text)⟩

/-- A message in one frame is gathered as it is delivered from the input. -/
theorem gather_deliver (steady : session.Steady) (none_ : session.message = none)
    (settled : session.delivered = false) {kind : Kind} (final : header.fin = true)
    (found : getRange input header.headerLen (header.headerLen + header.len) = some payload)
    (fragments : Nat) :
    Alike
      (match deliver { session with fragments := 0 } kind (unmask payload header.mask) with
        | (session, .error code) => (session, .error code)
        | (session, .ok event) => (session, .ok ⟨header.headerLen + header.len, some event⟩))
      (gather { session with
        fragments
        message := some kind
        partialFrame := some ⟨header.fin, header.mask, header.len, 0⟩ } header.headerLen
          (input.drop header.headerLen)) := by
  obtain ⟨-, inside, same⟩ := getRange_eq_some.mp found
  rw [Nat.add_sub_cancel_left] at same
  have length := length_getRange found
  rw [Nat.add_sub_cancel_left] at length
  have chunk : chunkOf ⟨header.fin, header.mask, header.len, 0⟩ (input.drop header.headerLen) =
      unmask payload header.mask := by
    unfold chunkOf
    dsimp only
    rw [same]
    rfl
  have chunkLength : (unmask payload header.mask).length = header.len := by
    rw [length_unmask, length]
  have emptied : session.buffer = [] := by
    have idle := (steady.idle none_).2
    unfold settle at idle
    rwa [if_neg (by rw [settled]; exact Bool.false_ne_true)] at idle
  have start : session.utf8 = .new := steady.start (by rw [none_]; exact nofun)
  have nothing : session.partialFrame = none := (steady.idle none_).1
  obtain ⟨limits, state, closeReceived, message, partialFrame, buffer, delivered, utf8, fragments',
    windowStart, controlFrames, output⟩ := session
  dsimp only at emptied start nothing none_ settled
  subst emptied start nothing none_ settled
  generalize unmask payload header.mask = bytes at chunk chunkLength ⊢
  have whole : (⟨header.fin, header.mask, header.len, 0⟩ : Partial).remaining ≤ bytes.length :=
    Nat.le_of_eq chunkLength.symm
  unfold gather
  cases kind with
  | binary =>
    rw [absorb_eq rfl, chunk, validated_binary (by exact nofun), if_pos rfl, absorbed_whole whole,
      chunkLength, decide_eq_true (Nat.le_refl _), final]
    exact .ok rfl
  | text =>
    rw [absorb_eq rfl, chunk, validated_text rfl, absorbed_whole whole, chunkLength,
      decide_eq_true (Nat.le_refl _), final]
    unfold deliver
    dsimp only
    rcases feed_decode bytes with ⟨broken, undecoded⟩ | ⟨ok, complete, chars, decoded⟩
    · rw [undecoded]
      rcases fed : Utf8Validator.new.feed bytes with ⟨next, error | _⟩
      · exact @fail_alike
          ⟨limits, state, closeReceived, none, none, [], false, .new, 0, windowStart, controlFrames,
            output⟩
          ⟨limits, state, closeReceived, some .text, some ⟨true, header.mask, header.len, 0⟩, [],
            false, next, fragments, windowStart, controlFrames, output⟩ rfl rfl _
      · rw [fed] at broken
        have incomplete : next.isComplete = false := broken.resolve_left nofun
        rw [if_pos (show (next, Except.ok _).2.isOk = true from rfl)]
        dsimp only
        rw [if_pos (show (true && true) = true from rfl)]
        unfold finishMessage
        dsimp only
        rw [incomplete]
        exact @fail_alike
          ⟨limits, state, closeReceived, none, none, [], false, .new, 0, windowStart, controlFrames,
            output⟩
          ⟨limits, state, closeReceived, none, none, [] ++ bytes, true, .new, 0, windowStart,
            controlFrames, output⟩ rfl rfl _
    · rcases fed : Utf8Validator.new.feed bytes with ⟨next, error | _⟩
      · rw [fed] at ok
        cases ok
      · rw [fed] at complete
        rw [if_pos (show (next, Except.ok _).2.isOk = true from rfl)]
        dsimp only
        rw [if_pos (show (true && true) = true from rfl)]
        unfold finishMessage
        dsimp only at complete ⊢
        rw [complete, List.nil_append, decoded]
        exact .ok rfl

/-! ### Longer input -/

variable {after : Session} {step : Step}

/-- A result that stands behind octets already taken. -/
def shifted (taken : Nat) (result : Session × Except CloseCode Step) :
    Session × Except CloseCode Step :=
  (result.1, result.2.map fun step => ⟨taken + step.consumed, step.event⟩)

theorem gather_shifted (session : Session) (taken : Nat) (input : Bytes) :
    session.gather taken input = shifted taken (session.gather 0 input) := by
  unfold gather shifted
  rcases session.absorb input with ⟨after, code | ⟨used, done⟩⟩
  · rfl
  · dsimp only
    cases done with
    | false => rw [if_neg Bool.false_ne_true, if_neg Bool.false_ne_true, Nat.zero_add]; rfl
    | true =>
      rw [if_pos rfl, if_pos rfl]
      rcases after.finishMessage with ⟨last, code | event⟩
      · rfl
      · dsimp only
        rw [Nat.zero_add]
        rfl

theorem settle_settle (session : Session) : session.settle.settle = session.settle := by
  unfold settle
  split <;> rfl

/-- A feed settles the session first. -/
theorem feed_settle (session : Session) (input : Bytes) (nowMs : Nat) :
    session.settle.feed input nowMs = session.feed input nowMs := by
  unfold feed
  rw [settle_settle]

theorem settle_delivered (session : Session) : session.settle.delivered = false := by
  unfold settle
  split
  · rfl
  · rename_i settled
    exact Bool.eq_false_iff.mpr settled

/-- How a result changes with more input: not at all, or by what the session makes of it next. -/
inductive Extends (first : Session × Except CloseCode Step) (taken : Nat)
    (longer : Bytes → Session × Except CloseCode Step)
    (feed : Session → Bytes → Session × Except CloseCode Step) : Prop where
  | same (alike : ∀ more, Alike (longer more) first)
  | goesOn {next : Session} (used : first = (next, .ok ⟨taken, none⟩))
      (alike : ∀ more, more ≠ [] → Alike (longer more) (shifted taken (feed next more)))
      (takes : ∀ more, more ≠ [] → ∀ after step, feed next more = (after, .ok step) →
        0 < step.consumed)

/-- What a partial frame is fed is gathered. -/
theorem feed_gather (live : ¬ (session.state = .closed ∨ session.state = .failed))
    (settled : session.delivered = false) (arriving : session.partialFrame = some part)
    (input : Bytes) (nowMs : Nat) : session.feed input nowMs = session.gather 0 input := by
  have same : session.settle = session := by
    unfold settle
    exact if_neg (by rw [settled]; exact Bool.false_ne_true)
  unfold feed
  dsimp only
  rw [same, if_neg live, if_pos (by rw [arriving]; rfl)]

/-- A partial frame takes some of any input. -/
theorem gather_takes (arriving : session.partialFrame = some part) (awaits : 0 < part.remaining)
    (some_ : input ≠ []) (gathered : session.gather 0 input = (after, .ok step)) :
    0 < step.consumed := by
  have count : 0 < (chunkOf part input).length := by
    rw [length_chunkOf]
    have length := List.length_pos_of_ne_nil some_
    omega
  unfold gather at gathered
  rw [absorb_eq arriving] at gathered
  rcases valid : session.validated (chunkOf part input) with ⟨utf8, - | -⟩
  · rw [valid] at gathered
    cases gathered
  · rw [valid, if_pos rfl] at gathered
    dsimp only at gathered
    split at gathered
    · split at gathered
      · cases gathered
      · cases gathered
        rw [Nat.zero_add]
        exact count
    · cases gathered
      rw [Nat.zero_add]
      exact count

theorem gather_extends (counted : Simd.Counted session.utf8)
    (live : ¬ (session.state = .closed ∨ session.state = .failed))
    (settled : session.delivered = false) (arriving : session.partialFrame = some part)
    (headerLen : Nat) (input : Bytes) (nowMs : Nat) :
    Extends (session.gather headerLen input) (headerLen + input.length)
      (fun more => session.gather headerLen (input ++ more))
      (fun next more => next.feed more nowMs) := by
  by_cases whole : part.remaining ≤ input.length
  · exact .same fun more => gather_whole arriving headerLen whole more ▸ .refl _
  · have short := Nat.lt_of_not_le whole
    rcases gather_append counted arriving headerLen short with
      ⟨left, failed, longer⟩ | ⟨utf8, -, -, gathered, longer⟩
    · exact .same fun more => failed ▸ longer more
    · have length : (chunkOf part input).length = input.length := by
        rw [length_chunkOf]
        omega
      have next : (session.absorbed part (chunkOf part input) utf8).partialFrame =
          some (behind part input.length) := by
        unfold absorbed
        rw [length, if_pos (by omega)]
      have feeds : ∀ more, (session.absorbed part (chunkOf part input) utf8).feed more nowMs =
          (session.absorbed part (chunkOf part input) utf8).gather 0 more := fun more =>
        @feed_gather (session.absorbed part (chunkOf part input) utf8) _ live settled next more
          nowMs
      refine .goesOn gathered (fun more _ => ?_) fun more some_ after step fed => ?_
      · rw [feeds, ← gather_shifted]
        exact longer more
      · rw [feeds] at fed
        exact gather_takes next (by rw [behind_remaining]; omega) some_ fed

/-- The session behind the header of a data frame of a message. -/
def begun (session : Session) (kind : Kind) (header : Header) : Session :=
  { session with
    fragments := saturating 32 (session.fragments + 1)
    message := some kind
    partialFrame := some ⟨header.fin, header.mask, header.len, 0⟩ }

/-- A data frame that is taken is gathered, or delivered as it would be gathered. -/
theorem data_gather (steady : session.Steady) (settled : session.delivered = false)
    {header : Header} {kind : Kind} (belongs : session.kindOf header.opcode = some kind)
    (small : ¬ (session.limits.maxMessage < session.buffer.length + header.len ∨
      session.limits.maxFragments < saturating 32 (session.fragments + 1))) (input : Bytes) :
    Alike (session.data header input)
        ((session.begun kind header).gather header.headerLen (input.drop header.headerLen)) ∧
      (input.length < header.headerLen + header.len → session.data header input =
        (session.begun kind header).gather header.headerLen (input.drop header.headerLen)) := by
  unfold data
  rw [belongs]
  dsimp only
  rw [if_neg small]
  split
  · rename_i direct
    rw [Bool.and_eq_true, Bool.and_eq_true] at direct
    obtain ⟨⟨final, none_⟩, inside⟩ := direct
    have inside := of_decide_eq_true inside
    refine ⟨?_, fun short => absurd inside (Nat.not_le_of_lt short)⟩
    obtain ⟨payload, found⟩ : ∃ payload,
        getRange input header.headerLen (header.headerLen + header.len) = some payload :=
      ⟨_, getRange_eq_some.mpr ⟨Nat.le_add_right _ _, inside, rfl⟩⟩
    rw [found]
    exact gather_deliver steady (Option.isNone_iff_eq_none.mp none_) settled final found _
  · exact ⟨.refl _, fun _ => rfl⟩

theorem data_extends (steady : session.Steady)
    (live : ¬ (session.state = .closed ∨ session.state = .failed))
    (settled : session.delivered = false) (header : Header)
    (inside : header.headerLen ≤ input.length) (nowMs : Nat) :
    Extends (session.data header input) input.length
      (fun more => session.data header (input ++ more))
      (fun next more => next.feed more nowMs) := by
  cases belongs : session.kindOf header.opcode with
  | none =>
    refine .same fun more => ?_
    unfold data
    rw [belongs]
    exact .refl _
  | some kind =>
    by_cases small : session.limits.maxMessage < session.buffer.length + header.len ∨
        session.limits.maxFragments < saturating 32 (session.fragments + 1)
    · refine .same fun more => ?_
      unfold data
      rw [belongs]
      dsimp only
      rw [if_pos small, if_pos small]
      exact .refl _
    have gathers := data_gather steady settled belongs small
    have behindHeader : ∀ more, (input ++ more).drop header.headerLen =
        input.drop header.headerLen ++ more := fun more => List.drop_append_of_le_length inside
    by_cases whole : header.len ≤ (input.drop header.headerLen).length
    · refine .same fun more => (gathers _).1.trans ?_
      rw [behindHeader, gather_whole rfl _ whole]
      exact (gathers input).1.symm
    · have short : input.length < header.headerLen + header.len := by
        rw [List.length_drop] at whole
        omega
      have extended := @gather_extends (session.begun kind header) _ steady.counted live settled rfl
        header.headerLen (input.drop header.headerLen) nowMs
      rw [← (gathers input).2 short, List.length_drop, Nat.add_sub_cancel' inside] at extended
      cases extended with
      | same alike =>
        exact .same fun more =>
          ((gathers _).1.trans (behindHeader more ▸ .refl _)).trans (alike more)
      | goesOn used alike takes =>
        exact .goesOn used
          (fun more some_ => ((gathers _).1.trans (behindHeader more ▸ .refl _)).trans
            (alike more some_)) takes

/-- More input does not change what a whole control frame does. -/
theorem control_append (session : Session) (header : Header) (nowMs : Nat)
    (inside : header.headerLen + header.len ≤ input.length) (more : Bytes) :
    session.control header (input ++ more) nowMs = session.control header input nowMs := by
  have same : getRange (input ++ more) header.headerLen (header.headerLen + header.len) =
      getRange input header.headerLen (header.headerLen + header.len) := by
    have longer : header.headerLen + header.len ≤ (input ++ more).length := by
      rw [List.length_append]
      exact Nat.le_add_right_of_le inside
    unfold getRange
    rw [if_pos ⟨Nat.le_add_right _ _, longer⟩, if_pos ⟨Nat.le_add_right _ _, inside⟩,
      List.drop_append_of_le_length (Nat.le_of_add_right_le inside),
      List.take_append_of_le_length (by rw [List.length_drop]; omega)]
  unfold control
  dsimp only
  rw [same]

theorem settle_eq (settled : session.delivered = false) : session.settle = session := by
  unfold settle
  exact if_neg (by rw [settled]; exact Bool.false_ne_true)

/-- Longer input changes a feed only by what the session would make of it next. -/
theorem feed_extends (steady : session.Steady) (settled : session.delivered = false)
    (input : Bytes) (nowMs : Nat) :
    session.feed input nowMs = (session, .ok ⟨0, none⟩) ∨
      Extends (session.feed input nowMs) input.length
        (fun more => session.feed (input ++ more) nowMs)
        (fun next more => next.feed more nowMs) := by
  by_cases ended : session.state = .closed ∨ session.state = .failed
  · have feeds : ∀ bytes, session.feed bytes nowMs = (session, .ok ⟨bytes.length, none⟩) := by
      intro bytes
      unfold feed
      rw [settle_eq settled]
      exact if_pos ended
    refine .inr (.goesOn (feeds input) (fun more _ => ?_) fun more some_ after step fed => ?_)
    · rw [feeds, feeds, List.length_append]
      exact .refl _
    · rw [feeds] at fed
      cases fed
      exact List.length_pos_of_ne_nil some_
  · cases arriving : session.partialFrame with
    | some part =>
      have gathers : ∀ bytes, session.feed bytes nowMs = session.gather 0 bytes := fun bytes =>
        feed_gather ended settled arriving bytes nowMs
      have extended := gather_extends steady.counted ended settled arriving 0 input nowMs
      rw [Nat.zero_add] at extended
      refine .inr ?_
      rw [show (fun more => session.feed (input ++ more) nowMs) =
        fun more => session.gather 0 (input ++ more) from funext fun more => gathers _, gathers]
      exact extended
    | none =>
      have calm : ¬ session.partialFrame.isSome = true := by
        rw [arriving]
        exact Bool.false_ne_true
      have failing : ∀ bytes code, decode bytes 0 = .error code →
          session.feed bytes nowMs = (session.fail code, .error code) := by
        intro bytes code refused
        unfold feed
        dsimp only
        rw [settle_eq settled, if_neg ended, if_neg calm, refused]
      have waiting : ∀ bytes, decode bytes 0 = .ok none →
          session.feed bytes nowMs = (session, .ok ⟨0, none⟩) := by
        intro bytes short
        unfold feed
        dsimp only
        rw [settle_eq settled, if_neg ended, if_neg calm, short]
      have headed : ∀ bytes header, decode bytes 0 = .ok (some header) →
          session.feed bytes nowMs = if header.opcode.isControl then
            session.control header bytes nowMs else session.data header bytes := by
        intro bytes header known
        unfold feed
        dsimp only
        rw [settle_eq settled, if_neg ended, if_neg calm, known]
      rcases decoded : decode input 0 with code | _ | header
      · refine .inr (.same fun more => ?_)
        rw [failing input code decoded, failing (input ++ more) code
          ((decode_append (by rw [decoded]; exact nofun) more).trans decoded)]
        exact .refl _
      · exact .inl (waiting input decoded)
      · have longer : ∀ more, decode (input ++ more) 0 = .ok (some header) := fun more =>
          (decode_append (by rw [decoded]; exact nofun) more).trans decoded
        have inside := (decode_some decoded).2.1
        by_cases isControl : header.opcode.isControl = true
        · have controls : ∀ bytes, decode bytes 0 = .ok (some header) →
              session.feed bytes nowMs = session.control header bytes nowMs := by
            intro bytes known
            rw [headed bytes header known, if_pos isControl]
          rw [controls input decoded]
          by_cases whole : header.headerLen + header.len ≤ input.length
          · refine .inr (.same fun more => ?_)
            rw [controls _ (longer more), control_append session header nowMs whole]
            exact .refl _
          · left
            have missing : getRange input header.headerLen (header.headerLen + header.len) = none :=
              if_neg fun within => whole within.2
            unfold control
            dsimp only
            rw [missing]
        · have deliverData : ∀ bytes, decode bytes 0 = .ok (some header) →
              session.feed bytes nowMs = session.data header bytes := by
            intro bytes known
            rw [headed bytes header known, if_neg isControl]
          right
          rw [show (fun more => session.feed (input ++ more) nowMs) =
            fun more => session.data header (input ++ more) from
              funext fun more => deliverData _ (longer more), deliverData input decoded]
          exact data_extends steady ended settled header inside nowMs

/-! ### Between two feeds -/

variable {nowMs : Nat}

theorem Steady.new (limits : WebSocketLimits) : Steady (.new limits) where
  idle _ := ⟨rfl, rfl⟩
  live inside := absurd rfl inside
  awaits _ := nofun
  start _ := rfl
  reads := nofun

/-- Only the fields of the message in progress matter. -/
theorem Steady.congr {other : Session} (steady : session.Steady)
    (message : other.message = session.message)
    (partialFrame : other.partialFrame = session.partialFrame)
    (buffer : other.buffer = session.buffer) (delivered : other.delivered = session.delivered)
    (utf8 : other.utf8 = session.utf8) : other.Steady := by
  have settled : other.settle.buffer = session.settle.buffer := by
    unfold settle
    rw [delivered]
    split
    · rfl
    · exact buffer
  obtain ⟨idle, live, awaits, start, reads⟩ := steady
  refine ⟨?_, ?_, ?_, ?_, ?_⟩
  · rw [message, partialFrame, settled]
    exact idle
  · rw [message, delivered]
    exact live
  · rw [partialFrame]
    exact awaits
  · rw [message, utf8]
    exact start
  · rw [message, utf8, buffer]
    exact reads

theorem settle_steady (steady : session.Steady) : session.settle.Steady := by
  by_cases emptied : session.delivered = true
  · have none_ : session.message = none := by
      by_contra inside
      rw [steady.live inside] at emptied
      cases emptied
    have same : session.settle = { session with delivered := false, buffer := [] } := by
      unfold settle
      exact if_pos emptied
    have binary : session.message ≠ some .text := by
      rw [none_]
      exact nofun
    rw [same]
    exact ⟨fun _ => ⟨(steady.idle none_).1, rfl⟩, fun _ => rfl, steady.awaits,
      fun _ => steady.start binary, fun isText => absurd isText binary⟩
  · rw [settle_eq (Bool.eq_false_iff.mpr emptied)]
    exact steady

/-- What is gathered of a message is behind what was, or the message is done. -/
theorem gather_steady (arriving : session.partialFrame = some part)
    (inside : session.message ≠ none) (settled : session.delivered = false)
    (start : session.message ≠ some .text → session.utf8 = .new)
    (reads : session.message = some .text → ∃ text part, Simd.Reads session.utf8 text part ∧
      session.buffer = text ++ part) {headerLen : Nat} {input : Bytes} {after : Session}
    {step : Step} (gathered : session.gather headerLen input = (after, .ok step)) :
    after.Steady := by
  unfold gather at gathered
  rcases absorb_cases arriving input with ⟨-, -, _, failed⟩ | ⟨utf8, fed, kept, taken⟩
  · rw [failed] at gathered
    cases gathered
  rw [taken] at gathered
  dsimp only at gathered
  have validated : utf8.isComplete = true ∨ session.message = some .text := by
    by_cases isText : session.message = some .text
    · exact .inr isText
    · rw [kept isText, start isText]
      exact .inl rfl
  have going : (session.absorbed part (chunkOf part input) utf8).Steady := by
    refine ⟨fun none_ => absurd none_ inside, fun _ => settled, ?_, ?_, ?_⟩
    · intro later isLater
      unfold absorbed at isLater
      split at isLater
      · rename_i more
        cases isLater
        exact ⟨more, Nat.mod_lt _ (Nat.two_pow_pos 64)⟩
      · cases isLater
    · intro binary
      exact (kept binary).trans (start binary)
    · intro isText
      obtain ⟨text, rest, isReads, same⟩ := reads isText
      have bytes := fed isText
      unfold Utf8Validator.feed at bytes
      rw [Utf8Validator.feedFrom_eq_feedBytes isReads.counted] at bytes
      obtain ⟨text', rest', later, whole⟩ := isReads.feed_ok bytes
      refine ⟨text', rest', later, ?_⟩
      rw [whole, ← same]
      rfl
  split at gathered
  · rename_i done
    rw [Bool.and_eq_true] at done
    have whole := @absorbed_whole session _ _ utf8 (of_decide_eq_true done.1)
    rw [whole] at gathered
    unfold finishMessage at gathered
    dsimp only at gathered
    have settledNew : ∀ (other : Session), other.message = none → other.partialFrame = none →
        other.delivered = true → other.utf8 = .new → other.Steady := by
      intro other none_ idle delivered isStart
      refine ⟨fun _ => ⟨idle, ?_⟩, fun inside => absurd none_ inside, ?_, fun _ => isStart, ?_⟩
      · unfold settle
        rw [if_pos delivered]
      · rw [idle]
        exact fun _ => nofun
      · rw [none_]
        exact nofun
    cases isKind : session.message with
    | none => exact absurd isKind inside
    | some kind =>
      rw [isKind] at gathered
      cases kind with
      | binary =>
        have binary : session.message ≠ some .text := by
          rw [isKind]
          exact nofun
        cases gathered
        exact settledNew _ rfl rfl rfl ((kept binary).trans (start binary))
      | text =>
        dsimp only at gathered
        split at gathered
        · rename_i failed
          split at failed <;> cases failed
          cases gathered
        · rename_i finished
          split at finished <;> cases finished
          cases gathered
          exact settledNew _ rfl rfl rfl rfl
  · cases gathered
    exact going

theorem answer_steady (steady : session.Steady) {opcode : Opcode} {event : Event}
    (answered : session.answer opcode payload = (after, .ok event)) : after.Steady := by
  unfold answer at answered
  split at answered
  · obtain ⟨same, -⟩ := Prod.mk.inj answered
    rw [← same]
    split <;> exact steady.congr rfl rfl rfl rfl rfl
  · obtain ⟨same, -⟩ := Prod.mk.inj answered
    exact same ▸ steady
  · split at answered
    · cases (Prod.mk.inj answered).2
    · obtain ⟨same, -⟩ := Prod.mk.inj answered
      rw [← same]
      split <;> exact steady.congr rfl rfl rfl rfl rfl

theorem counted_steady (steady : session.Steady) (nowMs : Nat) :
    (session.counted nowMs).Steady := by
  unfold counted
  split <;> exact steady.congr rfl rfl rfl rfl rfl

theorem control_steady (steady : session.Steady)
    (done : session.control header input nowMs = (after, .ok step)) : after.Steady := by
  have within := counted_steady steady nowMs
  unfold control at done
  dsimp only at done
  generalize session.counted nowMs = within_ at within done
  split at done
  · cases done
    exact steady
  split at done
  · cases (Prod.mk.inj done).2
  split at done
  · cases (Prod.mk.inj done).2
  rename_i answering
  cases done
  exact answer_steady within answering

theorem data_steady (steady : session.Steady) (settled : session.delivered = false)
    (done : session.data header input = (after, .ok step)) : after.Steady := by
  unfold data at done
  split at done
  · cases done
  rename_i kind belongs
  dsimp only at done
  split at done
  · cases done
  split at done
  · split at done
    · cases done
    split at done
    · cases done
    rename_i delivered event delivering
    cases done
    unfold deliver at delivering
    split at delivering
    · cases delivering
      exact steady.congr rfl rfl rfl rfl rfl
    · split at delivering
      · cases delivering
        exact steady.congr rfl rfl rfl rfl rfl
      · cases delivering
  · have continues : session.message = some kind ∨ session.message = none := by
      unfold kindOf at belongs
      split at belongs
      · rename_i same
        exact .inl (same.trans belongs)
      · exact .inr ‹_›
      · exact .inr ‹_›
      · cases belongs
    refine @gather_steady (session.begun kind header) _ rfl nofun settled ?_ ?_ _ _ _ _ done
    · intro binary
      refine steady.start ?_
      rcases continues with same | none_
      · rw [same]
        exact binary
      · rw [none_]
        exact nofun
    · intro isText
      rcases continues with same | none_
      · exact steady.reads (same.trans isText)
      · have isStart : session.utf8 = .new := steady.start (by rw [none_]; exact nofun)
        have emptied : session.buffer = [] := settle_eq settled ▸ (steady.idle none_).2
        exact ⟨[], [], isStart ▸ Simd.Reads.new, emptied⟩

theorem feed_steady (steady : session.Steady) (fed : session.feed input nowMs = (after, .ok step)) :
    after.Steady := by
  have settledSteady := settle_steady steady
  unfold feed at fed
  dsimp only at fed
  split at fed
  · cases fed
    exact settledSteady
  split at fed
  · rename_i arriving
    obtain ⟨part, arriving⟩ := Option.isSome_iff_exists.mp arriving
    refine gather_steady arriving ?_ (settle_delivered session) settledSteady.start
      settledSteady.reads fed
    intro none_
    rw [(settledSteady.idle none_).1] at arriving
    cases arriving
  split at fed
  · cases fed
    exact settledSteady
  · cases fed
  · split at fed
    · exact control_steady settledSteady fed
    · exact data_steady settledSteady (settle_delivered session) fed

/-! ### What a feed uses -/

theorem finish_partialFrame {event : Option Event}
    (finished : session.finishMessage = (after, .ok event)) :
    after.partialFrame = session.partialFrame := by
  unfold finishMessage at finished
  dsimp only at finished
  split at finished
  · split at finished
    · cases finished
    · cases finished
      rfl
  · cases finished
    rfl
  · cases finished
    rfl

theorem gather_uses (arriving : session.partialFrame = some part) {headerLen : Nat}
    {input : Bytes} {after : Session} {step : Step}
    (gathered : session.gather headerLen input = (after, .ok step)) :
    step.consumed = headerLen + (chunkOf part input).length ∧
      (step.event ≠ none → after.partialFrame = none) := by
  unfold gather at gathered
  rcases absorb_cases arriving input with ⟨-, -, _, failed⟩ | ⟨utf8, -, -, taken⟩
  · rw [failed] at gathered
    cases gathered
  rw [taken] at gathered
  dsimp only at gathered
  split at gathered
  · rename_i done
    rw [Bool.and_eq_true] at done
    rw [absorbed_whole (of_decide_eq_true done.1)] at gathered
    split at gathered
    · cases gathered
    · rename_i finished
      cases gathered
      exact ⟨rfl, fun _ => finish_partialFrame finished⟩
  · cases gathered
    exact ⟨rfl, fun some_ => absurd rfl some_⟩

theorem control_uses (done : session.control header input nowMs = (after, .ok step)) :
    (after = session ∧ step = ⟨0, none⟩) ∨
      (step.consumed = header.headerLen + header.len ∧ step.consumed ≤ input.length) := by
  unfold control at done
  dsimp only at done
  split at done
  · cases done
    exact .inl ⟨rfl, rfl⟩
  rename_i found
  split at done
  · cases (Prod.mk.inj done).2
  split at done
  · cases (Prod.mk.inj done).2
  cases done
  exact .inr ⟨rfl, (getRange_eq_some.mp found).2.1⟩

theorem data_uses (inside : header.headerLen ≤ input.length)
    (done : session.data header input = (after, .ok step)) :
    header.headerLen ≤ step.consumed ∧ step.consumed ≤ input.length := by
  unfold data at done
  split at done
  · cases done
  dsimp only at done
  split at done
  · cases done
  split at done
  · split at done
    · cases done
    rename_i found
    split at done
    · cases done
    cases done
    exact ⟨Nat.le_add_right _ _, (getRange_eq_some.mp found).2.1⟩
  · obtain ⟨uses, -⟩ := @gather_uses { session with
      fragments := _, message := _, partialFrame := some _ } _ rfl _ _ _ _ done
    rw [length_chunkOf, List.length_drop] at uses
    omega

/-- A frame in progress uses nothing of no input, and waits. -/
theorem gather_nothing (counted : Simd.Counted session.utf8)
    (arriving : session.partialFrame = some part)
    (awaits : 0 < part.remaining ∧ part.offset < 2 ^ 64) :
    session.gather 0 [] = (session, .ok ⟨0, none⟩) := by
  have chunk : chunkOf part [] = [] := by
    unfold chunkOf
    rw [List.take_nil]
    rfl
  have unchanged : session.validated [] = (session.utf8, true) := by
    unfold validated Utf8Validator.feed
    rw [Utf8Validator.feedFrom_eq_feedBytes counted]
    split <;> rfl
  have same : session.absorbed part [] session.utf8 = session := by
    unfold absorbed behind
    rw [List.append_nil, List.length_nil, Nat.sub_zero, if_pos awaits.1, Nat.add_zero,
      Nat.mod_eq_of_lt awaits.2, ← arriving]
  unfold gather
  rw [absorb_eq arriving, chunk, unchanged, if_pos rfl, same, List.length_nil,
    decide_eq_false (Nat.not_le_of_lt awaits.1), Bool.false_and]
  rfl

/-- A feed waits with the session settled, or uses some of its input, or gathers a frame in
progress. -/
theorem feed_cases (fed : session.feed input nowMs = (after, .ok step)) :
    (after = session.settle ∧ step = ⟨0, none⟩) ∨
      (0 < step.consumed ∧ step.consumed ≤ input.length) ∨
      ∃ part, session.settle.partialFrame = some part ∧
        session.settle.gather 0 input = (after, .ok step) := by
  unfold feed at fed
  dsimp only at fed
  split at fed
  · cases fed
    rcases Nat.eq_zero_or_pos input.length with empty | some_
    · exact .inl ⟨rfl, by rw [empty]⟩
    · exact .inr (.inl ⟨some_, Nat.le_refl _⟩)
  split at fed
  · rename_i arriving
    obtain ⟨part, arriving⟩ := Option.isSome_iff_exists.mp arriving
    exact .inr (.inr ⟨part, arriving, fed⟩)
  split at fed
  · cases fed
    exact .inl ⟨rfl, rfl⟩
  · cases fed
  · rename_i header decoded
    obtain ⟨six, inside, -⟩ := decode_some decoded
    split at fed
    · rcases control_uses fed with ⟨same, waits⟩ | ⟨uses, within⟩
      · exact .inl ⟨same, waits⟩
      · exact .inr (.inl ⟨by omega, within⟩)
    · obtain ⟨uses, within⟩ := data_uses inside fed
      exact .inr (.inl ⟨by omega, within⟩)

/-- Whether a frame is in progress, as a number. -/
def awaiting (session : Session) : Nat := session.partialFrame.isSome.toNat

/-- A feed that does not wait leaves less to do. -/
theorem feed_shrinks (fed : session.feed input nowMs = (after, .ok step))
    (goes : step ≠ ⟨0, none⟩) :
    step.consumed ≤ input.length ∧ 2 * (input.length - step.consumed) + after.awaiting <
      2 * input.length + session.awaiting := by
  have few : after.awaiting ≤ 1 := Bool.toNat_le _
  rcases feed_cases fed with ⟨-, waits⟩ | ⟨uses, within⟩ | ⟨part, arriving, gathered⟩
  · exact absurd waits goes
  · exact ⟨within, by omega⟩
  · obtain ⟨uses, done⟩ := gather_uses arriving gathered
    rw [length_chunkOf, Nat.zero_add] at uses
    have awaits : session.awaiting = 1 := by
      unfold awaiting
      rw [← settle_partialFrame, arriving]
      rfl
    refine ⟨by omega, ?_⟩
    rcases Nat.eq_zero_or_pos step.consumed with nothing | some_
    · have completes : step.event ≠ none := by
        intro none_
        obtain ⟨consumed, event⟩ := step
        dsimp only at nothing none_
        exact goes (by rw [nothing, none_])
      have ended : after.awaiting = 0 := by
        unfold awaiting
        rw [done completes]
        rfl
      omega
    · omega

/-- A steady session that uses nothing waits, settled. -/
theorem feed_waits (steady : session.Steady) (fed : session.feed input nowMs = (after, .ok step))
    (nothing : step.consumed = 0) : after = session.settle ∧ step = ⟨0, none⟩ := by
  rcases feed_cases fed with waits | ⟨uses, -⟩ | ⟨part, arriving, gathered⟩
  · exact waits
  · exact absurd nothing (Nat.ne_of_gt uses)
  · have settledSteady := settle_steady steady
    obtain ⟨uses, -⟩ := gather_uses arriving gathered
    have awaits := settledSteady.awaits part arriving
    rw [length_chunkOf] at uses
    have empty : input = [] := List.length_eq_zero_iff.mp (by omega)
    rw [empty, gather_nothing settledSteady.counted arriving awaits] at gathered
    cases gathered
    exact ⟨rfl, rfl⟩

end Session

end ZeroServer.Ws
