/-
This file models the Capsule Protocol on the data stream of a request: the decoder, which holds a
DATAGRAM capsule whole when it is within the limit and hands every other capsule out in pieces, and
the encoder.

Capsules that were encoded are reported one after the other whatever the reads they arrive in, and
a stream may end behind each of them and nowhere else.
-/

import ZeroServer.H3.RoundTrip

namespace ZeroServer.H3

open Http1 Lib

/-! ### The decoder -/

/-- The capsule type of a datagram. -/
def datagram : Nat := 0x00

/-- One step of the decoder. -/
inductive CapsuleStep where
  | needMore (consumed : Nat)
  | datagram (payload : Bytes) (consumed : Nat)
  | skipped (capsuleType len consumed : Nat)
  | value (data : Bytes) (consumed : Nat) (last : Bool)
  deriving DecidableEq

/-- Where the decoder is: at the start of a capsule, or inside a skipped value with so many octets
left, none for an empty value that still owes its last piece. -/
inductive CapsuleState where
  | header
  | value (remaining : Nat)
  deriving DecidableEq

/-- The error of a stream that ends inside a capsule. -/
inductive CapsuleError where
  | capsuleTruncated
  deriving DecidableEq

structure CapsuleDecoder where
  maxDatagram : Nat
  state : CapsuleState
  deriving DecidableEq

namespace CapsuleDecoder

def new (maxDatagram : Nat) : CapsuleDecoder := ⟨maxDatagram, .header⟩

/-- Check a clean end of the stream. -/
def finish (decoder : CapsuleDecoder) (unconsumed : Bytes) : Except CapsuleError Unit :=
  let inside := match decoder.state with
    | .value remaining => decide (0 < remaining)
    | .header => false
  if inside || !unconsumed.isEmpty then .error .capsuleTruncated else .ok ()

/-- Read the capsule at the start of the input. -/
def capsule (decoder : CapsuleDecoder) (input : Bytes) : CapsuleDecoder × CapsuleStep :=
  match Varint.decode input with
  | none => (decoder, .needMore 0)
  | some (capsuleType, typeLen) =>
    match Varint.decode (input.drop typeLen) with
    | none => (decoder, .needMore 0)
    | some (len, lenLen) =>
      let headerLen := typeLen + lenLen
      if capsuleType = H3.datagram ∧ len ≤ decoder.maxDatagram then
        let total := headerLen + len
        if input.length < total then (decoder, .needMore 0)
        else (decoder, .datagram ((input.take total).drop headerLen) total)
      else ({ decoder with state := .value len }, .skipped capsuleType len headerLen)

/-- Hand out the next piece of a skipped value. -/
def piece (decoder : CapsuleDecoder) (input : Bytes) (remaining : Nat) :
    CapsuleDecoder × CapsuleStep :=
  if 0 < remaining ∧ input = [] then (decoder, .needMore 0)
  else
    let take := min remaining input.length
    let left := remaining - take
    ({ decoder with state := if left = 0 then .header else .value left },
      .value (input.take take) take (decide (left = 0)))

/-- Decode as much of the input as one step allows. -/
def decode (decoder : CapsuleDecoder) (input : Bytes) : CapsuleDecoder × CapsuleStep :=
  match decoder.state with
  | .header => decoder.capsule input
  | .value remaining => decoder.piece input remaining

end CapsuleDecoder

/-- Append a capsule, its integers in the shortest encoding. -/
def encodeCapsule (capsuleType : Nat) (value : Bytes) (out : Bytes) : Option Unit × Bytes :=
  match Varint.encodedLen capsuleType with
  | none => (none, out)
  | some _ =>
    match Varint.encodedLen value.length with
    | none => (none, out)
    | some _ =>
      match Varint.push capsuleType out with
      | (none, left) => (none, left)
      | (some (), left) =>
        match Varint.push value.length left with
        | (none, more) => (none, more)
        | (some (), more) => (some (), more ++ value)

/-! ### Reading a stream -/

/-- A capsule to send. -/
structure Capsule where
  capsuleType : Nat
  value : Bytes
  deriving DecidableEq

/-- Append capsules one after the other. -/
def encodeCapsules : List Capsule → Bytes → Option Unit × Bytes
  | [], out => (some (), out)
  | capsule :: rest, out =>
    match encodeCapsule capsule.capsuleType capsule.value out with
    | (none, left) => (none, left)
    | (some (), left) => encodeCapsules rest left

/-- The decoder and the steps it reported, other than the waits. -/
structure CapsuleReader where
  decoder : CapsuleDecoder
  reported : List CapsuleStep := []
  deriving DecidableEq

namespace CapsuleReader

def step (reader : CapsuleReader) (input : Bytes) : Progress CapsuleReader :=
  match reader.decoder.decode input with
  | (_, .needMore _) => .wait
  | (next, .datagram payload consumed) =>
    .advance ⟨next, reader.reported ++ [.datagram payload consumed]⟩ consumed
  | (next, .skipped capsuleType len consumed) =>
    .advance ⟨next, reader.reported ++ [.skipped capsuleType len consumed]⟩ consumed
  | (next, .value data consumed last) =>
    .advance ⟨next, reader.reported ++ [.value data consumed last]⟩ consumed

/-- A piece is still owed. -/
def owed (reader : CapsuleReader) : Nat :=
  match reader.decoder.state with
  | .header => 0
  | .value _ => 1

/-! ### One step -/

theorem step_header (maxDatagram : Nat) (reported : List CapsuleStep) (input : Bytes) :
    step ⟨⟨maxDatagram, .header⟩, reported⟩ input =
      match FrameHeader.parse input with
      | none => .wait
      | some ⟨capsuleType, len, headerLen⟩ =>
        if capsuleType = H3.datagram ∧ len ≤ maxDatagram then
          if input.length < headerLen + len then .wait
          else .advance ⟨⟨maxDatagram, .header⟩, reported ++
            [.datagram ((input.take (headerLen + len)).drop headerLen) (headerLen + len)]⟩
            (headerLen + len)
        else .advance ⟨⟨maxDatagram, .value len⟩, reported ++
          [.skipped capsuleType len headerLen]⟩ headerLen := by
  unfold step CapsuleDecoder.decode CapsuleDecoder.capsule FrameHeader.parse
  dsimp only
  rcases Varint.decode input with _ | ⟨capsuleType, typeLen⟩
  · rfl
  dsimp only
  rcases Varint.decode (input.drop typeLen) with _ | ⟨len, lenLen⟩
  · rfl
  dsimp only
  by_cases held : capsuleType = H3.datagram ∧ len ≤ maxDatagram
  · rw [if_pos held, if_pos held]
    by_cases short : input.length < typeLen + lenLen + len
    · rw [if_pos short, if_pos short]
    · rw [if_neg short, if_neg short]
  · rw [if_neg held, if_neg held]

theorem step_value (maxDatagram remaining : Nat) (reported : List CapsuleStep) (input : Bytes) :
    step ⟨⟨maxDatagram, .value remaining⟩, reported⟩ input =
      if 0 < remaining ∧ input = [] then .wait
      else
        let take := min remaining input.length
        let left := remaining - take
        .advance ⟨⟨maxDatagram, if left = 0 then .header else .value left⟩,
          reported ++ [.value (input.take take) take (decide (left = 0))]⟩ take := by
  unfold step CapsuleDecoder.decode CapsuleDecoder.piece
  dsimp only
  by_cases owes : 0 < remaining ∧ input = []
  · rw [if_pos owes, if_pos owes]
  · rw [if_neg owes, if_neg owes]

/-- The machine of a reader. -/
def machine : Machine CapsuleReader UInt8 where
  step := step
  size reader input := 2 * input.length + reader.owed
  smaller {reader input next taken} advanced := by
    have small : next.owed ≤ 1 := by
      unfold owed
      split <;> decide
    obtain ⟨⟨maxDatagram, - | remaining⟩, reported⟩ := reader
    · rw [step_header] at advanced
      rcases parsed : FrameHeader.parse input with _ | ⟨capsuleType, len, headerLen⟩
      · rw [parsed] at advanced
        cases advanced
      · obtain ⟨positive, inside⟩ := FrameHeader.parse_taken parsed
        rw [parsed] at advanced
        dsimp only at advanced positive inside
        have used : 0 < taken ∧ taken ≤ input.length := by
          split at advanced
          · split at advanced
            · cases advanced
            · cases advanced
              omega
          · cases advanced
            exact ⟨positive, inside⟩
        rw [List.length_drop]
        omega
    · rw [step_value] at advanced
      split at advanced
      · cases advanced
      · rename_i some_
        cases advanced
        rw [List.length_drop]
        change _ < 2 * input.length + 1
        by_cases whole : remaining - min remaining input.length = 0
        · rw [if_pos whole]
          change _ + 0 < _
          omega
        · have long := List.length_pos_of_ne_nil fun empty => some_ ⟨by omega, empty⟩
          omega

end CapsuleReader

/-- The stream from its start, in reads. -/
def readCapsules (maxDatagram : Nat) (reads : List Bytes) : Halt CapsuleReader UInt8 :=
  CapsuleReader.machine.runReads ⟨.new maxDatagram, []⟩ [] reads

/-! ### What is encoded -/

variable {capsules : List Capsule}

theorem encodeCapsule_writes (capsuleType : Nat) (value : Bytes) :
    Writes (encodeCapsule capsuleType value) (frameWire capsuleType value) := by
  have same : ∀ out, encodeCapsule capsuleType value out =
      match FrameHeader.encode capsuleType value.length out with
      | (none, left) => (none, left)
      | (some (), left) => (some (), left ++ value) := by
    intro out
    unfold encodeCapsule FrameHeader.encode
    rcases Varint.encodedLen capsuleType with _ | typeLen
    · rfl
    rcases Varint.encodedLen value.length with _ | lenLen
    · rfl
    dsimp only
    rcases Varint.push capsuleType out with ⟨- | ⟨⟩, left⟩
    · rfl
    · rfl
  intro out
  rw [same, FrameHeader.encode_writes, frameWire]
  rcases FrameHeader.wire capsuleType value.length with _ | head
  · rfl
  · rw [Option.map_some]
    dsimp only
    rw [List.append_assoc]

/-- The octets of capsules one after the other. -/
inductive Capsule.Spelled : List Capsule → Bytes → Prop
  | nil : Spelled [] []
  | cons {capsule : Capsule} {rest : List Capsule} {head bytes : Bytes}
      (headed : FrameHeader.wire capsule.capsuleType capsule.value.length = some head)
      (later : Spelled rest bytes) : Spelled (capsule :: rest) (head ++ (capsule.value ++ bytes))

theorem encodeCapsules_some {out left : Bytes} :
    encodeCapsules capsules out = (some (), left) ↔
      ∃ bytes, Capsule.Spelled capsules bytes ∧ left = out ++ bytes := by
  induction capsules generalizing out with
  | nil =>
    rw [encodeCapsules]
    constructor
    · intro encoded
      cases encoded
      exact ⟨[], .nil, (List.append_nil _).symm⟩
    · rintro ⟨_, ⟨⟩, rfl⟩
      rw [List.append_nil]
  | cons capsule rest inductionHypothesis =>
    rw [encodeCapsules, encodeCapsule_writes, frameWire]
    rcases headed : FrameHeader.wire capsule.capsuleType capsule.value.length with _ | head
    · refine ⟨fun encoded => ?_, ?_⟩
      · cases encoded
      · rintro ⟨_, spelled, rfl⟩
        cases spelled with
        | cons written later =>
          rw [headed] at written
          cases written
    · rw [Option.map_some]
      dsimp only
      rw [inductionHypothesis]
      constructor
      · rintro ⟨bytes, later, rfl⟩
        refine ⟨_, .cons headed later, ?_⟩
        rw [List.append_assoc, List.append_assoc]
      · rintro ⟨_, spelled, rfl⟩
        cases spelled with
        | @cons _ _ _ bytes written later =>
          rw [headed] at written
          cases written
          refine ⟨bytes, later, ?_⟩
          rw [List.append_assoc, List.append_assoc]

variable {before : List Capsule} {stream : Bytes}

variable {after : List Capsule}

namespace Capsule.Spelled

theorem unique {one other : Bytes} (first : Spelled capsules one)
    (second : Spelled capsules other) : one = other := by
  induction first generalizing other with
  | nil =>
    cases second
    rfl
  | cons headed later inductionHypothesis =>
    cases second with
    | cons written behind =>
      rw [headed] at written
      cases written
      rw [inductionHypothesis behind]

theorem split {wire : Bytes} (whole : Spelled (before ++ after) wire)
    (ahead : Spelled after stream) :
    ∃ consumed, Spelled before consumed ∧ wire = consumed ++ stream := by
  induction before generalizing wire with
  | nil => exact ⟨[], .nil, whole.unique ahead⟩
  | cons capsule before inductionHypothesis =>
    cases whole with
    | cons headed later =>
      obtain ⟨consumed, spelled, rfl⟩ := inductionHypothesis later
      refine ⟨_, .cons headed spelled, ?_⟩
      rw [List.append_assoc, List.append_assoc]

/-- Capsules have octets where every type and every length is an integer that can be written. -/
theorem exists_iff :
    (∃ bytes, Spelled capsules bytes) ↔ ∀ capsule ∈ capsules,
      capsule.capsuleType ≤ Varint.max ∧ capsule.value.length ≤ Varint.max := by
  induction capsules with
  | nil => exact ⟨fun _ _ member => absurd member List.not_mem_nil, fun _ => ⟨[], .nil⟩⟩
  | cons capsule rest inductionHypothesis =>
    rw [List.forall_mem_cons, ← inductionHypothesis,
      ← (headerWire_spec capsule.capsuleType capsule.value.length).1]
    constructor
    · rintro ⟨_, spelled⟩
      cases spelled with
      | @cons _ _ head bytes headed later => exact ⟨⟨head, headed⟩, bytes, later⟩
    · rintro ⟨⟨_, headed⟩, _, later⟩
      exact ⟨_, .cons headed later⟩

end Capsule.Spelled

/-! ### What is reported -/

variable {steps : List CapsuleStep}

variable {first : List CapsuleStep}

/-- A value in pieces: together they are the value, and the last one alone completes it. Only an
empty value has an empty piece. -/
inductive Pieces : Bytes → List CapsuleStep → Prop
  | last (value : Bytes) : Pieces value [.value value value.length true]
  | more {piece value : Bytes} {steps : List CapsuleStep} (carries : piece ≠ []) (owes : value ≠ [])
      (later : Pieces value steps) :
      Pieces (piece ++ value) (.value piece piece.length false :: steps)

/-- The steps that report a capsule: a datagram within the limit whole, any other capsule as one
that is skipped, then its value in pieces. -/
inductive Capsule.Reported (maxDatagram : Nat) (capsule : Capsule) : List CapsuleStep → Prop
  | held {head : Bytes} (type : capsule.capsuleType = H3.datagram)
      (within : capsule.value.length ≤ maxDatagram)
      (headed : FrameHeader.wire capsule.capsuleType capsule.value.length = some head) :
      Capsule.Reported maxDatagram capsule
        [.datagram capsule.value (head ++ capsule.value).length]
  | streamed {head : Bytes} {pieces : List CapsuleStep}
      (other : capsule.capsuleType = H3.datagram → maxDatagram < capsule.value.length)
      (headed : FrameHeader.wire capsule.capsuleType capsule.value.length = some head)
      (behind : Pieces capsule.value pieces) :
      Capsule.Reported maxDatagram capsule
        (.skipped capsule.capsuleType capsule.value.length head.length :: pieces)

/-- The steps that report capsules one after the other. -/
inductive Reports (maxDatagram : Nat) : List Capsule → List CapsuleStep → Prop
  | nil : Reports maxDatagram [] []
  | cons {capsule : Capsule} {rest : List Capsule} {first steps : List CapsuleStep}
      (one : capsule.Reported maxDatagram first) (later : Reports maxDatagram rest steps) :
      Reports maxDatagram (capsule :: rest) (first ++ steps)

theorem Reports.concat {maxDatagram : Nat} {capsule : Capsule}
    (reports : Reports maxDatagram before steps) (one : capsule.Reported maxDatagram first) :
    Reports maxDatagram (before ++ [capsule]) (steps ++ first) := by
  induction reports with
  | nil =>
    have alone : Reports maxDatagram [capsule] (first ++ []) := .cons one .nil
    rwa [List.append_nil] at alone
  | cons other later inductionHypothesis =>
    rw [List.append_assoc]
    exact .cons other inductionHypothesis

/-- What a reader reported and what is still to be read, which make up the capsules: between two
capsules, or inside one whose value goes on with the rest. -/
inductive Reading (maxDatagram : Nat) (capsules : List Capsule) : CapsuleReader → Bytes → Prop
  | outside {before after : List Capsule} {steps : List CapsuleStep} {stream : Bytes}
      (split : capsules = before ++ after) (reports : Reports maxDatagram before steps)
      (ahead : Capsule.Spelled after stream) :
      Reading maxDatagram capsules ⟨⟨maxDatagram, .header⟩, steps⟩ stream
  | inside {before after : List Capsule} {capsule : Capsule} {steps first : List CapsuleStep}
      {rest stream : Bytes} (split : capsules = before ++ capsule :: after)
      (reports : Reports maxDatagram before steps)
      (opened : ∀ pieces, Pieces rest pieces → capsule.Reported maxDatagram (first ++ pieces))
      (ahead : Capsule.Spelled after stream) :
      Reading maxDatagram capsules ⟨⟨maxDatagram, .value rest.length⟩, steps ++ first⟩
        (rest ++ stream)

namespace Reading

variable {maxDatagram : Nat} {capsules : List Capsule}

/-- A reader behind a capsule that was reported. -/
theorem passed {capsule : Capsule} (split : capsules = before ++ capsule :: after)
    (reports : Reports maxDatagram before steps) (one : capsule.Reported maxDatagram first)
    (ahead : Capsule.Spelled after stream) :
    Reading maxDatagram capsules ⟨⟨maxDatagram, .header⟩, steps ++ first⟩ stream := by
  refine .outside ?_ (reports.concat one) ahead
  rw [split, List.append_assoc]
  rfl

/-- The capsule ahead is read whole or opened, once what is shown says enough of it. -/
theorem follows_header {input later : Bytes} (split : capsules = before ++ after)
    (reports : Reports maxDatagram before steps) (ahead : Capsule.Spelled after (input ++ later)) :
    (CapsuleReader.step ⟨⟨maxDatagram, .header⟩, steps⟩ input).Keeps
      (Reading maxDatagram capsules) input later := by
  rw [CapsuleReader.step_header]
  rcases parsed : FrameHeader.parse input with _ | header
  · trivial
  have inside := (FrameHeader.parse_taken parsed).2
  have shown := FrameHeader.parse_append parsed later
  generalize stream : input ++ later = whole at ahead shown
  cases ahead with
  | nil =>
    rw [List.append_eq_nil_iff.mp stream |>.1] at parsed
    cases parsed
  | @cons capsule rest head bytes headed spelled =>
    rw [FrameHeader.parse_append (parse_header headed)] at shown
    cases shown
    dsimp only at inside ⊢
    by_cases held : capsule.capsuleType = H3.datagram ∧ capsule.value.length ≤ maxDatagram
    · rw [if_pos held]
      by_cases short : input.length < head.length + capsule.value.length
      · rw [if_pos short]
        trivial
      · have enough := Nat.le_of_not_lt short
        have payload : (input.take (head.length + capsule.value.length)).drop head.length =
            capsule.value := by
          have same := congrArg (List.take (head.length + capsule.value.length)) stream
          rw [List.take_append_of_le_length enough, ← List.append_assoc, ← List.length_append,
            List.take_left] at same
          rw [← List.length_append, same, List.drop_left]
        have left : input.drop (head.length + capsule.value.length) ++ later = bytes := by
          rw [← List.drop_append_of_le_length enough, stream, ← List.append_assoc,
            ← List.length_append, List.drop_left]
        rw [if_neg short, payload, ← List.length_append]
        rw [← List.length_append] at left
        unfold Progress.Keeps
        dsimp only
        rw [left]
        exact passed split reports (.held held.1 held.2 headed) spelled
    · rw [if_neg held]
      unfold Progress.Keeps
      dsimp only
      rw [← List.drop_append_of_le_length inside, stream, List.drop_left]
      refine .inside split reports (fun pieces behind => ?_) spelled
      exact .streamed (fun type => Nat.lt_of_not_le fun within => held ⟨type, within⟩) headed behind

/-- An open capsule goes on with what is shown of its value. -/
theorem follows_value {capsule : Capsule} {rest input later : Bytes}
    (split : capsules = before ++ capsule :: after) (reports : Reports maxDatagram before steps)
    (opened : ∀ pieces, Pieces rest pieces → capsule.Reported maxDatagram (first ++ pieces))
    (ahead : Capsule.Spelled after stream) (shown : rest ++ stream = input ++ later) :
    (CapsuleReader.step ⟨⟨maxDatagram, .value rest.length⟩, steps ++ first⟩ input).Keeps
      (Reading maxDatagram capsules) input later := by
  rw [CapsuleReader.step_value]
  by_cases waits : 0 < rest.length ∧ input = []
  · rw [if_pos waits]
    trivial
  rw [if_neg waits]
  unfold Progress.Keeps
  dsimp only
  rw [List.append_assoc]
  rcases List.append_eq_append_iff.mp shown with ⟨more, rfl, rfl⟩ | ⟨more, rfl, rfl⟩
  · have all : min rest.length (rest ++ more).length = rest.length := by
      rw [List.length_append]
      exact Nat.min_eq_left (Nat.le_add_right _ _)
    rw [all, Nat.sub_self, if_pos rfl, List.take_left, List.drop_left]
    exact passed split reports (opened _ (.last rest)) ahead
  · have all : min (input ++ more).length input.length = input.length := by
      rw [List.length_append]
      exact Nat.min_eq_right (Nat.le_add_right _ _)
    have left : (input ++ more).length - input.length = more.length := by
      rw [List.length_append, Nat.add_sub_cancel_left]
    rw [all, left, List.take_length, List.drop_length, List.nil_append]
    cases more with
    | nil =>
      rw [if_pos List.length_nil]
      rw [List.append_nil] at opened
      exact passed split reports (opened _ (.last input)) ahead
    | cons next more =>
      have carries : input ≠ [] := by
        rintro rfl
        exact waits ⟨Nat.succ_pos _, rfl⟩
      rw [if_neg (show (next :: more).length ≠ 0 from Nat.succ_ne_zero _)]
      refine .inside split reports (fun pieces behind => ?_) ahead
      rw [List.append_assoc]
      exact opened _ (.more carries nofun behind)

theorem follows : CapsuleReader.machine.Follows (Reading maxDatagram capsules) := by
  intro reader input later reading
  generalize stream : input ++ later = whole at reading
  cases reading with
  | outside split reports ahead =>
    rw [← stream] at ahead
    exact follows_header split reports ahead
  | inside split reports opened ahead =>
    exact follows_value split reports opened ahead stream.symm

variable {reader : CapsuleReader}

/-- Where a reader waits and the stream may end, it is between two capsules. -/
theorem finished {left later : Bytes}
    (reading : Reading maxDatagram capsules reader (left ++ later))
    (waits : reader.step left = .wait) (ends : reader.decoder.finish left = .ok ()) :
    ∃ before after, capsules = before ++ after ∧ Reports maxDatagram before reader.reported ∧
      Capsule.Spelled after later := by
  generalize stream : left ++ later = whole at reading
  cases reading with
  | @outside before after steps _ split reports ahead =>
    cases left with
    | nil =>
      rw [List.nil_append] at stream
      rw [← stream] at ahead
      exact ⟨before, after, split, reports, ahead⟩
    | cons => cases ends
  | @inside before after capsule steps first rest _ split reports opened ahead =>
    rw [CapsuleReader.step_value] at waits
    cases rest with
    | nil =>
      rw [if_neg fun owes => Nat.lt_irrefl _ owes.1] at waits
      cases waits
    | cons => cases ends

/-- Where a reader waits and nothing is to follow, every capsule was reported. -/
theorem ended {left : Bytes} (reading : Reading maxDatagram capsules reader left)
    (waits : reader.step left = .wait) :
    Reports maxDatagram capsules reader.reported ∧ reader.decoder.finish left = .ok () := by
  cases reading with
  | outside split reports ahead =>
    rw [CapsuleReader.step_header] at waits
    cases ahead with
    | nil =>
      rw [split, List.append_nil]
      exact ⟨reports, rfl⟩
    | @cons capsule rest head bytes headed spelled =>
      rw [FrameHeader.parse_append (parse_header headed)] at waits
      dsimp only at waits
      split at waits
      · rw [if_neg (by simp only [List.length_append]; omega)] at waits
        cases waits
      · cases waits
  | @inside before after capsule steps first rest stream split reports opened ahead =>
    rw [CapsuleReader.step_value] at waits
    split at waits
    · rename_i owes
      rw [List.append_eq_nil_iff.mp owes.2 |>.1] at owes
      exact absurd owes.1 (Nat.lt_irrefl 0)
    · cases waits

end Reading

theorem readCapsules_reading {maxDatagram : Nat} {capsules : List Capsule} {reads : List Bytes}
    {later : Bytes} (spelled : Capsule.Spelled capsules (reads.flatten ++ later)) :
    ∃ reader left, readCapsules maxDatagram reads = ⟨reader, some left⟩ ∧
      Reading maxDatagram capsules reader (left ++ later) ∧ reader.step left = .wait :=
  Reading.follows.runReads rfl reads (.outside (List.nil_append _).symm .nil spelled)

/-- Encoded capsules are reported one after the other, whatever the reads they arrive in and
whatever the limit on datagrams, and the stream they make may end behind a capsule, or before the
first one, and nowhere else. -/
theorem capsules_round_trip (maxDatagram : Nat) (capsules : List Capsule) :
    ((∃ wire, encodeCapsules capsules [] = (some (), wire)) ↔ ∀ capsule ∈ capsules,
      capsule.capsuleType ≤ Varint.max ∧ capsule.value.length ≤ Varint.max) ∧
    ∀ wire, encodeCapsules capsules [] = (some (), wire) →
      (∀ reads, reads.flatten = wire →
        ∃ reader left, readCapsules maxDatagram reads = ⟨reader, some left⟩ ∧
          Reports maxDatagram capsules reader.reported ∧ reader.decoder.finish left = .ok ()) ∧
      ∀ reads later, reads.flatten ++ later = wire →
        ∃ reader left, readCapsules maxDatagram reads = ⟨reader, some left⟩ ∧
          (reader.decoder.finish left = .ok () ↔
            ∃ whole, whole <+: capsules ∧ encodeCapsules whole [] = (some (), reads.flatten)) := by
  have complete : ∀ {whole : List Capsule} {reads : List Bytes},
      Capsule.Spelled whole reads.flatten →
      ∃ reader left, readCapsules maxDatagram reads = ⟨reader, some left⟩ ∧
        Reports maxDatagram whole reader.reported ∧ reader.decoder.finish left = .ok () := by
    intro whole reads spelled
    rw [← List.append_nil reads.flatten] at spelled
    obtain ⟨reader, left, read, reading, waits⟩ := readCapsules_reading spelled
    rw [List.append_nil] at reading
    exact ⟨reader, left, read, reading.ended waits⟩
  refine ⟨?_, fun wire encoded => ?_⟩
  · rw [← Capsule.Spelled.exists_iff]
    refine exists_congr fun wire => ?_
    rw [encodeCapsules_some]
    exact ⟨fun ⟨_, spelled, same⟩ => same ▸ spelled, fun spelled => ⟨wire, spelled, rfl⟩⟩
  obtain ⟨_, spelled, same⟩ := encodeCapsules_some.mp encoded
  rw [List.nil_append] at same
  rw [← same] at spelled
  refine ⟨?_, ?_⟩
  · rintro reads rfl
    exact complete spelled
  · rintro reads later rfl
    obtain ⟨reader, left, read, reading, waits⟩ := @readCapsules_reading maxDatagram _ _ _ spelled
    refine ⟨reader, left, read, fun ends => ?_, ?_⟩
    · obtain ⟨before, after, rfl, -, ahead⟩ := reading.finished waits ends
      obtain ⟨consumed, whole, same⟩ := spelled.split ahead
      obtain rfl := List.append_cancel_right same
      exact ⟨before, List.prefix_append _ _, encodeCapsules_some.mpr ⟨_, whole, rfl⟩⟩
    · rintro ⟨whole, -, written⟩
      obtain ⟨_, short, same⟩ := encodeCapsules_some.mp written
      rw [List.nil_append] at same
      rw [← same] at short
      obtain ⟨other, unread, again, -, ends⟩ := complete short
      rw [read] at again
      cases again
      exact ends

/-- Two capsules; the first is a datagram. -/
def twoCapsules : List Capsule := [⟨0, [97]⟩, ⟨1, []⟩]

theorem capsules_round_trip_two :
    ∃ reader left, readCapsules 4 [[0], [1, 97, 1], [0]] = ⟨reader, some left⟩ ∧
      Reports 4 twoCapsules reader.reported ∧ reader.decoder.finish left = .ok () :=
  ((capsules_round_trip 4 twoCapsules).2 [0, 1, 97, 1, 0] (by decide)).1 _ (by decide)

/-- The stream may end between the two capsules. -/
theorem capsules_cut_between :
    ¬ ∀ maxDatagram capsules wire, encodeCapsules capsules [] = (some (), wire) →
      ∀ reads later, reads.flatten ++ later = wire → later ≠ [] →
        ∃ reader left, readCapsules maxDatagram reads = ⟨reader, some left⟩ ∧
          reader.decoder.finish left = .error .capsuleTruncated := by
  intro claimed
  obtain ⟨reader, left, read, failed⟩ :=
    claimed 4 twoCapsules [0, 1, 97, 1, 0] (by decide) [[0, 1, 97]] [1, 0] (by decide) (by decide)
  have first : readCapsules 4 [[0, 1, 97]] =
      ⟨⟨.new 4, [.datagram [97] 3]⟩, some []⟩ := by rfl
  rw [first] at read
  cases read
  cases failed

end ZeroServer.H3
