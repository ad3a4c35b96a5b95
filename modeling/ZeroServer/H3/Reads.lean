/-
This file proves that the frames read off an HTTP/3 stream do not depend on how it was cut into
reads, and that every streamed payload keeps its step protocol: one header step, then pieces that
add up to the length of the frame, the last of them and no other marked.
-/

import ZeroServer.H3.Decoder

namespace ZeroServer.H3

open Http1 Lib

variable {input : Bytes}

namespace FrameDecoder

/-! ### What a step can do -/

variable {header : FrameHeader} {decoder : FrameDecoder}

variable {next : Sequence}

/-- The state inside a streamed payload. -/
def streamed (data : Bool) (remaining : Nat) : State :=
  if data then .data remaining else .discard remaining

/-- The header step of a streamed frame, and the state it leads to. -/
inductive Opens (header : FrameHeader) : Step → State → Prop
  | data (type : header.frameType = FrameType.data) :
      Opens header (.data [] header.headerLen false) (streamed true header.len)
  | skipped (unknown : FrameType.isKnown header.frameType = false) :
      Opens header (.skipped header.frameType header.len header.headerLen)
        (streamed false header.len)
  | oversized {limits : FrameLimits} {limit : Nat}
      (bounded : holdLimit limits header.frameType = some limit) (long : limit < header.len) :
      Opens header (.oversized header.frameType header.len header.headerLen)
        (streamed false header.len)

theorem Opens.consumed {step : Step} {state : State} (opens : Opens header step state) :
    step.consumed = header.headerLen := by
  cases opens <;> rfl

/-- What the decoder can do at the start of a frame. -/
inductive Starts (decoder : FrameDecoder) (input : Bytes) :
    FrameDecoder × Except Error Step → Prop
  | needMore : Starts decoder input (decoder, .ok (.needMore 0))
  | refused (refused : Error) : Starts decoder input (decoder, .error refused)
  | opened {header : FrameHeader} {next : Sequence} {step : Step} {state : State}
      (parsed : FrameHeader.parse input = some header)
      (checked : decoder.check header.frameType = .ok next) (opens : Opens header step state) :
      Starts decoder input ({ decoder with sequence := next, state := state }, .ok step)
  | whole {header : FrameHeader} {next : Sequence} {frame : Frame}
      (parsed : FrameHeader.parse input = some header)
      (checked : decoder.check header.frameType = .ok next)
      (inside : header.headerLen + header.len ≤ input.length) :
      Starts decoder input
        ({ decoder with sequence := next }, .ok (.frame frame (header.headerLen + header.len)))

theorem held_starts (parsed : FrameHeader.parse input = some header)
    (checked : decoder.check header.frameType = .ok next) :
    Starts decoder input (decoder.held input header next) := by
  unfold held
  split
  · exact .refused _
  · dsimp only
    split
    · exact .needMore
    · rename_i inside
      split
      · exact .refused _
      · exact .whole parsed checked (Nat.le_of_not_lt inside)

/-- A type the codec does not know leaves the sequence as it is. -/
theorem check_unknown {frameType : FrameType} (unknown : FrameType.isKnown frameType = false)
    (checked : decoder.check frameType = .ok next) : next = decoder.sequence := by
  unfold check at checked
  split at checked
  · cases checked
  · split at checked
    · cases checked
    · rw [unknown] at checked
      cases checked
      rfl

theorem frame_starts (decoder : FrameDecoder) (input : Bytes) :
    Starts decoder input (decoder.frame input) := by
  unfold frame
  split
  · exact .needMore
  · rename_i header parsed
    split
    · exact .refused _
    · rename_i next checked
      split
      · rename_i type
        exact .opened parsed checked (.data type)
      · split
        · rename_i unknown
          have same := check_unknown (Bool.not_eq_true' _ ▸ unknown) checked
          have opened := Starts.opened parsed checked (.skipped (Bool.not_eq_true' _ ▸ unknown))
          rw [same] at opened
          exact opened
        · split
          · exact held_starts parsed checked
          · rename_i limit bounded
            split
            · exact .refused _
            · split
              · rename_i long
                exact .opened parsed checked (.oversized bounded long)
              · exact held_starts parsed checked

theorem held_append (more : Bytes) :
    decoder.held input header next = (decoder, .ok (.needMore 0)) ∨
      decoder.held (input ++ more) header next = decoder.held input header next := by
  unfold held
  split
  · exact .inr rfl
  · dsimp only
    by_cases short : input.length < header.headerLen + header.len
    · rw [if_pos short]
      exact .inl rfl
    · have inside := Nat.le_of_not_lt short
      rw [if_neg short, if_neg (by rw [List.length_append]; omega),
        List.take_append_of_le_length inside]
      exact .inr rfl

/-- At the start of a frame longer input changes only the need for more. -/
theorem frame_append (decoder : FrameDecoder) (input more : Bytes) :
    decoder.frame input = (decoder, .ok (.needMore 0)) ∨
      decoder.frame (input ++ more) = decoder.frame input := by
  unfold frame
  rcases parsed : FrameHeader.parse input with _ | header
  · exact .inl rfl
  · rw [FrameHeader.parse_append parsed more]
    dsimp only
    rcases decoder.check header.frameType with refused | next
    · exact .inr rfl
    · dsimp only
      split
      · exact .inr rfl
      · split
        · exact .inr rfl
        · split
          · exact held_append more
          · split
            · exact .inr rfl
            · split
              · exact .inr rfl
              · exact held_append more

theorem Starts.consumed {next : FrameDecoder} {step : Step}
    (starts : Starts decoder input (next, .ok step)) : step.consumed ≤ input.length := by
  generalize result : (next, Except.ok step) = outcome at starts
  cases starts with
  | needMore =>
    cases result
    exact Nat.zero_le _
  | refused _ => cases result
  | opened parsed checked opens =>
    cases result
    rw [opens.consumed]
    exact (FrameHeader.parse_taken parsed).2
  | whole parsed checked inside =>
    cases result
    exact inside

/-- What is left of a payload decides the state behind a piece of it. -/
def behind (data : Bool) (left : Nat) : State := if left = 0 then .header else streamed data left

/-- A piece of a payload as a step. -/
def pieceStep (data : Bool) (octets : Bytes) (last : Bool) : Step :=
  if data then .data octets octets.length last else .discarded octets octets.length last

theorem piece_eq (decoder : FrameDecoder) (input : Bytes) (remaining : Nat) (data : Bool) :
    decoder.piece input remaining data =
      if 0 < remaining ∧ input = [] then (decoder, .needMore 0)
      else ({ decoder with state := behind data (remaining - min remaining input.length) },
        pieceStep data (input.take remaining)
          (decide (remaining - min remaining input.length = 0))) := by
  have octets : (input.take remaining).length = min remaining input.length := List.length_take
  have same : input.take (min remaining input.length) = input.take remaining :=
    List.take_eq_take_min.symm
  unfold piece behind streamed pieceStep
  dsimp only
  rw [octets, same]
  simp only [decide_eq_true_eq]

theorem decode_streamed {data : Bool} {remaining : Nat}
    (inside : decoder.state = streamed data remaining) (input : Bytes) :
    decoder.decode input =
      if 0 < remaining ∧ input = [] then (decoder, .ok (.needMore 0))
      else ({ decoder with state := behind data (remaining - min remaining input.length) },
        .ok (pieceStep data (input.take remaining)
          (decide (remaining - min remaining input.length = 0)))) := by
  have handed : decoder.decode input = ((decoder.piece input remaining data).1,
      .ok (decoder.piece input remaining data).2) := by
    unfold decode
    rw [inside]
    cases data
    · rfl
    · rfl
  rw [handed, piece_eq]
  split
  · rfl
  · rfl

theorem decode_header (outside : decoder.state = .header) (input : Bytes) :
    decoder.decode input = decoder.frame input := by
  unfold decode
  rw [outside]

theorem state_cases (decoder : FrameDecoder) :
    decoder.state = .header ∨ ∃ data remaining, decoder.state = streamed data remaining := by
  rcases decoder.state with _ | remaining | remaining
  · exact .inl rfl
  · exact .inr ⟨true, remaining, rfl⟩
  · exact .inr ⟨false, remaining, rfl⟩

end FrameDecoder

namespace Reader

open FrameDecoder

variable (caller : Caller)

/-! ### The reader as a machine -/

variable {reader : Reader}

/-- A payload of no octets still owes its last piece. -/
def owed (reader : Reader) : Nat :=
  match reader.decoder.state with
  | .data 0 | .discard 0 => 1
  | _ => 0

theorem call_state (moment : Moment) (reader : Reader) :
    (reader.call caller moment).decoder.state = reader.decoder.state := by
  unfold call
  dsimp only
  generalize reader.decoder = decoder
  induction caller reader.frames moment generalizing decoder with
  | nil => rfl
  | cons call rest inductionHypothesis =>
    rw [List.foldl_cons, inductionHypothesis]
    cases call with
    | tunnel =>
      unfold Call.apply tunnel
      dsimp only
      split <;> rfl
    | finalResponse =>
      unfold Call.apply finalResponse
      dsimp only
      split <;> rfl

theorem opened_state (reader : Reader) (event : Event) :
    (reader.opened caller event).decoder.state = reader.decoder.state := call_state caller _ _

theorem whole_state (reader : Reader) :
    (reader.whole caller).decoder.state = reader.decoder.state := call_state caller _ _

theorem extended_state (reader : Reader) (octets : Bytes) (last : Bool) :
    (reader.extended caller octets last).decoder.state = reader.decoder.state := by
  unfold extended
  dsimp only
  split
  · exact whole_state caller _
  · rfl

/-- What a step inside a payload makes of the reader. -/
theorem step_streamed {reader : Reader} {data : Bool} {remaining : Nat}
    (inside : reader.decoder.state = streamed data remaining) (input : Bytes) :
    reader.step caller input =
      if 0 < remaining ∧ input = [] then .wait
      else .advance (({ reader with
          decoder := { reader.decoder with
            state := behind data (remaining - min remaining input.length) } } : Reader).extended
          caller (input.take remaining) (decide (remaining - min remaining input.length = 0)))
        (min remaining input.length) := by
  have octets : (input.take remaining).length = min remaining input.length := List.length_take
  unfold step
  rw [decode_streamed inside]
  by_cases empty : 0 < remaining ∧ input = []
  · rw [if_pos empty, if_pos empty]
  · rw [if_neg empty, if_neg empty, ← octets]
    unfold pieceStep observe
    rw [inside]
    cases data
    · rfl
    · rfl

/-- What a step at the start of a frame makes of the reader. -/
inductive Stepped (reader : Reader) (input : Bytes) : Progress Reader → Prop
  | wait : Stepped reader input .wait
  | fail (refused : Error) : Stepped reader input (.fail { reader with failure := some refused })
  | opened {header : FrameHeader} {next : Sequence} {step : Step} {state : State} (event : Event)
      (parsed : FrameHeader.parse input = some header) (opens : Opens header step state)
      (decoded : (reader.decoder.decode input).2 = .ok step) :
      Stepped reader input (.advance (({ reader with
        decoder := { reader.decoder with sequence := next, state := state } } : Reader).opened
          caller event) header.headerLen)
  | whole {next : Sequence} {frame : Frame} {taken : Nat} (inside : taken ≤ input.length)
      (used : 0 < taken) (decoded : (reader.decoder.decode input).2 = .ok (.frame frame taken)) :
      Stepped reader input (.advance (({ reader with
        decoder := { reader.decoder with sequence := next }
        events := reader.events ++ [.frame frame] } : Reader).whole caller) taken)

theorem step_header (outside : reader.decoder.state = .header) (input : Bytes) :
    Stepped caller reader input (reader.step caller input) := by
  have starts := frame_starts reader.decoder input
  have decoded := congrArg Prod.snd (decode_header outside input)
  unfold step
  rw [decode_header outside]
  generalize reader.decoder.frame input = outcome at starts decoded
  cases starts with
  | needMore => exact .wait
  | refused refused => exact .fail refused
  | @opened header next step state parsed checked opens =>
    have taken := opens.consumed
    have event : ∃ event, reader.observe caller
        { reader.decoder with sequence := next, state := state } step =
        ({ reader with decoder := { reader.decoder with sequence := next, state := state } } :
          Reader).opened caller event := by
      unfold observe
      cases opens with
      | data _ =>
        dsimp only
        rw [outside, if_pos rfl]
        exact ⟨_, rfl⟩
      | skipped _ => exact ⟨_, rfl⟩
      | oversized _ _ => exact ⟨_, rfl⟩
    obtain ⟨event, observed⟩ := event
    have result := @Stepped.opened caller reader input header next step state event parsed opens
      decoded
    rw [← observed, ← taken] at result
    cases opens with
    | data _ => exact result
    | skipped _ => exact result
    | oversized _ _ => exact result
  | whole parsed checked inside =>
    exact .whole inside (Nat.add_pos_left (FrameHeader.parse_taken parsed).1 _) decoded

theorem step_append (outside : reader.decoder.state = .header) (input more : Bytes)
    (answered : reader.step caller input ≠ .wait) :
    reader.step caller (input ++ more) = reader.step caller input := by
  unfold step at answered ⊢
  rw [decode_header outside] at answered ⊢
  rw [decode_header outside]
  rcases frame_append reader.decoder input more with waits | same
  · rw [waits] at answered
    exact absurd rfl answered
  · rw [same]

/-- The machine of a reader. -/
def machine : Machine Reader UInt8 where
  step := step caller
  size reader input := 2 * input.length + reader.owed
  smaller {reader input next taken} advanced := by
    rcases state_cases reader.decoder with outside | ⟨data, remaining, inside⟩
    · have stepped := step_header caller outside input
      rw [advanced] at stepped
      have small : ∀ reader : Reader, reader.owed ≤ 1 := by
        intro reader
        unfold owed
        split <;> decide
      have used : 0 < taken ∧ taken ≤ input.length := by
        generalize outcome : Progress.advance next taken = progress at stepped
        cases stepped with
        | wait => cases outcome
        | fail _ => cases outcome
        | opened event parsed opens decoded =>
          cases outcome
          exact FrameHeader.parse_taken parsed
        | whole inside used decoded =>
          cases outcome
          exact ⟨used, inside⟩
      have least := small next
      rw [List.length_drop]
      omega
    · rw [step_streamed caller inside] at advanced
      split at advanced
      · cases advanced
      · rename_i some_
        cases advanced
        have owes : reader.owed = if remaining = 0 then 1 else 0 := by
          unfold owed
          rw [inside]
          cases data <;> cases remaining <;> rfl
        have free : (({ reader with
            decoder := { reader.decoder with
              state := behind data (remaining - min remaining input.length) } } : Reader).extended
            caller (input.take remaining)
            (decide (remaining - min remaining input.length = 0))).owed = 0 := by
          unfold owed
          rw [extended_state]
          dsimp only
          unfold behind streamed
          cases remaining - min remaining input.length <;> cases data <;> simp
        rw [free, owes, List.length_drop]
        by_cases none_ : remaining = 0
        · rw [if_pos none_]
          omega
        · have more : input ≠ [] := fun empty => some_ ⟨Nat.pos_of_ne_zero none_, empty⟩
          have long := List.length_pos_of_ne_nil more
          rw [if_neg none_]
          omega

/-! ### Any cut into reads -/

/-- The events with a further piece of the last one's payload. -/
def extend (events : List Event) (octets : Bytes) (last : Bool) : List Event :=
  events.dropLast ++ (events.getLast?.map (·.extend octets last)).toList

theorem extend_extend (events : List Event) (first second : Bytes) (flag last : Bool) :
    extend (extend events first flag) second last = extend events (first ++ second) last := by
  rcases events.eq_nil_or_concat with rfl | ⟨earlier, event, rfl⟩
  · rfl
  · have one : ∀ octets flag, extend (earlier ++ [event]) octets flag =
        earlier ++ [event.extend octets flag] := by
      intro octets flag
      unfold extend
      rw [List.dropLast_concat, List.getLast?_concat]
      rfl
    have again : extend (earlier ++ [event.extend first flag]) second last =
        earlier ++ [(event.extend first flag).extend second last] := by
      unfold extend
      rw [List.dropLast_concat, List.getLast?_concat]
      rfl
    rw [List.concat_eq_append, one, one, again]
    cases event with
    | frame _ => rfl
    | data payload _ => exact congrArg (earlier ++ [Event.data · last]) (List.append_assoc ..)
    | skipped frameType len payload _ =>
      exact congrArg (earlier ++ [Event.skipped frameType len · last]) (List.append_assoc ..)
    | oversized frameType len payload _ =>
      exact congrArg (earlier ++ [Event.oversized frameType len · last]) (List.append_assoc ..)

/-- Two pieces of a payload are as good as one. -/
theorem extended_extended (reader : Reader) (first second : Bytes) (last : Bool) (state : State) :
    ({ reader.extended caller first false with
        decoder := { (reader.extended caller first false).decoder with state := state } } :
        Reader).extended caller second last =
      ({ reader with decoder := { reader.decoder with state := state } } : Reader).extended caller
        (first ++ second) last := by
  have joined := extend_extend reader.events first second false last
  unfold extend at joined
  unfold extended
  simp only [Bool.false_eq_true, if_false]
  rw [joined]

theorem segmentable : (machine caller).Segmentable (fun _ => True) (· = ·) where
  refl _ := rfl
  trans first second := first.trans second
  kept _ _ := trivial
  inside {reader input next taken} advanced := by
    rcases state_cases reader.decoder with outside | ⟨data, remaining, inside⟩
    · have stepped := step_header caller outside input
      change reader.step caller input = _ at advanced
      rw [advanced] at stepped
      generalize outcome : Progress.advance next taken = progress at stepped
      cases stepped with
      | wait => cases outcome
      | fail _ => cases outcome
      | opened event parsed opens decoded =>
        cases outcome
        exact (FrameHeader.parse_taken parsed).2
      | whole inside used decoded =>
        cases outcome
        exact inside
    · change reader.step caller input = _ at advanced
      rw [step_streamed caller inside] at advanced
      split at advanced
      · cases advanced
      · cases advanced
        exact Nat.min_le_right _ _
  related {left right} _ _ same input := by
    subst same
    rcases (machine caller).step left input with _ | ⟨next, taken⟩ | final
    · exact .wait
    · exact .advance rfl
    · exact .fail rfl
  failed {reader input final} _ failed more := by
    change reader.step caller input = _ at failed
    refine ⟨final, ?_, rfl⟩
    rcases state_cases reader.decoder with outside | ⟨data, remaining, inside⟩
    · rw [← failed]
      exact step_append caller outside input more (by rw [failed]; nofun)
    · rw [step_streamed caller inside] at failed
      split at failed <;> cases failed
  advanced {reader input next taken} _ advanced more := by
    change reader.step caller input = _ at advanced
    change (∃ other, reader.step caller (input ++ more) = _ ∧ _) ∨
      (_ ∧ (reader.step caller (input ++ more)).Joins _ _ (next.step caller more))
    rcases state_cases reader.decoder with outside | ⟨data, remaining, inside⟩
    · refine .inl ⟨next, ?_, rfl⟩
      rw [← advanced]
      exact step_append caller outside input more (by rw [advanced]; nofun)
    · rw [step_streamed caller inside] at advanced
      split at advanced
      · cases advanced
      · rename_i some_
        cases advanced
        by_cases fits : remaining ≤ input.length
        · refine .inl ⟨_, ?_, rfl⟩
          have whole : min remaining (input ++ more).length = min remaining input.length := by
            rw [List.length_append]
            omega
          have longer : ¬ (0 < remaining ∧ input ++ more = []) := fun both =>
            some_ ⟨both.1, (List.append_eq_nil_iff.mp both.2).1⟩
          rw [step_streamed caller inside, if_neg longer, whole, List.take_append_of_le_length fits]
        · have all : min remaining input.length = input.length := by omega
          have left : ¬ remaining - input.length = 0 := by omega
          by_cases nothing : more = []
          · rw [nothing, List.append_nil]
            refine .inl ⟨_, ?_, rfl⟩
            rw [step_streamed caller inside, if_neg some_]
          · refine .inr ⟨all, ?_⟩
            have longer : ¬ (0 < remaining ∧ input ++ more = []) := fun both =>
              nothing (List.append_eq_nil_iff.mp both.2).2
            have inner : streamed data (remaining - input.length) =
                behind data (remaining - input.length) := by
              unfold behind
              rw [if_neg left]
            have taken : input.take remaining = input :=
              List.take_of_length_le (Nat.le_of_not_le fits)
            have together : min remaining (input ++ more).length =
                input.length + min (remaining - input.length) more.length := by
              rw [List.length_append]
              omega
            have rest : remaining - (input.length + min (remaining - input.length) more.length) =
                remaining - input.length - min (remaining - input.length) more.length := by omega
            have octets : (input ++ more).take remaining =
                input ++ more.take (remaining - input.length) := by
              rw [List.take_append, taken]
            rw [step_streamed caller inside, if_neg longer, together, rest, octets, all, taken,
              decide_eq_false left]
            rw [@step_streamed caller _ data (remaining - input.length)
              (by rw [extended_state, inner]), if_neg fun both => nothing both.2]
            refine .advance ?_
            rw [extended_extended]

/-! ### The step protocol -/

/-- The steps of a stream, each with the octets it was shown, and the payload that is still open: of
a DATA frame or not, and how many octets of it are to come. A streamed payload is opened by its
header step with the length of the frame; every piece is octets from the front of the input, it is
marked exactly when nothing is left behind it, and only the piece of an empty payload is empty. -/
inductive Paced : List (Bytes × Step) → Option (Bool × Nat) → Prop
  | nil : Paced [] none
  | frame {steps : List (Bytes × Step)} (before : Paced steps none) (input : Bytes) (frame : Frame)
      (taken : Nat) : Paced (steps ++ [(input, .frame frame taken)]) none
  | header {steps : List (Bytes × Step)} (before : Paced steps none) {input : Bytes}
      {header : FrameHeader} {step : Step} {data : Bool}
      (parsed : FrameHeader.parse input = some header)
      (opens : Opens header step (streamed data header.len)) :
      Paced (steps ++ [(input, step)]) (some (data, header.len))
  | piece {steps : List (Bytes × Step)} {data : Bool} {octets rest : Bytes} {left : Nat}
      (before : Paced steps (some (data, octets.length + left))) (some_ : octets ≠ [])
      (more : left ≠ 0) :
      Paced (steps ++ [(octets ++ rest, pieceStep data octets false)]) (some (data, left))
  | last {steps : List (Bytes × Step)} {data : Bool} {octets rest : Bytes}
      (before : Paced steps (some (data, octets.length))) :
      Paced (steps ++ [(octets ++ rest, pieceStep data octets true)]) none

/-- The payload a decoder is inside. -/
def openPayload : State → Option (Bool × Nat)
  | .header => none
  | .data remaining => some (true, remaining)
  | .discard remaining => some (false, remaining)

theorem openPayload_streamed (data : Bool) (remaining : Nat) :
    openPayload (streamed data remaining) = some (data, remaining) := by
  cases data <;> rfl

/-- The steps of a trace of the reader. -/
def shown (log : List (Reader × Bytes)) : List (Bytes × Step) :=
  log.filterMap fun entry =>
    ((entry.1.decoder.decode entry.2).2.toOption).map fun step => (entry.2, step)

theorem shown_concat (log : List (Reader × Bytes)) {step : Step}
    (decoded : (reader.decoder.decode input).2 = .ok step) :
    shown (log ++ [(reader, input)]) = shown log ++ [(input, step)] := by
  unfold shown
  rw [List.filterMap_append]
  refine congrArg (_ ++ ·) (List.filterMap_cons_some ?_)
  dsimp only
  rw [decoded]
  rfl

/-- One step keeps the protocol. -/
theorem paced_step {next : Reader} {taken : Nat} {log : List (Reader × Bytes)}
    (paced : Paced (shown log) (openPayload reader.decoder.state))
    (advanced : reader.step caller input = .advance next taken) :
    Paced (shown (log ++ [(reader, input)])) (openPayload next.decoder.state) := by
  rcases state_cases reader.decoder with outside | ⟨data, remaining, inside⟩
  · have stepped := step_header caller outside input
    rw [advanced] at stepped
    rw [outside] at paced
    generalize outcome : Progress.advance next taken = progress at stepped
    cases stepped with
    | wait => cases outcome
    | fail _ => cases outcome
    | @opened header _ step state event parsed opens decoded =>
      cases outcome
      rw [shown_concat log decoded, opened_state]
      obtain ⟨data, rfl⟩ : ∃ data, state = streamed data header.len := by
        cases opens with
        | data _ => exact ⟨true, rfl⟩
        | skipped _ => exact ⟨false, rfl⟩
        | oversized _ _ => exact ⟨false, rfl⟩
      rw [openPayload_streamed]
      exact .header paced parsed opens
    | whole _ _ decoded =>
      cases outcome
      rw [shown_concat log decoded, whole_state, outside]
      exact .frame paced input _ _
  · rw [step_streamed caller inside] at advanced
    rw [inside, openPayload_streamed] at paced
    split at advanced
    · cases advanced
    · rename_i some_
      have decoded := congrArg Prod.snd (decode_streamed inside input)
      rw [if_neg some_] at decoded
      cases advanced
      have length : (input.take remaining).length = min remaining input.length := List.length_take
      have split_ : input = input.take remaining ++ input.drop remaining :=
        (List.take_append_drop _ _).symm
      rw [shown_concat log decoded, extended_state]
      dsimp only
      by_cases done : remaining - min remaining input.length = 0
      · have all : min remaining input.length = remaining := by omega
        have ended : behind data (remaining - min remaining input.length) = .header := by
          unfold behind
          rw [if_pos done]
        rw [ended, decide_eq_true done]
        have before : Paced (shown log) (some (data, (input.take remaining).length)) := by
          rw [length, all]
          exact paced
        have result := @Paced.last _ data _ (input.drop remaining) before
        rw [← split_] at result
        exact result
      · have further : behind data (remaining - min remaining input.length) =
            streamed data (remaining - min remaining input.length) := by
          unfold behind
          rw [if_neg done]
        rw [further, openPayload_streamed, decide_eq_false done]
        have before : Paced (shown log) (some (data,
            (input.take remaining).length + (remaining - min remaining input.length))) := by
          rw [length, Nat.add_sub_cancel' (Nat.min_le_left _ _)]
          exact paced
        have nonempty : input.take remaining ≠ [] := by
          intro empty
          rw [empty, List.length_nil] at length
          refine some_ ⟨by omega, List.eq_nil_of_length_eq_zero ?_⟩
          omega
        have result := @Paced.piece _ data _ (input.drop remaining) _ before nonempty done
        rw [← split_] at result
        exact result

end Reader

/-! ### Segmentation -/

/-- A failed call leaves the decoder as it was, and no call consumes more than it was shown. -/
theorem FrameDecoder.decode_frame (decoder : FrameDecoder) (input : Bytes) :
    (∀ refused, (decoder.decode input).2 = .error refused → (decoder.decode input).1 = decoder) ∧
    (∀ step, (decoder.decode input).2 = .ok step → step.consumed ≤ input.length) ∧
    (∀ consumed, (decoder.decode input).2 = .ok (.needMore consumed) →
      consumed = 0 ∧ (decoder.decode input).1 = decoder) := by
  rcases state_cases decoder with outside | ⟨data, remaining, inside⟩
  · have starts := frame_starts decoder input
    rw [decode_header outside]
    generalize decoder.frame input = outcome at starts
    refine ⟨fun refused failed => ?_, fun step stepped => ?_, fun consumed waits => ?_⟩
    · cases starts with
      | refused _ => rfl
      | _ => cases failed
    · obtain ⟨next, result⟩ := outcome
      change result = _ at stepped
      subst stepped
      exact starts.consumed
    · cases starts with
      | needMore =>
        cases waits
        exact ⟨rfl, rfl⟩
      | refused _ => cases waits
      | opened parsed checked opens => cases opens <;> cases waits
      | whole _ _ _ => cases waits
  · rw [decode_streamed inside]
    split
    · refine ⟨nofun, fun step stepped => ?_, fun consumed waits => ?_⟩
      · cases stepped
        exact Nat.zero_le _
      · cases waits
        exact ⟨rfl, rfl⟩
    · refine ⟨nofun, fun step stepped => ?_, fun consumed waits => ?_⟩
      · cases stepped
        unfold pieceStep
        cases data <;> exact List.length_take_le' _ _
      · unfold pieceStep at waits
        cases data <;> cases waits

/-- However a stream is cut into reads, what is read of it, the error it fails with, the octets left
over and the result of its end are those of the whole stream read at once, for every stream kind,
role and limits and for every caller that calls behind the same frames. In any order of reads and
steps each streamed payload keeps its protocol. No call consumes more than it was shown, and a
failed one leaves the decoder as it was. -/
theorem decode_segmented (kind : StreamKind) (role : Role) (limits : FrameLimits) (caller : Caller)
    (stream : Bytes) :
    (∀ reads : List Bytes, reads.flatten = stream →
      let whole := (Reader.machine caller).run (Reader.new kind role limits) stream
      let cut := (Reader.machine caller).runReads (Reader.new kind role limits) [] reads
      cut.state.events = whole.state.events ∧ cut.state.failure = whole.state.failure ∧
        cut.rest = whole.rest ∧
        cut.rest.map cut.state.decoder.finish = whole.rest.map whole.state.decoder.finish) ∧
    (∀ (log : List (Reader × Bytes)) (last : Reader) (left : Bytes),
      (Reader.machine caller).Trace (Reader.new kind role limits) [] log last left →
        Reader.Paced (Reader.shown log) (Reader.openPayload last.decoder.state)) ∧
    ∀ decoder : FrameDecoder,
      (∀ refused, (decoder.decode stream).2 = .error refused →
        (decoder.decode stream).1 = decoder) ∧
      ∀ step, (decoder.decode stream).2 = .ok step → step.consumed ≤ stream.length := by
  refine ⟨fun reads cut => ?_, fun log last left trace => ?_, fun decoder => ?_⟩
  · have quiet : (Reader.machine caller).step (Reader.new kind role limits) [] = .wait := rfl
    obtain ⟨state, rest⟩ := (Reader.segmentable caller).runReads_flatten trivial quiet reads
    rw [List.nil_append, cut] at state rest
    dsimp only
    rw [← state, ← rest]
    exact ⟨rfl, rfl, rfl, rfl⟩
  · have start : Reader.Paced (Reader.shown [])
        (Reader.openPayload (Reader.new kind role limits).decoder.state) := .nil
    exact Lib.Machine.Trace.keeps
      (motive := fun reader log =>
        Reader.Paced (Reader.shown log) (Reader.openPayload reader.decoder.state))
      trace start (Reader.paced_step caller)
  · obtain ⟨failed, consumed, -⟩ := decoder.decode_frame stream
    exact ⟨failed, consumed⟩

/-- A request with a body, cut inside both headers and inside the payload. -/
def uploadReads : List Bytes := [[1], [1, 7, 0], [3, 97], [98, 99]]

theorem decode_segmented_upload :
    ((Reader.machine fun _ _ => []).runReads (Reader.new .request .server ⟨16, 16⟩) []
        uploadReads).state.events = [.frame (.headers [7]), .data [97, 98, 99] true] ∧
      Reader.Paced (Reader.shown [(Reader.new .request .server ⟨16, 16⟩, uploadReads.flatten)])
        none ∧
      ((FrameDecoder.new .request .server ⟨16, 16⟩).decode [0, 3, 97]).1 =
        .new .request .server ⟨16, 16⟩ := by
  have segmented := decode_segmented .request .server ⟨16, 16⟩ fun _ _ => []
  have trace : (Reader.machine fun _ _ => []).Trace (Reader.new .request .server ⟨16, 16⟩) []
      [(Reader.new .request .server ⟨16, 16⟩, uploadReads.flatten)] _ _ :=
    .arrive uploadReads.flatten (.step rfl (.nil _ _))
  refine ⟨?_, (segmented []).2.1 _ _ _ trace, ?_⟩
  · rw [((segmented uploadReads.flatten).1 uploadReads rfl).1]
    decide
  · exact ((segmented [0, 3, 97]).2.2 _).1 (.outOfSequence 0) rfl

end ZeroServer.H3
