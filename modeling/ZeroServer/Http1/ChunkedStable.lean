/-
This file proves that chunked decoding does not depend on how the body was cut into reads. A
run of decoder steps is first put in the form of its phases, the size line, the data, the line
end behind it and the trailer section. A run over longer input then starts as the run over the
shorter one, and goes on from where that stopped.
-/

import ZeroServer.Http1.Chunked
import ZeroServer.Http1.HeadStable

namespace ZeroServer.Http1.ChunkedDecoder

open Lib

/-! ### Runs by phase -/

section After

variable (run : Run) (ending : Ending)

@[simp] theorem Ending.after_zero : ending.after 0 = ending := by
  cases ending <;> simp [Ending.after]

theorem Ending.after_after (first second : Nat) :
    (ending.after second).after first = ending.after (first + second) := by
  cases ending <;> simp [Ending.after, Nat.add_assoc]

@[simp] theorem Run.after_nil_zero : run.after [] 0 = run := by
  simp [Run.after]

theorem Run.after_after (bytes more : Bytes) (first second : Nat) :
    (run.after more second).after bytes first = run.after (bytes ++ more) (first + second) := by
  simp [Run.after, Ending.after_after]

end After

/-- What the caller's loop makes of one step. -/
def proceed (limits : Http1Limits) (input : Bytes) : ChunkedDecoder × Except Reject Step → Run
  | (next, .ok (.data bytes consumed)) =>
    (decodeRun limits next (tail input consumed)).after bytes consumed
  | (next, .ok (.needMore consumed)) => ⟨[], .needMore next (tail input consumed) consumed⟩
  | (_, .ok (.done span consumed)) => ⟨[], .done (span.of input) consumed⟩
  | (_, .error reject) => ⟨[], .rejected reject⟩

theorem decodeRun_eq (limits : Http1Limits) (decoder : ChunkedDecoder) (input : Bytes) :
    decodeRun limits decoder input = proceed limits input (decode decoder input limits) := by
  rw [decodeRun]
  rcases decode decoder input limits with ⟨next, reject | (_ | _ | _)⟩ <;> rfl

theorem tail_tail (input : Bytes) (first second : Nat) :
    tail (tail input first) second = tail input (first + second) :=
  List.drop_drop

variable {input : Bytes}

variable {pos : Nat}

theorem span_of_tail (inside : pos ≤ input.length) (span : Span) :
    (Span.mk (span.start + pos) (span.stop + pos)).of input = span.of (tail input pos) := by
  unfold Span.of tail
  dsimp only
  rw [List.length_drop, List.drop_drop, Nat.add_sub_add_right, Nat.add_comm span.start]
  by_cases ordered : span.start ≤ span.stop ∧ span.stop ≤ input.length - pos
  · rw [if_pos (by omega), if_pos ordered]
  · rw [if_neg (by omega), if_neg ordered]

variable {limits : Http1Limits}

/-- A step over the input behind some framing, shifted by that framing, is the step with the
framing in front. -/
theorem proceed_advance (inside : pos ≤ input.length) (next : ChunkedDecoder)
    (result : Except Reject Step) :
    proceed limits input (next, result.map (advance · pos)) =
      (proceed limits (tail input pos) (next, result)).after [] pos := by
  rcases result with reject | (⟨bytes, consumed⟩ | consumed | ⟨span, consumed⟩)
  · rfl
  · simp only [Except.map, advance, proceed, Run.after_after, tail_tail, List.nil_append,
      Nat.add_comm pos]
  · simp only [Except.map, advance, proceed, Run.after, Ending.after, tail_tail, List.nil_append,
      Nat.add_comm pos]
  · simp only [Except.map, advance, proceed, Run.after, Ending.after, span_of_tail inside,
      List.nil_append, Nat.add_comm pos]

theorem decodeRun_trailers (limits : Http1Limits) (input : Bytes) :
    decodeRun limits trailers input =
      match trailerFraming limits input 0 with
      | .incomplete => ⟨[], .needMore trailers input 0⟩
      | .reject reject => ⟨[], .rejected reject⟩
      | .complete pos => ⟨[], .done ((Span.mk 0 pos).of input) (pos + 2)⟩ := by
  rw [decodeRun_eq, decode, trailerSection]
  rcases trailerFraming limits input 0 with pos | - | reject <;> rfl

variable {remaining : Nat}

/-- The run inside chunk data. -/
theorem decodeRun_data (positive : 0 < remaining) (input : Bytes) :
    decodeRun limits (data remaining) input =
      if input.length < remaining then
        ⟨input, .needMore (data (remaining - input.length)) [] input.length⟩
      else (decodeRun limits dataEnd (tail input remaining)).after (input.take remaining) remaining := by
  rw [decodeRun_eq, decode, chunkData]
  by_cases empty : input = []
  · subst empty
    rw [if_pos List.isEmpty_nil, if_pos (by simpa using positive)]
    rfl
  · rw [if_neg (by simpa using empty)]
    have nonempty := List.length_pos_of_ne_nil empty
    by_cases short : input.length < remaining
    · rw [if_pos short]
      have taken : min remaining input.length = input.length := by omega
      simp only [taken]
      rw [if_neg (by omega), proceed, decodeRun_eq, decode, chunkData]
      simp [proceed, Run.after, Ending.after, tail]
    · rw [if_neg short]
      have taken : min remaining input.length = remaining := by omega
      simp only [taken]
      rw [if_pos (by omega), proceed]

/-- Where a size line leads. -/
def afterSize (length : Nat) : ChunkedDecoder := if length = 0 then trailers else data length

theorem decodeRun_size (limits : Http1Limits) (input : Bytes) :
    decodeRun limits size input =
      match sizeFraming input limits with
      | .incomplete => ⟨[], .needMore size input 0⟩
      | .reject reject => ⟨[], .rejected reject⟩
      | .complete (length, pos) =>
        (decodeRun limits (afterSize length) (tail input pos)).after [] pos := by
  rw [decodeRun_eq, decode, sizeLine]
  rcases framed : sizeFraming input limits with ⟨length, pos⟩ | - | reject
  · have inside := (sizeFraming_stop framed).2
    dsimp only
    unfold afterSize
    by_cases last : length = 0
    · rw [if_pos last, if_pos last, proceed_advance inside, decodeRun_eq, decode]
    · rw [if_neg last, if_neg last, decodeRun_eq, decode]
      by_cases empty : (tail input pos).isEmpty = true
      · rw [if_pos empty, chunkData, if_pos empty]
        simp [proceed, Run.after, Ending.after, tail]
      · rw [if_neg empty, proceed_advance inside]
  · rfl
  · rfl

theorem decodeRun_dataEnd (limits : Http1Limits) (input : Bytes) :
    decodeRun limits dataEnd input =
      match expectCrlf input 0 with
      | .found => (decodeRun limits size (tail input 2)).after [] 2
      | .incomplete => ⟨[], .needMore dataEnd input 0⟩
      | .invalid => ⟨[], .rejected .badRequest⟩ := by
  rw [decodeRun_eq, decode]
  rcases ended : expectCrlf input 0 with - | - | -
  · dsimp only
    rw [proceed_advance (expectCrlf_found_le ended), decodeRun_eq, decode]
  · rfl
  · rfl

theorem decodeRun_done (limits : Http1Limits) (input : Bytes) :
    decodeRun limits done input = ⟨[], .done (Span.empty.of input) 0⟩ := by
  rw [decodeRun_eq, decode, proceed]

/-! ### The framing over longer input -/

variable {reject : Reject}

/-- The digits of a size are the same in longer input, unless they reached the end. -/
theorem sizeDigits_append {digits length : Nat} (rest : Bytes)
    (stops : ∀ count value, sizeDigits limits digits length input = .ok (count, value) →
      count < digits + input.length) :
    sizeDigits limits digits length (input ++ rest) = sizeDigits limits digits length input := by
  induction input generalizing digits length with
  | nil => exact absurd (stops digits length rfl) (Nat.lt_irrefl _)
  | cons byte more inductionHypothesis =>
    rw [List.cons_append, sizeDigits, sizeDigits]
    rw [sizeDigits] at stops
    rcases hexed : hexValue byte with - | digit
    · rfl
    · simp only [hexed] at stops ⊢
      by_cases many : digits + 1 > limits.maxChunkSizeDigits
      · rw [if_pos many, if_pos many]
      · simp only [if_neg many] at stops ⊢
        rcases scaled : (checkedMul length 16).bind fun scaled => checkedAdd scaled digit.toNat with
          - | larger
        · rfl
        · simp only [scaled] at stops ⊢
          refine inductionHypothesis fun count value read => ?_
          have bound := stops count value read
          rw [List.length_cons] at bound
          omega

theorem sizeFraming_append (answered : sizeFraming input limits ≠ .incomplete) (rest : Bytes) :
    sizeFraming (input ++ rest) limits = sizeFraming input limits := by
  have stops : ∀ count value, sizeDigits limits 0 0 input = .ok (count, value) →
      count < 0 + input.length := by
    intro count value read
    by_contra reached
    apply answered
    rw [sizeFraming, read]
    dsimp only
    rw [if_pos (by omega)]
  unfold sizeFraming at answered ⊢
  rw [sizeDigits_append rest stops]
  rcases read : sizeDigits limits 0 0 input with reject | ⟨digits, length⟩
  · rfl
  rw [read] at answered
  have inside := stops digits length read
  rw [Nat.zero_add] at inside
  dsimp only at answered ⊢
  rw [if_neg (Nat.not_le.mpr inside)] at answered
  rw [if_neg (show ¬ digits ≥ (input ++ rest).length by rw [List.length_append]; omega),
    if_neg (Nat.not_le.mpr inside)]
  by_cases zero : digits = 0
  · rw [if_pos zero, if_pos zero]
  rw [if_neg zero] at answered
  rw [if_neg zero, if_neg zero]
  by_cases long : scanHeaderValue (tail input digits) > limits.maxChunkExtension
  · have longer : scanHeaderValue (tail input digits) ≤
        scanHeaderValue (tail (input ++ rest) digits) := scan_tail_le input rest digits
    rw [if_pos long, if_pos (Nat.lt_of_lt_of_le long longer : _ > _)]
  rw [if_neg long] at answered
  have ended : expectCrlf input (digits + scanHeaderValue (tail input digits)) ≠ .incomplete := by
    intro open_
    rw [open_] at answered
    exact answered rfl
  have same : scanHeaderValue (tail (input ++ rest) digits) = scanHeaderValue (tail input digits) :=
    scan_tail_append (lt_of_expectCrlf ended) rest
  rw [same, if_neg long, if_neg long, expectCrlf_append ended]
  rcases found : expectCrlf input (digits + scanHeaderValue (tail input digits)) with - | - | -
  · have bound := lt_of_expectCrlf ended
    dsimp only
    rw [tail_append (by omega), List.take_append_of_le_length (by rw [length_tail]; omega)]
  · rfl
  · rfl

theorem findIdx?_append_of_some {bytes rest : Bytes} {wanted : UInt8 → Bool} {index : Nat}
    (found : bytes.findIdx? wanted = some index) :
    (bytes ++ rest).findIdx? wanted = some index := by
  rw [List.findIdx?_append, found]
  rfl

theorem trailerFraming_stop {stop : Nat}
    (complete : trailerFraming limits input pos = .complete stop) : stop + 2 ≤ input.length := by
  fun_induction trailerFraming limits input pos <;> try (cases complete)
  · rename_i second _ next
    exact byte_lt next
  · rename_i inductionHypothesis
    exact inductionHypothesis complete

/-- The turn of the trailer loop at a line whose end is in the input. -/
theorem trailerFraming_line {lineLen : Nat} {first : UInt8} (short : ¬ pos > limits.maxTrailerBytes)
    (starts : byte input pos = some first) (notLf : ¬ first = lf) (notCr : ¬ first = cr)
    (found : (tail input pos).findIdx? isLineEnd = some lineLen) :
    trailerFraming limits input pos =
      match expectCrlf input (pos + lineLen) with
      | .found => trailerFraming limits input (pos + lineLen + 2)
      | .incomplete => .incomplete
      | .invalid => .reject .badRequest := by
  rw [trailerFraming, if_neg short, starts]
  dsimp only
  rw [if_neg notLf, if_neg notCr]
  split
  · rename_i none_
    rw [found] at none_
    cases none_
  · rename_i length other
    rw [found, Option.some.injEq] at other
    subst other
    split <;> simp_all

/-- An empty line that was found stays where it is. -/
theorem trailerFraming_complete_append {stop : Nat}
    (complete : trailerFraming limits input pos = .complete stop) (rest : Bytes) :
    trailerFraming limits (input ++ rest) pos = .complete stop := by
  fun_induction trailerFraming limits input pos with
  | case5 pos short starts notLf next =>
    cases complete
    rw [trailerFraming, if_neg short, byte_append (byte_lt starts), starts]
    dsimp only
    rw [if_neg notLf, if_pos rfl, byte_append (byte_lt next), next]
    dsimp only
    rw [if_pos rfl]
  | case9 pos short first starts notLf notCr lineLen found ended inductionHypothesis =>
    have inside := byte_lt starts
    rw [trailerFraming_line short (by rw [byte_append inside, starts]) notLf notCr
      (by rw [tail_append (by omega)]; exact findIdx?_append_of_some found),
      expectCrlf_append (by simp [ended]), ended]
    exact inductionHypothesis complete
  | _ => cases complete

/-- A trailer section that was rejected never ends, whatever follows. -/
theorem trailerFraming_reject_append (refused : trailerFraming limits input pos = .reject reject)
    (rest : Bytes) (stop : Nat) : trailerFraming limits (input ++ rest) pos ≠ .complete stop := by
  fun_induction trailerFraming limits input pos with
  | case1 pos long =>
    rw [trailerFraming, if_pos long]
    exact nofun
  | case3 pos short starts =>
    rw [trailerFraming, if_neg short, byte_append (byte_lt starts), starts]
    exact nofun
  | case6 pos short second next notEnd starts notLf =>
    rw [trailerFraming, if_neg short, byte_append (byte_lt starts), starts]
    dsimp only
    rw [if_neg notLf, if_pos rfl, byte_append (byte_lt next), next]
    dsimp only
    rw [if_neg notEnd]
    exact nofun
  | case7 pos short first starts notLf notCr open_ long =>
    have inside := byte_lt starts
    have starts' : byte (input ++ rest) pos = some first := by rw [byte_append inside, starts]
    rcases later : (tail (input ++ rest) pos).findIdx? isLineEnd with - | lineLen
    · rw [trailerFraming, if_neg short, starts']
      dsimp only
      rw [if_neg notLf, if_neg notCr]
      split
      · rw [if_pos (by
          rw [length_tail] at long
          rw [length_tail, List.length_append]
          omega)]
        exact nofun
      · rename_i found
        rw [later] at found
        cases found
    · have past : (tail input pos).length ≤ lineLen := by
        rw [tail_append (by omega), List.findIdx?_append, open_] at later
        simp only [Option.none_or, Option.map_eq_some_iff] at later
        obtain ⟨index, -, same⟩ := later
        omega
      rw [trailerFraming_line short starts' notLf notCr later]
      split
      · rw [trailerFraming, if_pos (by omega)]
        exact nofun
      · exact nofun
      · exact nofun
  | case9 pos short first starts notLf notCr lineLen found ended inductionHypothesis =>
    have inside := byte_lt starts
    rw [trailerFraming_line short (by rw [byte_append inside, starts]) notLf notCr
      (by rw [tail_append (by omega)]; exact findIdx?_append_of_some found),
      expectCrlf_append (by simp [ended]), ended]
    exact inductionHypothesis refused
  | case11 pos short first starts notLf notCr lineLen found ended =>
    have inside := byte_lt starts
    rw [trailerFraming_line short (by rw [byte_append inside, starts]) notLf notCr
      (by rw [tail_append (by omega)]; exact findIdx?_append_of_some found),
      expectCrlf_append (by simp [ended]), ended]
    exact nofun
  | _ => cases refused

/-! ### Runs over longer input -/

variable {more : Bytes}

/-- Inside data there is data to deliver. -/
def WellFormed (decoder : ChunkedDecoder) : Prop := decoder ≠ data 0

/-- How a run over more input follows one over less: it goes on where that needed more, it is
the same when the body ended there, and when that was rejected it emits the same data and does
not reach the end. -/
def Continues (limits : Http1Limits) (more : Bytes) (run longer : Run) : Prop :=
  match run.ending with
  | .needMore decoder rest consumed => decoder.WellFormed ∧
      longer = (decodeRun limits decoder (rest ++ more)).after run.data consumed
  | .done _ _ => longer = run
  | .rejected _ => longer.data = run.data ∧ ∀ section_ consumed, longer.ending ≠ .done section_ consumed

theorem Continues.after {run longer : Run} (continues : Continues limits more run longer)
    (bytes : Bytes) (used : Nat) :
    Continues limits more (run.after bytes used) (longer.after bytes used) := by
  rcases run with ⟨emitted, (⟨decoder, rest, consumed⟩ | ⟨section_, consumed⟩ | reject)⟩
  · obtain ⟨wellFormed, rfl⟩ := continues
    exact ⟨wellFormed, Run.after_after _ _ _ _ _⟩
  · obtain rfl : longer = _ := continues
    rfl
  · obtain ⟨same, open_⟩ := continues
    refine ⟨congrArg (bytes ++ ·) same, fun section_ consumed ended => ?_⟩
    rcases longer with ⟨data, (⟨decoder, rest, count⟩ | ⟨found, count⟩ | reason)⟩
    · cases ended
    · exact open_ found count rfl
    · cases ended

theorem afterSize_wellFormed (length : Nat) : (afterSize length).WellFormed := by
  unfold afterSize WellFormed
  by_cases last : length = 0
  · rw [if_pos last]
    exact nofun
  · rw [if_neg last]
    exact fun same => last (ChunkedDecoder.data.inj same)

theorem weight_le (decoder : ChunkedDecoder) : weight decoder ≤ 1 := by
  cases decoder <;> simp [weight]

/-- A run that used nothing goes on with its whole input. -/
theorem continues_stuck {decoder : ChunkedDecoder} (wellFormed : decoder.WellFormed)
    (stuck : decodeRun limits decoder input = ⟨[], .needMore decoder input 0⟩) :
    Continues limits more (decodeRun limits decoder input)
      (decodeRun limits decoder (input ++ more)) := by
  rw [stuck]
  exact ⟨wellFormed, (Run.after_nil_zero _).symm⟩

/-- A rejected run goes on with nothing. -/
theorem continues_rejected {longer : Run} (silent : longer.data = [])
    (open_ : ∀ section_ consumed, longer.ending ≠ .done section_ consumed) :
    Continues limits more ⟨[], .rejected reject⟩ longer :=
  ⟨silent, open_⟩

/-- Data that ends inside the longer input is the data of both parts. -/
theorem decodeRun_data_append (short : input.length < remaining) (more : Bytes) :
    decodeRun limits (data remaining) (input ++ more) =
      (decodeRun limits (data (remaining - input.length)) more).after input input.length := by
  rw [decodeRun_data (by omega), decodeRun_data (by omega), List.length_append]
  by_cases still : input.length + more.length < remaining
  · rw [if_pos still, if_pos (by omega)]
    simp [Run.after, Ending.after, Nat.sub_sub]
  · rw [if_neg still, if_neg (by omega), Run.after_after, Nat.add_sub_of_le (by omega)]
    congr 1
    · unfold tail
      rw [List.drop_append, List.drop_eq_nil_of_le (by omega), List.nil_append]
    · rw [List.take_append, List.take_of_length_le (by omega)]

theorem continues_trailers (limits : Http1Limits) (more input : Bytes) :
    Continues limits more (decodeRun limits trailers input)
      (decodeRun limits trailers (input ++ more)) := by
  rcases framed : trailerFraming limits input 0 with pos | - | reject
  · have inside := trailerFraming_stop framed
    rw [decodeRun_trailers, decodeRun_trailers, framed, trailerFraming_complete_append framed]
    dsimp only
    rw [Span.of_append (by dsimp only; omega)]
    rfl
  · refine continues_stuck nofun ?_
    rw [decodeRun_trailers, framed]
  · have open_ := trailerFraming_reject_append framed more
    rw [decodeRun_trailers limits input, framed]
    rw [decodeRun_trailers]
    rcases later : trailerFraming limits (input ++ more) 0 with pos | - | reason
    · exact absurd later (open_ pos)
    · exact continues_rejected rfl nofun
    · exact continues_rejected rfl nofun

/-- A run over longer input starts as the run over the shorter one. -/
theorem decodeRun_continues (limits : Http1Limits) (more : Bytes) (decoder : ChunkedDecoder)
    (input : Bytes) (wellFormed : decoder.WellFormed) :
    Continues limits more (decodeRun limits decoder input)
      (decodeRun limits decoder (input ++ more)) := by
  match decoder with
  | size =>
    rcases framed : sizeFraming input limits with ⟨length, pos⟩ | - | reject
    · obtain ⟨positive, inside⟩ := sizeFraming_stop framed
      have small := weight_le (afterSize length)
      have inner := decodeRun_continues limits more (afterSize length) (tail input pos)
        (afterSize_wellFormed length)
      rw [decodeRun_size, decodeRun_size, sizeFraming_append (by simp [framed]), framed]
      dsimp only
      rw [tail_append inside]
      exact inner.after [] pos
    · refine continues_stuck wellFormed ?_
      rw [decodeRun_size, framed]
    · rw [decodeRun_size, decodeRun_size, sizeFraming_append (by simp [framed]), framed]
      exact continues_rejected rfl nofun
  | data remaining =>
    have positive : 0 < remaining :=
      Nat.pos_of_ne_zero fun zero => wellFormed (congrArg data zero)
    by_cases short : input.length < remaining
    · rw [decodeRun_data_append short, decodeRun_data positive, if_pos short]
      refine ⟨fun same => ?_, rfl⟩
      have zero := ChunkedDecoder.data.inj same
      omega
    · have inner := decodeRun_continues limits more dataEnd (tail input remaining) nofun
      rw [decodeRun_data positive, decodeRun_data positive, if_neg short,
        if_neg (by rw [List.length_append]; omega), tail_append (by omega),
        List.take_append_of_le_length (by omega)]
      exact inner.after _ remaining
  | dataEnd =>
    rcases ended : expectCrlf input 0 with - | - | -
    · have inside := expectCrlf_found_le ended
      have inner := decodeRun_continues limits more size (tail input 2) nofun
      rw [decodeRun_dataEnd, decodeRun_dataEnd, expectCrlf_append (by simp [ended]), ended]
      dsimp only
      rw [tail_append (by omega)]
      exact inner.after [] 2
    · refine continues_stuck wellFormed ?_
      rw [decodeRun_dataEnd, ended]
    · rw [decodeRun_dataEnd, decodeRun_dataEnd, expectCrlf_append (by simp [ended]), ended]
      exact continues_rejected rfl nofun
  | trailers => exact continues_trailers limits more input
  | done =>
    rw [decodeRun_done, decodeRun_done]
    rfl
termination_by 2 * input.length + weight decoder
decreasing_by
  · rw [length_tail]
    omega
  · rw [length_tail]
    simp only [weight]
    omega
  · rw [length_tail]
    simp only [weight]
    omega

/-! ### Bodies that arrive in reads -/

variable {ending : Ending}

/-- What a run left is left again by a run over it. -/
theorem decodeRun_rest {decoder next : ChunkedDecoder} {rest : Bytes} {consumed : Nat}
    (wellFormed : decoder.WellFormed)
    (ended : (decodeRun limits decoder input).ending = .needMore next rest consumed) :
    next.WellFormed ∧ decodeRun limits next rest = ⟨[], .needMore next rest 0⟩ := by
  have continues := decodeRun_continues limits [] decoder input wellFormed
  unfold Continues at continues
  rw [ended, List.append_nil] at continues
  obtain ⟨nextWellFormed, same⟩ := continues
  rw [List.append_nil] at same
  refine ⟨nextWellFormed, ?_⟩
  have data := congrArg Run.data same
  have ending := congrArg Run.ending same
  rw [ended] at ending
  rcases again : decodeRun limits next rest with ⟨emitted, (⟨other, left, count⟩ | _ | _)⟩
  · rw [again] at data ending
    obtain rfl : emitted = [] := by simpa [Run.after] using data
    simp only [Run.after, Ending.after, Ending.needMore.injEq] at ending
    obtain ⟨rfl, rfl, counts⟩ := ending
    obtain rfl : count = 0 := by omega
    rfl
  · rw [again] at ending
    cases ending
  · rw [again] at ending
    cases ending

/-- The ending of a run behind another that needed more. -/
theorem Ending.after_eq_done {used consumed : Nat} {section_ : Bytes} :
    ending.after used = .done section_ consumed ↔
      ∃ count, ending = .done section_ count ∧ consumed = used + count := by
  cases ending <;> simp [Ending.after, eq_comm]

theorem Ending.after_eq_rejected {used : Nat} :
    ending.after used = .rejected reject ↔ ending = .rejected reject := by
  cases ending <;> simp [Ending.after]

/-- Reads that go on from where a run stopped: the end of the body is found in the same place,
and a rejection comes after the same data. -/
theorem runReads_agrees (limits : Http1Limits) (reads : List Bytes) (decoder : ChunkedDecoder)
    (rest : Bytes) (wellFormed : decoder.WellFormed)
    (stuck : decodeRun limits decoder rest = ⟨[], .needMore decoder rest 0⟩) :
    (∀ section_ consumed,
      (decodeRun limits decoder (rest ++ reads.flatten)).ending = .done section_ consumed →
        runReads limits decoder rest reads = decodeRun limits decoder (rest ++ reads.flatten)) ∧
    ∀ reject, (decodeRun limits decoder (rest ++ reads.flatten)).ending = .rejected reject →
      (runReads limits decoder rest reads).data =
          (decodeRun limits decoder (rest ++ reads.flatten)).data ∧
        ∃ reason, (runReads limits decoder rest reads).ending = .rejected reason := by
  induction reads generalizing decoder rest with
  | nil =>
    rw [List.flatten_nil, List.append_nil, stuck]
    exact ⟨nofun, nofun⟩
  | cons read reads inductionHypothesis =>
    have continues := decodeRun_continues limits reads.flatten decoder (rest ++ read) wellFormed
    rw [List.flatten_cons, ← List.append_assoc]
    rcases first : decodeRun limits decoder (rest ++ read) with
      ⟨emitted, (⟨next, left, used⟩ | ⟨section_, used⟩ | reject)⟩
    · obtain ⟨nextWellFormed, nextStuck⟩ := decodeRun_rest wellFormed (congrArg Run.ending first)
      obtain ⟨done_, rejected⟩ := inductionHypothesis next left nextWellFormed nextStuck
      rw [first] at continues
      obtain ⟨-, whole⟩ := continues
      rw [whole]
      simp only [runReads, first, Run.after, Ending.after_eq_done, Ending.after_eq_rejected]
      constructor
      · rintro found consumed ⟨count, ended, -⟩
        rw [done_ found count ended]
      · rintro reason ended
        obtain ⟨same, reason', again⟩ := rejected reason ended
        exact ⟨by rw [same], reason', again⟩
    · rw [first] at continues
      have whole : decodeRun limits decoder (rest ++ read ++ reads.flatten) =
          ⟨emitted, .done section_ used⟩ := continues
      rw [whole]
      simp only [runReads, first]
      exact ⟨fun _ _ _ => trivial, nofun⟩
    · rw [first] at continues
      obtain ⟨same, open_⟩ := continues
      simp only [runReads, first]
      exact ⟨fun section_ consumed ended => absurd ended (open_ section_ consumed),
        fun _ _ => ⟨same.symm, reject, rfl⟩⟩

/-- Chunked decoding does not depend on how the body was cut into reads. -/
theorem runReads_partition (limits : Http1Limits) (body : Bytes) (reads : List Bytes)
    (partition : reads.flatten = body) :
    (∀ section_ consumed, (decodeRun limits new body).ending = .done section_ consumed →
      (runReads limits new [] reads).data = (decodeRun limits new body).data ∧
        (runReads limits new [] reads).ending = .done section_ consumed) ∧
    ∀ reject, (decodeRun limits new body).ending = .rejected reject →
      (runReads limits new [] reads).data = (decodeRun limits new body).data ∧
        (∃ reason, (runReads limits new [] reads).ending = .rejected reason) ∧
        ∀ section_ consumed, (runReads limits new [] reads).ending ≠ .done section_ consumed := by
  have stuck : decodeRun limits new [] = ⟨[], .needMore new [] 0⟩ := by
    rw [new, decodeRun_size]
    rfl
  obtain ⟨done_, rejected⟩ := runReads_agrees limits reads new [] nofun stuck
  rw [List.nil_append, partition] at done_ rejected
  constructor
  · intro section_ consumed ended
    rw [done_ section_ consumed ended]
    exact ⟨rfl, ended⟩
  · intro reject ended
    obtain ⟨same, reason, again⟩ := rejected reject ended
    refine ⟨same, ⟨reason, again⟩, fun section_ consumed found => ?_⟩
    rw [again] at found
    cases found

/-- A body cut inside a size, a line end and the last chunk, and a size that is no number. -/
theorem runReads_partition_hello :
    ((runReads .default new [] [ascii "5", ascii "\r\nhel", ascii "lo\r", ascii "\n0\r\n\r\n"]).data =
        ascii "hello" ∧
      (runReads .default new [] [ascii "5", ascii "\r\nhel", ascii "lo\r", ascii "\n0\r\n\r\n"]).ending =
        .done [] 15) ∧
    (runReads .default new [] [ascii "1\r\na\r", ascii "\nz\r\n"]).data = ascii "a" ∧
      ∃ reason, (runReads .default new [] [ascii "1\r\na\r", ascii "\nz\r\n"]).ending =
        .rejected reason := by
  have whole : decodeRun .default new (ascii "5\r\nhello\r\n0\r\n\r\n") =
      ⟨ascii "hello", .done [] 15⟩ := by
    decide +kernel
  have broken : decodeRun .default new (ascii "1\r\na\r\nz\r\n") =
      ⟨ascii "a", .rejected .badRequest⟩ := by
    decide +kernel
  obtain ⟨data, ended⟩ := (runReads_partition .default _ [ascii "5", ascii "\r\nhel", ascii "lo\r",
    ascii "\n0\r\n\r\n"] (by decide)).1 [] 15 (congrArg Run.ending whole)
  obtain ⟨brokenData, refused, -⟩ := (runReads_partition .default _ [ascii "1\r\na\r",
    ascii "\nz\r\n"] (by decide)).2 .badRequest (congrArg Run.ending broken)
  exact ⟨⟨by rw [data, whole], ended⟩, by rw [brokenData, broken], refused⟩

end ZeroServer.Http1.ChunkedDecoder
