/-
This file embeds the chunked transfer coding: the streaming decoder over the caller's buffer
and the encoder. A decoder step is given the unconsumed bytes and answers with data, with
"need more", with the end of the body, or with a closing rejection. The caller's loop, which
drops what a step consumed and calls again, is `decodeRun`; a body that arrives in reads is
`runReads`.
-/

import ZeroServer.Http1.Head

namespace ZeroServer.Http1

open Lib

/-- The bytes that end a chunk's data. -/
def chunkEnd : Bytes := crlf

/-- The last chunk with no trailers, including the final CRLF. -/
def lastChunk : Bytes := ascii "0\r\n\r\n"

/-- The longest chunk header the encoder writes: sixteen hex digits and CRLF. -/
def maxChunkHeaderLen : Nat := 18

/-- A streaming decoder, by where it is in the chunked body. -/
inductive ChunkedDecoder where
  | size
  | data (remaining : Nat)
  | dataEnd
  | trailers
  | done
  deriving DecidableEq

namespace ChunkedDecoder

def new : ChunkedDecoder := size

/-- One step of decoding, with the input bytes it used. -/
inductive Step where
  | data (bytes : Bytes) (consumed : Nat)
  | needMore (consumed : Nat)
  | done (trailers : Span) (consumed : Nat)
  deriving DecidableEq

/-- Shifts a step's consumed count by the framing bytes before it. -/
def advance (step : Step) (by_ : Nat) : Step :=
  match step with
  | .data bytes consumed => .data bytes (consumed + by_)
  | .needMore consumed => .needMore (consumed + by_)
  | .done span consumed => .done ⟨span.start + by_, span.stop + by_⟩ (consumed + by_)

/-- The value of a hexadecimal digit. -/
def hexValue (byte : UInt8) : Option UInt8 :=
  if 48 ≤ byte ∧ byte ≤ 57 then some (byte - 48)
  else if 97 ≤ byte ∧ byte ≤ 102 then some (byte - 97 + 10)
  else if 65 ≤ byte ∧ byte ≤ 70 then some (byte - 65 + 10)
  else none

/-- Checks `chunk-ext`: optional bad whitespace, then `;`. -/
def validExtension (extension : Bytes) : Bool :=
  byte extension (extension.findIdx fun byte => !isOws byte) == some 59

/-- The digits of a chunk size, with the number already read and their value: how many there
are and what they say. -/
def sizeDigits (limits : Http1Limits) (digits length : Nat) : Bytes → Except Reject (Nat × Nat)
  | [] => .ok (digits, length)
  | byte :: rest =>
    match hexValue byte with
    | none => .ok (digits, length)
    | some digit =>
      if digits + 1 > limits.maxChunkSizeDigits then .error .badRequest
      else
        match (checkedMul length 16).bind fun scaled => checkedAdd scaled digit.toNat with
        | none => .error .badRequest
        | some length => sizeDigits limits (digits + 1) length rest

/-- A chunk-size line: the size and where the line ends. -/
def sizeFraming (input : Bytes) (limits : Http1Limits) : Verdict Reject (Nat × Nat) :=
  match sizeDigits limits 0 0 input with
  | .error reject => .reject reject
  | .ok (digits, length) =>
    if digits ≥ input.length then .incomplete
    else if digits = 0 then .reject .badRequest
    else
      let extensionLen := scanHeaderValue (tail input digits)
      if extensionLen > limits.maxChunkExtension then .reject .badRequest
      else
        match expectCrlf input (digits + extensionLen) with
        | .incomplete => .incomplete
        | .invalid => .reject .badRequest
        | .found =>
          let extension := (tail input digits).take extensionLen
          if !extension.isEmpty && !validExtension extension then .reject .badRequest
          else .complete (length, digits + extensionLen + 2)

def isLineEnd (byte : UInt8) : Bool := byte == cr || byte == lf

/-- Finds the empty line that ends the trailer section: its offset. -/
def trailerFraming (limits : Http1Limits) (input : Bytes) (pos : Nat) : Verdict Reject Nat :=
  if pos > limits.maxTrailerBytes then .reject .headerFieldsTooLarge
  else
    match byte input pos with
    | none => .incomplete
    | some first =>
      if first = lf then .reject .badRequest
      else if first = cr then
        match byte input (pos + 1) with
        | none => .incomplete
        | some second => if second = lf then .complete pos else .reject .badRequest
      else
        match (tail input pos).findIdx? isLineEnd with
        | none =>
          if (tail input pos).length > limits.maxTrailerBytes then .reject .headerFieldsTooLarge
          else .incomplete
        | some lineLen =>
          match ended : expectCrlf input (pos + lineLen) with
          | .found => trailerFraming limits input (pos + lineLen + 2)
          | .incomplete => .incomplete
          | .invalid => .reject .badRequest
termination_by input.length - pos
decreasing_by
  have := expectCrlf_found_le ended
  omega

/-- The trailer section: field lines up to an empty line, all of which must be present. -/
def trailerSection (input : Bytes) (limits : Http1Limits) :
    ChunkedDecoder × Except Reject Step :=
  match trailerFraming limits input 0 with
  | .incomplete => (trailers, .ok (.needMore 0))
  | .reject reject => (trailers, .error reject)
  | .complete pos => (done, .ok (.done ⟨0, pos⟩ (pos + 2)))

/-- Chunk data, with this many octets still to deliver. -/
def chunkData (remaining : Nat) (input : Bytes) : ChunkedDecoder × Except Reject Step :=
  if input.isEmpty then (data remaining, .ok (.needMore 0))
  else
    let take := min remaining input.length
    let left := remaining - take
    (if left = 0 then dataEnd else data left, .ok (.data (input.take take) take))

/-- A chunk-size line and what follows it. -/
def sizeLine (input : Bytes) (limits : Http1Limits) : ChunkedDecoder × Except Reject Step :=
  match sizeFraming input limits with
  | .incomplete => (size, .ok (.needMore 0))
  | .reject reject => (size, .error reject)
  | .complete (length, pos) =>
    if length = 0 then
      let (decoder, result) := trailerSection (tail input pos) limits
      (decoder, result.map (advance · pos))
    else if (tail input pos).isEmpty then (data length, .ok (.needMore pos))
    else
      let (decoder, result) := chunkData length (tail input pos)
      (decoder, result.map (advance · pos))

/-- Decodes as much of the input as one step allows. -/
def decode (decoder : ChunkedDecoder) (input : Bytes) (limits : Http1Limits) :
    ChunkedDecoder × Except Reject Step :=
  match decoder with
  | size => sizeLine input limits
  | data remaining => chunkData remaining input
  | dataEnd =>
    match expectCrlf input 0 with
    | .found =>
      let (decoder, result) := sizeLine (tail input 2) limits
      (decoder, result.map (advance · 2))
    | .incomplete => (dataEnd, .ok (.needMore 0))
    | .invalid => (dataEnd, .error .badRequest)
  | trailers => trailerSection input limits
  | done => (done, .ok (.done Span.empty 0))

/-! ### The caller's loop -/

variable {consumed : Nat} {next : ChunkedDecoder} {limits : Http1Limits}

variable {input bytes : Bytes} {decoder : ChunkedDecoder}

/-- How a run of decoder steps ended, with the input bytes it used: inside the framing with the
bytes that must be presented again, at the end of the body with the trailer section, or
rejected. -/
inductive Ending where
  | needMore (decoder : ChunkedDecoder) (rest : Bytes) (consumed : Nat)
  | done (trailers : Bytes) (consumed : Nat)
  | rejected (reject : Reject)
  deriving DecidableEq

/-- The ending of a run behind one that used some bytes. -/
def Ending.after (ending : Ending) (used : Nat) : Ending :=
  match ending with
  | .needMore decoder rest consumed => .needMore decoder rest (used + consumed)
  | .done section_ consumed => .done section_ (used + consumed)
  | .rejected reject => .rejected reject

/-- A run of decoder steps: the data they emitted and how it ended. -/
structure Run where
  data : Bytes
  ending : Ending
  deriving DecidableEq

/-- The run behind steps that emitted data and used some bytes. -/
def Run.after (run : Run) (bytes : Bytes) (used : Nat) : Run :=
  ⟨bytes ++ run.data, run.ending.after used⟩

theorem chunkData_eq_data {remaining : Nat}
    (step : chunkData remaining input = (next, .ok (.data bytes consumed))) :
    input ≠ [] ∧ consumed = min remaining input.length ∧ bytes.length = consumed := by
  unfold chunkData at step
  split at step
  · cases step
  · rename_i some_
    cases step
    refine ⟨by simpa using some_, rfl, ?_⟩
    rw [List.length_take]
    omega

/-- A trailer section holds no data. -/
theorem trailerSection_ne_data (input : Bytes) (limits : Http1Limits) (bytes : Bytes)
    (consumed : Nat) : (trailerSection input limits).2 ≠ .ok (.data bytes consumed) := by
  unfold trailerSection
  rcases trailerFraming limits input 0 with stop | - | reject <;> simp

theorem sizeFraming_stop {length pos : Nat}
    (complete : sizeFraming input limits = .complete (length, pos)) :
    0 < pos ∧ pos ≤ input.length := by
  unfold sizeFraming at complete
  split at complete
  · cases complete
  split at complete
  · cases complete
  split at complete
  · cases complete
  dsimp only at complete
  split at complete
  · cases complete
  split at complete
  · cases complete
  · cases complete
  rename_i found
  split at complete
  · cases complete
  · cases complete
    exact ⟨Nat.succ_pos _, expectCrlf_found_le found⟩

theorem sizeLine_eq_data (step : sizeLine input limits = (next, .ok (.data bytes consumed))) :
    0 < consumed ∧ consumed ≤ input.length ∧ bytes.length ≤ consumed := by
  unfold sizeLine at step
  split at step
  · cases step
  · cases step
  · rename_i length pos framed
    obtain ⟨positive, inside⟩ := sizeFraming_stop framed
    split at step
    · have none_ := trailerSection_ne_data (tail input pos) limits
      rcases ended : trailerSection (tail input pos) limits with ⟨decoder, reject | (_ | _ | _)⟩
      · rw [ended] at step
        cases step
      · rw [ended] at none_
        exact absurd rfl (none_ _ _)
      · rw [ended] at step
        cases step
      · rw [ended] at step
        cases step
    · split at step
      · cases step
      · rcases taken : chunkData length (tail input pos) with ⟨decoder, reject | (_ | _ | _)⟩
        · rw [taken] at step
          cases step
        · rw [taken] at step
          cases step
          obtain ⟨-, rfl, emitted⟩ := chunkData_eq_data taken
          rw [tail, List.length_drop] at emitted ⊢
          omega
        · rw [taken] at step
          cases step
        · rw [taken] at step
          cases step

/-- Inside data a step that emits none moves on, so it counts too. -/
def weight : ChunkedDecoder → Nat
  | data _ => 1
  | _ => 0

/-- Behind the data of a chunk a step that emits data reads the next size line too. -/
theorem dataEnd_eq_data (step : decode .dataEnd input limits = (next, .ok (.data bytes consumed))) :
    2 ≤ input.length ∧ ∃ used, consumed = used + 2 ∧
      sizeLine (tail input 2) limits = (next, .ok (.data bytes used)) := by
  unfold decode at step
  dsimp only at step
  split at step
  · rename_i found
    refine ⟨expectCrlf_found_le found, ?_⟩
    rcases lined : sizeLine (tail input 2) limits with ⟨decoder, reject | (_ | _ | _)⟩
    · rw [lined] at step
      cases step
    · rw [lined] at step
      cases step
      exact ⟨_, rfl, rfl⟩
    · rw [lined] at step
      cases step
    · rw [lined] at step
      cases step
  · cases step
  · cases step

theorem decode_data_lt (step : decode decoder input limits = (next, .ok (.data bytes consumed))) :
    2 * (input.length - consumed) + weight next < 2 * input.length + weight decoder := by
  have small : weight next ≤ 1 := by cases next <;> simp [weight]
  cases decoder with
  | size =>
    have used := sizeLine_eq_data step
    omega
  | data remaining =>
    obtain ⟨some_, rfl, -⟩ := chunkData_eq_data step
    have nonempty := List.length_pos_of_ne_nil some_
    rcases Nat.eq_zero_or_pos remaining with zero | positive
    · subst zero
      change chunkData 0 input = _ at step
      rw [chunkData, if_neg (by simpa using some_)] at step
      simp only [Nat.zero_min, Nat.sub_zero, if_true, Prod.mk.injEq] at step
      rw [← step.1]
      simp [weight]
    · change _ < 2 * input.length + 1
      omega
  | dataEnd =>
    obtain ⟨inside, later, rfl, lined⟩ := dataEnd_eq_data step
    have used := sizeLine_eq_data lined
    rw [tail, List.length_drop] at used
    change _ < 2 * input.length + 0
    omega
  | trailers =>
    exact absurd (congrArg Prod.snd step) (trailerSection_ne_data input limits bytes consumed)
  | done => cases step

/-- A step emits no more data than it uses input. -/
theorem decode_data_length
    (step : decode decoder input limits = (next, .ok (.data bytes consumed))) :
    bytes.length ≤ consumed ∧ consumed ≤ input.length := by
  cases decoder with
  | size =>
    obtain ⟨-, inside, emitted⟩ := sizeLine_eq_data step
    exact ⟨emitted, inside⟩
  | data remaining =>
    obtain ⟨-, rfl, emitted⟩ := chunkData_eq_data step
    exact ⟨Nat.le_of_eq emitted, Nat.min_le_right _ _⟩
  | dataEnd =>
    obtain ⟨inside, later, rfl, lined⟩ := dataEnd_eq_data step
    have used := sizeLine_eq_data lined
    rw [tail, List.length_drop] at used
    omega
  | trailers =>
    exact absurd (congrArg Prod.snd step) (trailerSection_ne_data input limits bytes consumed)
  | done => cases step

/-- Decodes until more input is needed, the body ended or it is rejected, dropping what each
step consumed. -/
def decodeRun (limits : Http1Limits) (decoder : ChunkedDecoder) (input : Bytes) : Run :=
  match step : decode decoder input limits with
  | (next, .ok (.data bytes consumed)) =>
    (decodeRun limits next (tail input consumed)).after bytes consumed
  | (next, .ok (.needMore consumed)) => ⟨[], .needMore next (tail input consumed) consumed⟩
  | (_, .ok (.done span consumed)) => ⟨[], .done (span.of input) consumed⟩
  | (_, .error reject) => ⟨[], .rejected reject⟩
termination_by 2 * input.length + weight decoder
decreasing_by
  rw [tail, List.length_drop]
  exact decode_data_lt step

/-- Decodes a body that arrives in reads: each is appended to the bytes the run before it left,
until the body ended or was rejected. -/
def runReads (limits : Http1Limits) (decoder : ChunkedDecoder) (rest : Bytes) :
    List Bytes → Run
  | [] => ⟨[], .needMore decoder rest 0⟩
  | read :: reads =>
    match decodeRun limits decoder (rest ++ read) with
    | ⟨bytes, .needMore decoder rest consumed⟩ =>
      (runReads limits decoder rest reads).after bytes consumed
    | ended => ended

end ChunkedDecoder

/-! ### The encoder -/

/-- The lowercase glyph of a hexadecimal digit. -/
def glyph (digit : Nat) : UInt8 :=
  if digit ≤ 9 then 48 + UInt8.ofNat digit else 97 + (UInt8.ofNat digit - 10)

/-- Writes the digits of a value from the least significant one on into the array. -/
def headerDigits (value count : Nat) (digits : Bytes) : Bytes × Nat :=
  let digits := digits.set count (glyph (value % 16))
  if value / 16 = 0 then (digits, count + 1) else headerDigits (value / 16) (count + 1) digits
termination_by value
decreasing_by omega

/-- Writes `chunk-size CRLF` at the start of the buffer: the number of bytes written, or
nothing when the buffer is too short, and the buffer. -/
def chunkHeader (len : Nat) (out : Bytes) : Option Nat × Bytes :=
  let (digits, count) := headerDigits len 0 (List.replicate 16 0)
  let total := count + 2
  if total ≤ out.length then
    let target := (List.range count).map fun index => digits[count - 1 - index]?.getD 48
    (some total, target ++ chunkEnd ++ out.drop total)
  else (none, out)

/-- Writes one complete chunk: the size line, the data and CRLF. -/
def encodeChunk (data out : Bytes) : Option Nat × Bytes :=
  if data.isEmpty then (none, out)
  else
    match chunkHeader data.length (List.replicate maxChunkHeaderLen 0) with
    | (none, _) => (none, out)
    | (some headerLen, header) =>
      match (checkedAdd headerLen data.length).bind fun total => checkedAdd total 2 with
      | none => (none, out)
      | some total =>
        if total ≤ out.length then
          (some total, header.take headerLen ++ data ++ chunkEnd ++ out.drop total)
        else (none, out)

end ZeroServer.Http1
