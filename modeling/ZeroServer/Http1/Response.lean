/-
This file models the response serializer: a status line and field lines written into a
buffer of fixed size, with the field grammar that handler-supplied names and values must
meet. A write that does not fit is refused whole, so a sequence of writes is one write of
their concatenation.
-/

import ZeroServer.Lib.Numeral
import ZeroServer.Http1.Grammar

namespace ZeroServer.Http1

/-! ### Field names and values -/

/-- Checks a field name against the `token` grammar. -/
def validateFieldName (name : Bytes) : Bool := !name.isEmpty && name.all isTchar

/-- A byte a field value may hold between its whitespace. -/
def isFieldVchar (byte : UInt8) : Bool := (0x21 ≤ byte && byte ≤ 0x7E) || 0x80 ≤ byte

/-- Checks a field value: no whitespace at either end and no control character. -/
def validateFieldValue (value : Bytes) : Bool :=
  !((value.head?).any isOws || (value.getLast?).any isOws) &&
    value.all fun byte => isFieldVchar byte || isOws byte

/-- One field line, with its CRLF. -/
def fieldText (name value : Bytes) : Bytes := name ++ ascii ": " ++ value ++ crlf

/-- The decimal digits of a number. -/
def decimal (number : Nat) : Bytes :=
  (Lib.lowDigits 10 number).reverse.map fun digit => UInt8.ofNat (48 + digit)

/-- The decimal digits of a number read as the number. -/
theorem numeral_decimal (number : Nat) :
    Lib.numeral 10 0 ((decimal number).map fun byte => byte.toNat - 48) = number := by
  have back : ∀ digit < 10, (UInt8.ofNat (48 + digit)).toNat - 48 = digit := by decide
  have digits : (decimal number).map (fun byte => byte.toNat - 48) =
      (Lib.lowDigits 10 number).reverse := by
    unfold decimal
    rw [List.map_map]
    refine (List.map_congr_left fun digit member => ?_).trans (List.map_id _)
    exact back digit (Lib.lowDigits_lt (by decide) number digit (List.mem_reverse.mp member))
  rw [digits, Lib.numeral_lowDigits]

/-! ### Bodies and lengths by status -/

/-- Whether a response may carry a body. -/
def bodyAllowed (headRequest : Bool) (status : StatusCode) : Bool :=
  !(headRequest || status.isInformational || status.code == 204 || status.code == 304)

/-- Whether a response may carry `Content-Length`. -/
def contentLengthAllowed (status : StatusCode) : Bool :=
  !(status.isInformational || status.code == 204)

/-- The status line of a code; one outside the table goes without a reason phrase. -/
def StatusCode.lineText (status : StatusCode) : Bytes :=
  ascii "HTTP/1.1 " ++
    [status.code / 100, status.code / 10 % 10, status.code % 10].map
      (fun digit => UInt8.ofNat (48 + digit)) ++
    [sp] ++ ascii (status.canonicalReason.getD "") ++ crlf

/-! ### The writer -/

/-- Why a write was refused. -/
inductive WriteError where
  | full
  | invalidValue
  | noContentLength
  | noStatus
  deriving DecidableEq

/-- A response being written into a buffer of `capacity` bytes. -/
structure ResponseWriter where
  capacity : Nat
  written : Bytes
  status : Option StatusCode
  fits : written.length ≤ capacity

namespace ResponseWriter

def new (capacity : Nat) : ResponseWriter := ⟨capacity, [], none, Nat.zero_le _⟩

def copy (writer : ResponseWriter) (bytes : Bytes) : Except WriteError ResponseWriter :=
  if room : (writer.written ++ bytes).length ≤ writer.capacity then
    .ok { writer with written := writer.written ++ bytes, fits := room }
  else .error .full

def statusLine (writer : ResponseWriter) (status : StatusCode) :
    Except WriteError ResponseWriter :=
  (writer.copy status.lineText).map fun writer => { writer with status := some status }

/-- Writes `name: value CRLF` for a name and value already validated. -/
def fieldLine (writer : ResponseWriter) (name value : Bytes) :
    Except WriteError ResponseWriter :=
  if writer.status.isNone then .error .noStatus else writer.copy (fieldText name value)

def fieldId (writer : ResponseWriter) (name : HeaderName) (value : Bytes) :
    Except WriteError ResponseWriter :=
  if validateFieldValue value then writer.fieldLine (ascii name.canonical) value
  else .error .invalidValue

def contentLength (writer : ResponseWriter) (len : Nat) : Except WriteError ResponseWriter :=
  match writer.status with
  | none => .error .noStatus
  | some status =>
    if contentLengthAllowed status then
      writer.fieldLine (ascii HeaderName.contentLength.canonical) (decimal len)
    else .error .noContentLength

def connectionClose (writer : ResponseWriter) : Except WriteError ResponseWriter :=
  writer.fieldLine (ascii HeaderName.connection.canonical) (ascii "close")

/-- Writes a precomputed block of field lines. -/
def raw (writer : ResponseWriter) (block : Bytes) : Except WriteError ResponseWriter :=
  if writer.status.isNone then .error .noStatus else writer.copy block

/-- Ends the header section with the empty line. -/
def endHead (writer : ResponseWriter) : Except WriteError ResponseWriter :=
  if writer.status.isNone then .error .noStatus else writer.copy crlf

/-! ### Sequences of writes -/

theorem copy_nil (writer : ResponseWriter) : writer.copy [] = .ok writer := by
  unfold copy
  rw [dif_pos (by rw [List.append_nil]; exact writer.fits)]
  congr 1
  rcases writer with ⟨capacity, written, status, fits⟩
  simp only [List.append_nil]

/-- Two writes in a row are one write of both. -/
theorem copy_bind_copy (writer : ResponseWriter) (first second : Bytes) :
    (writer.copy first >>= fun next => next.copy second) = writer.copy (first ++ second) := by
  unfold copy
  by_cases room : (writer.written ++ first).length ≤ writer.capacity
  · rw [dif_pos room]
    simp only [bind, Except.bind, List.append_assoc]
  · rw [dif_neg room, dif_neg]
    · rfl
    · simp only [List.length_append] at room ⊢
      omega

theorem status_of_copy {writer next : ResponseWriter} {bytes : Bytes}
    (copied : writer.copy bytes = .ok next) : next.status = writer.status := by
  unfold copy at copied
  split at copied
  · cases copied
    rfl
  · cases copied

/-- A step that writes once the status line is there continues a write as a longer one. -/
theorem copy_bind_of_status {writer : ResponseWriter} {status : StatusCode}
    (started : writer.status = some status)
    {step : ResponseWriter → Except WriteError ResponseWriter} {second : Bytes}
    (writes : ∀ next : ResponseWriter, next.status = some status → step next = next.copy second)
    (first : Bytes) : (writer.copy first >>= step) = writer.copy (first ++ second) := by
  rw [← copy_bind_copy]
  rcases copied : writer.copy first with error | next
  · rfl
  · exact writes next ((status_of_copy copied).trans started)

section Started

variable {writer : ResponseWriter} {status : StatusCode} (started : writer.status = some status)
include started

theorem fieldLine_started (name value : Bytes) :
    writer.fieldLine name value = writer.copy (fieldText name value) := by
  unfold fieldLine
  rw [started]
  rfl

theorem fieldId_started (name : HeaderName) {value : Bytes}
    (valid : validateFieldValue value = true) :
    writer.fieldId name value = writer.copy (fieldText (ascii name.canonical) value) := by
  unfold fieldId
  rw [if_pos valid, fieldLine_started started]

theorem contentLength_started (allowed : contentLengthAllowed status = true) (len : Nat) :
    writer.contentLength len =
      writer.copy (fieldText (ascii HeaderName.contentLength.canonical) (decimal len)) := by
  unfold contentLength
  rw [started]
  dsimp only
  rw [if_pos allowed, fieldLine_started started]

theorem raw_started (block : Bytes) : writer.raw block = writer.copy block := by
  unfold raw
  rw [started]
  rfl

theorem endHead_started : writer.endHead = writer.copy crlf := by
  unfold endHead
  rw [started]
  rfl

end Started

end ResponseWriter

end ZeroServer.Http1
