/-
This file models the incremental decoder of an event stream: the probe for a byte order mark, lines
ended by CRLF, LF or CR across chunks, the fields they name and the messages blank lines dispatch.
-/

import ZeroServer.Simd.Utf8
import ZeroServer.Sse.Encode

namespace ZeroServer.Sse

open Http1 Lib

/-! ### Text -/

/-- The characters of bytes that need not be text: U+FFFD stands for every broken subpart. -/
def fromUtf8Lossy (bytes : Bytes) : List Char :=
  match _verdict : Simd.validateUtf8 bytes with
  | .ok () => (Utf8.decode bytes).getD []
  | .error ⟨validUpTo, none⟩ => (Utf8.decode (bytes.take validUpTo)).getD [] ++ ['\uFFFD']
  | .error ⟨validUpTo, some count⟩ =>
    (Utf8.decode (bytes.take validUpTo)).getD [] ++
      '\uFFFD' :: fromUtf8Lossy (bytes.drop (validUpTo + count))
termination_by bytes.length
decreasing_by
  rcases Simd.validateUtf8_spec bytes with ⟨ok, -⟩ | ⟨error, failed, broken⟩
  · rw [_verdict] at ok
    cases ok
  · rw [_verdict] at failed
    cases failed
    have inside := broken.inside
    have some_ := (broken.subpart count rfl).some
    rw [List.length_drop]
    omega

/-! ### The decoder -/

/-- The byte order mark. -/
def bom : Bytes := [0xEF, 0xBB, 0xBF]

/-- One dispatched event. -/
structure Message where
  event : List Char
  data : List Char
  id : List Char
  deriving DecidableEq

structure Decoder where
  maxEvent : Nat
  head : Bytes := []
  bomDone : Bool := false
  afterCr : Bool := false
  line : Bytes := []
  data : Bytes := []
  eventType : Bytes := []
  lastIdBuffer : Bytes := []
  lastId : List Char := []
  retry : Option Nat := none
  deriving DecidableEq

/-- What a call did: the decoder and the messages behind it, and whether it failed. -/
abbrev Outcome := (Decoder × List Message) × Except Error Unit

namespace Decoder

/-- A decoder at the start of a stream. -/
def new (maxEvent : Nat) : Decoder := { maxEvent }

/-- Dispatch the event the buffers hold. -/
def dispatch (decoder : Decoder) (out : List Message) : Decoder × List Message :=
  let decoder := { decoder with lastId := fromUtf8Lossy decoder.lastIdBuffer }
  if decoder.data = [] then ({ decoder with eventType := [] }, out)
  else
    let data := if decoder.data.getLast? = some lf then decoder.data.dropLast else decoder.data
    let event := if decoder.eventType = [] then "message".toList else fromUtf8Lossy decoder.eventType
    ({ decoder with data := [], eventType := [] },
      out ++ [⟨event, fromUtf8Lossy data, decoder.lastId⟩])

/-- The name and the value of a field line. -/
def nameValue (line : Bytes) : Bytes × Bytes :=
  match line.findIdx? fun byte => byte = colon with
  | some at_ =>
    let value := line.drop (at_ + 1)
    (line.take at_, if value.head? = some sp then value.tail else value)
  | none => (line, [])

/-- A number of digits, held at the largest one there is. -/
def parseDigits (value : Bytes) : Nat :=
  value.foldl (fun total digit =>
    min (min (total * 10) (2 ^ 64 - 1) + (digit.toNat - 48)) (2 ^ 64 - 1)) 0

/-- Process one complete line. -/
def process (decoder : Decoder) (line : Bytes) (out : List Message) : Outcome :=
  if line = [] then (decoder.dispatch out, .ok ())
  else if line.head? = some colon then ((decoder, out), .ok ())
  else
    let (name, value) := nameValue line
    if name = ascii "event" then (({ decoder with eventType := value }, out), .ok ())
    else if name = ascii "data" then
      if decoder.maxEvent < decoder.data.length + value.length + 1 then
        ((decoder, out), .error (.limit ("an event's data passed " ++ toString decoder.maxEvent ++
          " bytes")))
      else (({ decoder with data := decoder.data ++ value ++ [lf] }, out), .ok ())
    else if name = ascii "id" ∧ 0 ∉ value then
      (({ decoder with lastIdBuffer := value }, out), .ok ())
    else if name = ascii "retry" ∧ value ≠ [] ∧ value.all fun byte => 48 ≤ byte ∧ byte ≤ 57 then
      (({ decoder with retry := some (parseDigits value) }, out), .ok ())
    else ((decoder, out), .ok ())

/-- Add to the line in progress, within the limit. -/
def extendLine (decoder : Decoder) (part : Bytes) : Decoder × Except Error Unit :=
  if decoder.maxEvent < decoder.line.length + part.length then
    (decoder, .error (.limit ("an event stream line passed " ++ toString decoder.maxEvent ++
      " bytes")))
  else ({ decoder with line := decoder.line ++ part }, .ok ())

/-- The place of the first CR or LF. -/
def findCrOrLf (bytes : Bytes) : Option Nat := bytes.findIdx? fun byte => byte = cr ∨ byte = lf

/-- Split bytes into lines and process each complete one. -/
def lines (decoder : Decoder) (rest : Bytes) (out : List Message) : Outcome :=
  if _some : rest = [] then ((decoder, out), .ok ())
  else if decoder.afterCr ∧ rest.head? = some lf then
    lines { decoder with afterCr := false } rest.tail out
  else
    let decoder := { decoder with afterCr := false }
    match _found : findCrOrLf rest with
    | none =>
      let (next, result) := decoder.extendLine rest
      ((next, out), result)
    | some at_ =>
      match decoder.extendLine (rest.take at_) with
      | (next, .error refused) => ((next, out), .error refused)
      | (next, .ok ()) =>
        let ending := rest.drop at_
        let next := { next with afterCr := ending.head? = some cr }
        match ({ next with line := [] } : Decoder).process next.line out with
        | ((after, sent), .error refused) => (({ after with line := [] }, sent), .error refused)
        | ((after, sent), .ok ()) => lines { after with line := [] } ending.tail sent
termination_by rest.length
decreasing_by
  · cases rest with
    | nil => exact absurd rfl _some
    | cons _ _ => exact Nat.lt_succ_self _
  · obtain ⟨inside, -⟩ := List.findIdx?_eq_some_iff_getElem.mp _found
    rw [List.length_tail, List.length_drop]
    omega

/-- Decode the next chunk of the stream. -/
def feed (decoder : Decoder) (chunk : Bytes) (out : List Message) : Outcome :=
  if decoder.bomDone then decoder.lines chunk out
  else
    let take := min (bom.length - decoder.head.length) chunk.length
    let decoder := { decoder with head := decoder.head ++ chunk.take take }
    let chunk := chunk.drop take
    if decoder.head.length < bom.length ∧ decoder.head.isPrefixOf bom then ((decoder, out), .ok ())
    else
      let head := decoder.head
      let decoder := { decoder with bomDone := true, head := [] }
      if head = bom then decoder.lines chunk out
      else
        match decoder.lines head out with
        | (left, .error refused) => (left, .error refused)
        | ((next, sent), .ok ()) => next.lines chunk sent

/-- Feed chunks in order until one fails. -/
def feedAll (decoder : Decoder) (out : List Message) : List Bytes → Outcome
  | [] => ((decoder, out), .ok ())
  | chunk :: rest =>
    match decoder.feed chunk out with
    | (left, .error refused) => (left, .error refused)
    | ((next, sent), .ok ()) => next.feedAll sent rest

end Decoder

end ZeroServer.Sse
