/-
This file models what writes an event stream: one field line for each field of an event and each
line of its data, a blank line behind it, and comments line by line.
-/

import ZeroServer.Lib.Utf8
import ZeroServer.Http1.Types

namespace ZeroServer.Sse

open Http1 Lib

/-! ### Writing -/

/-- The errors of the encoder and the decoder. -/
inductive Error where
  | protocol (message : String)
  | limit (message : String)
  deriving DecidableEq

/-- One event to send; the values are text. -/
structure Event where
  event : Option (List Char) := none
  id : Option (List Char) := none
  retry : Option UInt64 := none
  data : Option (List Char) := none
  deriving DecidableEq

/-- Refuse a value that holds a line break, or, unless it is allowed, U+0000. -/
def check (field : String) (value : List Char) (nulAllowed : Bool) : Except Error Unit :=
  if (Utf8.encode value).any fun byte => byte = cr ∨ byte = lf ∨ (!nulAllowed ∧ byte = 0) then
    .error (.protocol ("an SSE `" ++ field ++ "` value may not hold CR or LF" ++
      if nulAllowed then "" else " or U+0000"))
  else .ok ()

def isBreak (char : Char) : Bool := char = '\r' ∨ char = '\n'

/-- The lines of a payload, split at CRLF, LF and CR. -/
def lines (text : List Char) : List (List Char) :=
  match _found : text.findIdx? isBreak with
  | none => [text]
  | some at_ =>
    let skip := if (text.drop at_).take 2 = ['\r', '\n'] then 2 else 1
    text.take at_ :: lines (text.drop (at_ + skip))
termination_by text.length
decreasing_by
  obtain ⟨inside, -⟩ := List.findIdx?_eq_some_iff_getElem.mp _found
  rw [List.length_drop]
  split <;> omega

/-- Append one field line. -/
def field (out name value : Bytes) : Bytes := out ++ name ++ [colon, sp] ++ value ++ [lf]

/-- The digits of a number from the end of the buffer on, behind which some are written. -/
def decimalFrom : Nat → Nat → Bytes → Bytes
  | 0, _, digits => digits
  | start + 1, value, digits =>
    let more := UInt8.ofNat (48 + value % 10) :: digits
    if value / 10 = 0 then more else decimalFrom start (value / 10) more

/-- The ASCII decimal digits of a number. -/
def decimal (value : UInt64) : Bytes := decimalFrom 20 value.toNat []

/-- Refuse the values an event may not have. -/
def checkEvent (event : Event) : Except Error Unit :=
  match event.event.map fun name => check "event" name true with
  | some (.error refused) => .error refused
  | _ =>
    match event.id.map fun id => check "id" id false with
    | some (.error refused) => .error refused
    | _ => .ok ()

/-- Append a field line if there is a value. -/
def fieldIf (out name : Bytes) (value : Option Bytes) : Bytes :=
  match value with
  | none => out
  | some value => field out name value

/-- Append a field line for each line of the data, if there is any. -/
def dataIf (out : Bytes) (data : Option (List Char)) : Bytes :=
  match data with
  | none => out
  | some data => (lines data).foldl (fun out line => field out (ascii "data") (Utf8.encode line)) out

/-- Write one event. -/
def encode (event : Event) (out : Bytes) : Except Error Unit × Bytes :=
  match checkEvent event with
  | .error refused => (.error refused, out)
  | .ok () =>
    let out := fieldIf out (ascii "event") (event.event.map Utf8.encode)
    let out := fieldIf out (ascii "id") (event.id.map Utf8.encode)
    let out := fieldIf out (ascii "retry") (event.retry.map decimal)
    (.ok (), dataIf out event.data ++ [lf])

/-- Write a comment, one comment line for each line of the text. -/
def comment (text : List Char) (out : Bytes) : Bytes :=
  (lines text).foldl (fun out line => out ++ [colon] ++ Utf8.encode line ++ [lf]) out

end ZeroServer.Sse
