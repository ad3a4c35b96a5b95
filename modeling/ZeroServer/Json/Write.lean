/-
This file models the JSON writer: a byte buffer, a count of open containers with one bit for each of
them in two 128-bit words, and the calls that put keys, values and ends where the grammar has them.
-/

import ZeroServer.Json.Parse

namespace ZeroServer.Json

open Http1 Lib

/-- Why a write was refused. -/
inductive WriteError where
  | tooDeep
  | nonFinite
  | misplaced
  deriving DecidableEq

/-- A JSON text being written. Bit `i` of the words is about the container at depth `i + 1`. -/
structure Writer where
  out : Bytes
  depth : Nat
  hasMember : BitVec 128
  isObject : BitVec 128
  valueDue : Bool
  done : Bool
  deriving DecidableEq

/-- A call, refused or not: it leaves a writer behind in both cases. -/
abbrev Writing := ExceptT WriteError (StateM Writer) Unit

namespace Writer

/-- The deepest nesting the writer tracks. -/
def maxDepth : Nat := 128

/-- A writer appending to a buffer. -/
def new (out : Bytes) : Writer := ⟨out, 0, 0, 0, false, false⟩

/-- Whether the text is complete: one value, every container closed. -/
def isComplete (writer : Writer) : Bool := writer.done && writer.depth = 0

def push (writer : Writer) (bytes : Bytes) : Writer := { writer with out := writer.out ++ bytes }

/-- The bit of the innermost container. -/
def bit (writer : Writer) : BitVec 128 :=
  1#128 <<< (if writer.depth - 1 < 2 ^ 32 then writer.depth - 1 else 0)

def refuse (error : WriteError) : Writing := fun writer => (.error error, writer)

def change (update : Writer → Writer) : Writing := fun writer => (.ok (), update writer)

/-- Put the separator a value needs, and account for it. -/
def beforeValue : Writing := fun writer =>
  if writer.depth = 0 then
    if writer.done then refuse .misplaced writer
    else (.ok (), { writer with done := true })
  else if writer.isObject &&& writer.bit ≠ 0 then
    if writer.valueDue then (.ok (), { writer with valueDue := false })
    else refuse .misplaced writer
  else
    let separated := if writer.hasMember &&& writer.bit ≠ 0 then writer.push [comma] else writer
    (.ok (), { separated with hasMember := separated.hasMember ||| writer.bit })

/-- Put an opening byte and start the bits of its container. -/
def enter (byte : UInt8) (object : Bool) (writer : Writer) : Writer :=
  let deeper := { writer.push [byte] with depth := writer.depth + 1 }
  { deeper with
    hasMember := deeper.hasMember &&& ~~~deeper.bit
    isObject :=
      if object then deeper.isObject ||| deeper.bit else deeper.isObject &&& ~~~deeper.bit }

def openWith (byte : UInt8) (object : Bool) : Writing := fun writer =>
  if maxDepth ≤ writer.depth then refuse .tooDeep writer
  else (do beforeValue; change (enter byte object)) writer

def closeWith (byte : UInt8) (object : Bool) : Writing := fun writer =>
  if writer.depth = 0 ∨ writer.valueDue then refuse .misplaced writer
  else if decide (writer.isObject &&& writer.bit ≠ 0) ≠ object then refuse .misplaced writer
  else (.ok (), { writer.push [byte] with depth := writer.depth - 1 })

def beginObject : Writing := openWith openBrace true

def endObject : Writing := closeWith closeBrace true

def beginArray : Writing := openWith openBracket false

def endArray : Writing := closeWith closeBracket false

/-! ### Texts of single values -/

def hexDigit (nibble : UInt8) : UInt8 :=
  if nibble &&& 0x0F ≤ 9 then 48 + (nibble &&& 0x0F) else 97 + ((nibble &&& 0x0F) - 10)

/-- How a byte of a string is escaped, if it has to be: by a short escape or by its number. -/
def escapeOf (byte : UInt8) : Option (Option Bytes) :=
  if byte = quote then some (some [backslash, quote])
  else if byte = backslash then some (some [backslash, backslash])
  else if byte = lf then some (some [backslash, 110])
  else if byte = cr then some (some [backslash, 114])
  else if byte = htab then some (some [backslash, 116])
  else if byte = 8 then some (some [backslash, 98])
  else if byte = 12 then some (some [backslash, 102])
  else if byte ≤ 0x1F then some none
  else none

/-- Put what is pending in front of an escaped byte, and its escape. -/
def escapeStep (bytes : Bytes) (state : Bytes × Nat) (entry : UInt8 × Nat) : Bytes × Nat :=
  match escapeOf entry.1 with
  | none => state
  | some escape =>
    let pending := state.1 ++ Span.of ⟨state.2, entry.2⟩ bytes
    (pending ++ match escape with
      | some short => short
      | none => [backslash, 117, 48, 48] ++ [hexDigit (entry.1 >>> 4), hexDigit (entry.1 &&& 0x0F)],
      entry.2 + 1)

/-- Write a quoted, escaped string. -/
def writeString (out : Bytes) (text : List Char) : Bytes :=
  let bytes := Utf8.encode text
  let written := bytes.zipIdx.foldl (escapeStep bytes) (out ++ [quote], 0)
  written.1 ++ bytes.drop written.2 ++ [quote]

/-- Fill in the digits of a number from the last place down. -/
def fillDigits : Bytes → Nat → Nat → Bytes × Nat
  | digits, 0, value => (digits.set 0 (48 + UInt8.ofNat (value % 10)), 0)
  | digits, at_ + 1, value =>
    let filled := digits.set at_ (48 + UInt8.ofNat (value % 10))
    if value / 10 = 0 ∨ at_ = 0 then (filled, at_) else fillDigits filled at_ (value / 10)

/-- Write a decimal integer. -/
def writeUnsigned (out : Bytes) (value : UInt64) : Bytes :=
  let filled := fillDigits (List.replicate 20 0) 20 value.toNat
  out ++ filled.1.drop filled.2

/-! ### Keys and values -/

/-- Write a member name; its value comes next. -/
def key (name : List Char) : Writing := fun writer =>
  if writer.depth = 0 ∨ writer.isObject &&& writer.bit = 0 ∨ writer.valueDue then
    refuse .misplaced writer
  else
    let separated := if writer.hasMember &&& writer.bit ≠ 0 then writer.push [comma] else writer
    (.ok (), { separated with
      hasMember := separated.hasMember ||| writer.bit
      out := writeString separated.out name ++ [colon]
      valueDue := true })

def string (text : List Char) : Writing := do
  beforeValue
  change fun writer => { writer with out := writeString writer.out text }

def int (number : Int64) : Writing := do
  beforeValue
  change fun writer =>
    let signed := if number < 0 then writer.push [minus] else writer
    { signed with out := writeUnsigned signed.out (UInt64.ofNat number.toInt.natAbs) }

def uint (number : UInt64) : Writing := do
  beforeValue
  change fun writer => { writer with out := writeUnsigned writer.out number }

def bool (flag : Bool) : Writing := do
  beforeValue
  change fun writer => writer.push (if flag then ascii "true" else ascii "false")

def null : Writing := do
  beforeValue
  change fun writer => writer.push (ascii "null")

section Floats

variable (display : Binary64 → Bytes)

/-- Write a float as the standard library displays it, with a fraction in every case. -/
def float (number : Binary64) : Writing := fun writer =>
  if ¬ number.isFinite then refuse .nonFinite writer
  else
    (do
      beforeValue
      change fun writer =>
        let shown := writer.push (display number)
        if (display number).any fun byte => byte = dot ∨ byte = 101 ∨ byte = 69 then shown
        else shown.push [dot, 48]) writer

/-! ### Whole trees -/

mutual

/-- Write a whole value tree. -/
def value : Value → Writing
  | .null => null
  | .bool flag => bool flag
  | .int number => int number
  | .float number => float display number
  | .str text => string text
  | .bytes octets => do
    beginArray
    octets.forM fun byte => uint byte.toUInt64
    endArray
  | .array entries => do
    beginArray
    items entries
    endArray
  | .object entries => do
    beginObject
    members entries
    endObject

/-- Write the items of an array. -/
def items : List Value → Writing
  | [] => pure ()
  | item :: rest => do
    value item
    items rest

/-- Write the members of an object. -/
def members : List (List Char × Value) → Writing
  | [] => pure ()
  | (name, member) :: rest => do
    key name
    value member
    members rest

end

/-- Serialize a value tree into a new buffer. -/
def toVec (tree : Value) : Except WriteError Bytes :=
  match value display tree (new []) with
  | (.error error, _) => .error error
  | (.ok (), writer) => .ok writer.out

end Floats

end Writer

end ZeroServer.Json
