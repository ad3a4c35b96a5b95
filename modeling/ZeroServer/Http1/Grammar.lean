/-
This file holds the small grammars the head parser evaluates: the byte classes and their
scans, optional whitespace, comma-separated lists, `Content-Length` and `Host`.

The scans are the scalar definitions, one byte at a time, that the vector kernels are
specified by.
-/

import Mathlib.Data.List.DropRight
import ZeroServer.Http1.Types

namespace ZeroServer.Http1

/-! ### Byte classes and scans -/

/-- A byte a request target may hold: visible US-ASCII. -/
def isTargetByte (byte : UInt8) : Bool := 0x21 ≤ byte && byte ≤ 0x7E

def isAsciiDigit (byte : UInt8) : Bool := 48 ≤ byte && byte ≤ 57

def isAsciiUppercase (byte : UInt8) : Bool := 65 ≤ byte && byte ≤ 90

def isAsciiLowercase (byte : UInt8) : Bool := 97 ≤ byte && byte ≤ 122

def isAsciiAlphanumeric (byte : UInt8) : Bool :=
  isAsciiDigit byte || isAsciiUppercase byte || isAsciiLowercase byte

def isAsciiHexdigit (byte : UInt8) : Bool :=
  isAsciiDigit byte || (97 ≤ byte && byte ≤ 102) || (65 ≤ byte && byte ≤ 70)

/-- A `tchar`, the bytes a field name or method token may hold. -/
def isTchar (byte : UInt8) : Bool :=
  (ascii "!#$%&'*+-.^_`|~").contains byte || isAsciiAlphanumeric byte

/-- A byte a field value may hold: visible US-ASCII, obs-text, SP and HTAB. -/
def isValueByte (byte : UInt8) : Bool :=
  byte == 0x09 || (0x20 ≤ byte && byte ≤ 0x7E) || 0x80 ≤ byte

/-- The length of the longest prefix whose every byte is allowed. -/
def scan (bytes : Bytes) (allowed : UInt8 → Bool) : Nat := bytes.findIdx fun byte => !allowed byte

def scanTarget (bytes : Bytes) : Nat := scan bytes isTargetByte

def scanHeaderName (bytes : Bytes) : Nat := scan bytes isTchar

def scanHeaderValue (bytes : Bytes) : Nat := scan bytes isValueByte

/-! ### Whitespace and lists -/

/-- SP or HTAB, the octets of `OWS`. -/
def isOws (byte : UInt8) : Bool := byte == sp || byte == htab

/-- Strips `OWS` from both ends. -/
def trimOws (bytes : Bytes) : Bytes := (bytes.dropWhile isOws).rdropWhile isOws

/-- Splits a list-based field value on commas, strips `OWS` from each member and drops the
empty members. -/
def listElements (value : Bytes) : List Bytes :=
  ((value.splitOn 44).map trimOws).filter fun element => !element.isEmpty

/-! ### `Content-Length` -/

/-- The number of values a `u64` holds. -/
def u64Size : Nat := 2 ^ 64

def checkedMul (left right : Nat) : Option Nat :=
  if left * right < u64Size then some (left * right) else none

def checkedAdd (left right : Nat) : Option Nat :=
  if left + right < u64Size then some (left + right) else none

/-- Scaling and adding a digit with checks fails exactly when the result does not fit. -/
theorem checked_digit (value base digit : Nat) :
    ((checkedMul value base).bind fun scaled => checkedAdd scaled digit) =
      if value * base + digit < u64Size then some (value * base + digit) else none := by
  unfold checkedMul checkedAdd
  by_cases fits : value * base < u64Size
  · rw [if_pos fits]
    rfl
  · rw [if_neg fits, if_neg (by omega)]
    rfl

theorem checkedAdd_bind (first second third : Nat) :
    ((checkedAdd first second).bind fun total => checkedAdd total third) =
      if first + second + third < u64Size then some (first + second + third) else none := by
  unfold checkedAdd
  by_cases fits : first + second < u64Size
  · rw [if_pos fits]
    rfl
  · rw [if_neg fits, if_neg (by omega)]
    rfl

/-- The digits of a `Content-Length` value behind those already read. -/
def contentLengthFrom (length : Nat) : Bytes → Option Nat
  | [] => some length
  | byte :: rest =>
    if isAsciiDigit byte then
      ((checkedMul length 10).bind fun scaled => checkedAdd scaled (byte.toNat - 48)).bind
        fun length => contentLengthFrom length rest
    else none

/-- Parses a `Content-Length` value: `1*DIGIT`, nothing else, with the decimal value held
exactly in a `u64`. -/
def parseContentLength (value : Bytes) : Option Nat :=
  if value.isEmpty then none else contentLengthFrom 0 value

def isDigits (value : Bytes) : Bool := !value.isEmpty && value.all isAsciiDigit

/-! ### IPv6 literals

The standard library's address parser: groups of hexadecimal digits between colons, at most
one `::`, and an IPv4 address in place of the last two groups. -/

namespace Ipv6

/-- Reads digits of a radix, at most `maxDigits` of them, up to `maxValue`. -/
def readNumber (isDigit : UInt8 → Bool) (digitValue : UInt8 → Nat) (radix maxDigits maxValue : Nat)
    (allowZeroPrefix : Bool) (input : Bytes) : Option (Nat × Bytes) :=
  let digits := input.takeWhile isDigit
  let value := digits.foldl (fun value digit => value * radix + digitValue digit) 0
  if digits.length = 0 ∨ digits.length > maxDigits then none
  else if !allowZeroPrefix && digits.head? == some 48 && digits.length > 1 then none
  else if value > maxValue then none
  else some (value, input.drop digits.length)

def hexDigitValue (byte : UInt8) : Nat :=
  if isAsciiDigit byte then byte.toNat - 48
  else if isAsciiLowercase byte then byte.toNat - 87
  else byte.toNat - 55

/-- Reads an item, behind a separator unless it is the first. -/
def readSeparator {Item : Type} (separator : UInt8) (index : Nat)
    (inner : Bytes → Option (Item × Bytes)) (input : Bytes) : Option (Item × Bytes) :=
  if index = 0 then inner input
  else
    match input with
    | [] => none
    | byte :: rest => if byte = separator then inner rest else none

def readOctet (index : Nat) (input : Bytes) : Option (Nat × Bytes) :=
  readSeparator 46 index
    (readNumber isAsciiDigit (fun digit => digit.toNat - 48) 10 3 255 false) input

def readIpv4Addr (input : Bytes) : Option ((Nat × Nat × Nat × Nat) × Bytes) := do
  let (one, input) ← readOctet 0 input
  let (two, input) ← readOctet 1 input
  let (three, input) ← readOctet 2 input
  let (four, input) ← readOctet 3 input
  pure ((one, two, three, four), input)

/-- Reads up to `left` groups from the `index`th on; the flag says that the last two came
from an IPv4 address. -/
def readGroups : Nat → Nat → Bytes → List Nat × Bool × Bytes
  | 0, _, input => ([], false, input)
  | left + 1, index, input =>
    let embedded := if left ≥ 1 then readSeparator colon index readIpv4Addr input else none
    match embedded with
    | some ((one, two, three, four), rest) => ([one * 256 + two, three * 256 + four], true, rest)
    | none =>
      match readSeparator colon index
        (readNumber isAsciiHexdigit hexDigitValue 16 4 65535 true) input with
      | some (group, rest) =>
        let (groups, ipv4, rest) := readGroups left (index + 1) rest
        (group :: groups, ipv4, rest)
      | none => ([], false, input)

/-- The eight groups of an address and the input behind it. -/
def readAddr (input : Bytes) : Option (List Nat × Bytes) :=
  match readGroups 8 0 input with
  | (head, headIpv4, rest) =>
    if head.length = 8 then some (head, rest)
    else if headIpv4 then none
    else
      match rest with
      | first :: second :: rest =>
        if first = colon ∧ second = colon then
          match readGroups (8 - (head.length + 1)) 0 rest with
          | (tail, _, rest) =>
            some (head ++ List.replicate (8 - head.length - tail.length) 0 ++ tail, rest)
        else none
      | _ => none

/-- Parses an address that is the whole text. -/
def parse (text : Bytes) : Option (List Nat) :=
  match readAddr text with
  | some (groups, []) => some groups
  | _ => none

end Ipv6

/-! ### `Host` -/

/-- `unreserved`: letters, digits, `-`, `.`, `_` and `~`. -/
def isUnreserved (byte : UInt8) : Bool := isAsciiAlphanumeric byte || (ascii "-._~").contains byte

def isSubDelim (byte : UInt8) : Bool := (ascii "!$&'()*+,;=").contains byte

/-- `reg-name`: unreserved, percent-encoded and sub-delimiter characters. -/
def isRegName : Bytes → Bool
  | [] => true
  | byte :: after =>
    if byte = 37 then
      match after with
      | high :: low :: rest => isAsciiHexdigit high && isAsciiHexdigit low && isRegName rest
      | _ => false
    else (isUnreserved byte || isSubDelim byte) && isRegName after

/-- `IP-literal`: an IPv6 address or an `IPvFuture` in brackets. -/
def isIpLiteral (literal : Bytes) : Bool :=
  match literal with
  | 91 :: rest =>
    if rest.getLast? = some 93 then
      let inner := rest.dropLast
      match inner with
      | first :: future =>
        if first = 118 ∨ first = 86 then
          match future.findIdx? (· == 46) with
          | none => false
          | some dot =>
            let version := future.take dot
            let tail := future.drop (dot + 1)
            !version.isEmpty && version.all isAsciiHexdigit && !tail.isEmpty &&
              tail.all fun byte => isUnreserved byte || isSubDelim byte || byte == colon
        else (Ipv6.parse inner).isSome
      | [] => (Ipv6.parse inner).isSome
    else false
  | _ => false

/-- What follows the host of a `Host` value: nothing, or a colon and digits. -/
def isPort (port : Bytes) : Bool :=
  match port with
  | [] => true
  | byte :: digits => byte == colon && digits.all isAsciiDigit

/-- `uri-host [ ":" port ]`. -/
def isHostValue (value : Bytes) : Bool :=
  if value.head? = some 91 then
    match value.findIdx? (· == 93) with
    | none => false
    | some close => isIpLiteral (value.take (close + 1)) && isPort (value.drop (close + 1))
  else
    match value.findIdx? (· == colon) with
    | some colonAt => isRegName (value.take colonAt) && isPort (value.drop colonAt)
    | none => isRegName value

example : isHostValue (ascii "[::ffff:192.0.2.1]:443") = true := by decide +kernel

example : isHostValue (ascii "[fe80::1%25en1]") = false := by decide +kernel

example : isHostValue (ascii "a.example:80:80") = false := by decide +kernel

/-! ### Scan lemmas -/

section Scan

variable {allowed : UInt8 → Bool}

theorem scan_le_length (bytes : Bytes) : scan bytes allowed ≤ bytes.length :=
  List.findIdx_le_length

variable {bytes : Bytes}

/-- A scan that stops inside the input does not see what is appended. -/
theorem scan_append_of_lt (inside : scan bytes allowed < bytes.length) (rest : Bytes) :
    scan (bytes ++ rest) allowed = scan bytes allowed := by
  unfold scan at *
  rw [List.findIdx_append, if_pos inside]

theorem scan_append_ge (bytes rest : Bytes) :
    scan bytes allowed ≤ scan (bytes ++ rest) allowed := by
  rcases Nat.lt_or_ge (scan bytes allowed) bytes.length with inside | whole
  · rw [scan_append_of_lt inside]
  · have same : scan bytes allowed = bytes.length := Nat.le_antisymm (scan_le_length bytes) whole
    unfold scan at *
    rw [List.findIdx_append, if_neg (by omega)]
    omega

/-- A run of allowed bytes before one that is not is scanned exactly. -/
theorem scan_run {run rest : Bytes} {stop : UInt8} (every : ∀ byte ∈ run, allowed byte = true)
    (ends : allowed stop = false) : scan (run ++ stop :: rest) allowed = run.length := by
  unfold scan
  rw [List.findIdx_append, if_neg]
  · simp [List.findIdx_cons, ends]
  · rw [List.findIdx_lt_length]
    rintro ⟨byte, member, refused⟩
    simp [every byte member] at refused

theorem scan_take_allowed (bytes : Bytes) :
    ∀ byte ∈ bytes.take (scan bytes allowed), allowed byte = true := by
  intro byte member
  obtain ⟨index, bound, rfl⟩ := List.mem_iff_getElem.mp member
  rw [List.length_take] at bound
  rw [List.getElem_take]
  have inside : index < bytes.findIdx fun byte => !allowed byte := by
    unfold scan at bound
    omega
  simpa using List.not_of_lt_findIdx inside

/-- The byte a scan stops at is not allowed. -/
theorem scan_stop (inside : scan bytes allowed < bytes.length) :
    allowed bytes[scan bytes allowed] = false := by
  have stopped := List.findIdx_getElem (w := inside)
  rw [Bool.not_eq_true'] at stopped
  exact stopped

end Scan

end ZeroServer.Http1
