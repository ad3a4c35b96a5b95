/-
This file models how the trust-proxy rule reads the forwarding fields: their members, split outside
quoted strings, the parameters of an element, and the nodes they name.
-/

import ZeroServer.Lib.Numeral
import ZeroServer.Policy.Address

namespace ZeroServer.Policy

open Http1

def quote : UInt8 := 34
def backslash : UInt8 := 92
def comma : UInt8 := 44
def semicolon : UInt8 := 59
def equals : UInt8 := 61

/-! ### Splitting outside quoted strings -/

def trim (bytes : Bytes) : Bytes := (bytes.dropWhile isOws).rdropWhile isOws

/-- A value read up to some byte: the parts ended so far, the part in progress, and where the byte
stands in a quoted string. -/
structure Splitting where
  parts : List Bytes
  part : Bytes
  quoted : Bool
  escaped : Bool

namespace Splitting

def start : Splitting := ⟨[], [], false, false⟩

def take (state : Splitting) (byte : UInt8) (quoted escaped : Bool) : Splitting :=
  ⟨state.parts, state.part ++ [byte], quoted, escaped⟩

def cut (state : Splitting) : Splitting := ⟨state.parts ++ [trim state.part], [], false, false⟩

def step (separator : UInt8) (state : Splitting) (byte : UInt8) : Splitting :=
  if state.escaped then state.take byte state.quoted false
  else if state.quoted then
    if byte = backslash then state.take byte true true
    else if byte = quote then state.take byte false false
    else state.take byte true false
  else if byte = quote then state.take byte true false
  else if byte = separator then state.cut
  else state.take byte false false

def run (separator : UInt8) (state : Splitting) (value : Bytes) : Splitting :=
  value.foldl (step separator) state

end Splitting

/-- The parts of a value between the separators outside quoted strings, each trimmed. -/
def splitUnquoted (value : Bytes) (separator : UInt8) : List Bytes :=
  let state := Splitting.start.run separator value
  state.parts ++ [trim state.part]

/-- The members of a comma-separated list, outside quoted strings, each trimmed. -/
def listMembers (value : Bytes) : List Bytes := splitUnquoted value comma

/-- The inside of a quoted-string with its escapes undone. -/
def unescape : Bool → Bytes → Option Bytes
  | escaped, [] => if escaped then none else some []
  | escaped, byte :: rest =>
    if escaped then (unescape false rest).map (byte :: ·)
    else if byte = backslash then unescape true rest
    else if byte = quote then none
    else (unescape false rest).map (byte :: ·)

/-- A token as is, or a quoted-string with its escapes undone. -/
def unquote (value : Bytes) : Option Bytes :=
  if value.head? = some quote then
    if value.tail.getLast? = some quote then unescape false value.tail.dropLast else none
  else if value = [] ∨ !value.all isTchar then none
  else some value

/-! ### Nodes -/

inductive NodeName where
  | ip (address : IpAddr)
  | unknown
  | obfuscated (name : Bytes)
  deriving DecidableEq

inductive Port where
  | number (port : Nat)
  | obfuscated (name : Bytes)
  deriving DecidableEq

/-- A node identifier: who the node is, and the port, when given. -/
structure Node where
  name : NodeName
  port : Option Port
  deriving DecidableEq

def isObfuscated (bytes : Bytes) : Bool :=
  1 < bytes.length && bytes.head? == some 95 &&
    bytes.all fun byte => isAsciiAlphanumeric byte || byte == 46 || byte == 95 || byte == 45

def NodeName.parse (bytes : Bytes) : Option NodeName :=
  if eqIgnoreAsciiCase bytes (ascii "unknown") then some .unknown
  else if isObfuscated bytes then some (.obfuscated bytes)
  else (parseIpv4 bytes).map fun address => .ip (.v4 address)

def Port.parse (bytes : Bytes) : Option Port :=
  if isObfuscated bytes then some (.obfuscated bytes)
  else if bytes = [] ∨ 5 < bytes.length ∨ !bytes.all isAsciiDigit then none
  else
    let value := Lib.numeral 10 0 (bytes.map fun byte => byte.toNat - 48)
    if value < 65536 then some (.number value) else none

namespace Node

/-- A bracketed IPv6 address, with what follows its opening bracket. -/
def parseBracketed (rest : Bytes) : Option Node := do
  let close ← rest.findIdx? (· == 93)
  let address ← parseIpv6 (rest.take close)
  let tail := rest.drop (close + 1)
  if tail.head? = some colon then
    let port ← Port.parse tail.tail
    return ⟨.ip (.v6 address), some port⟩
  else if tail = [] then return ⟨.ip (.v6 address), none⟩
  else none

def parsePlain (value : Bytes) : Option Node :=
  match value.findIdx? (· == colon) with
  | some place => do
    let port ← Port.parse (value.drop (place + 1))
    let name ← NodeName.parse (value.take place)
    return ⟨name, some port⟩
  | none => (NodeName.parse value).map fun name => ⟨name, none⟩

/-- Parses a node identifier after quoted-string unescaping. -/
def parse (value : Bytes) : Option Node :=
  if value.head? = some 91 then parseBracketed value.tail else parsePlain value

end Node

/-- The inside of a value as it sits in the field. -/
def innerOf (raw : Bytes) : Option Bytes :=
  if raw.head? = some quote then
    if raw.tail.getLast? = some quote then some raw.tail.dropLast else none
  else some raw

/-- The node a pair's value names, from the value as it sits in the field and with its quoting
undone. An identifier written with quoted-pairs is refused. -/
def node (raw value : Bytes) : Option Node := do
  let inner ← innerOf raw
  if inner = value then Node.parse inner
  else
    let node ← Node.parse value
    match node.name, node.port with
    | .obfuscated _, _ => none
    | _, some (.obfuscated _) => none
    | name, port => some ⟨name, port⟩

/-! ### Elements -/

/-- One `forwarded-element`: the parameters a proxy added. -/
structure Element where
  forNode : Option Node := none
  by_ : Option Node := none
  host : Option Bytes := none
  proto : Option Bytes := none
  deriving DecidableEq

/-- An element read up to some pair. -/
structure ElementState where
  out : Element
  seenFor : Bool
  seenBy : Bool

def ElementState.start : ElementState := ⟨{}, false, false⟩

/-- Take a parameter by its name. -/
def ElementState.set (state : ElementState) (name raw value : Bytes) : Option ElementState :=
  if eqIgnoreAsciiCase name (ascii "for") then
    if state.seenFor then none
    else (node raw value).map fun node =>
      ⟨{ state.out with forNode := some node }, true, state.seenBy⟩
  else if eqIgnoreAsciiCase name (ascii "by") then
    if state.seenBy then none
    else (node raw value).map fun node =>
      ⟨{ state.out with by_ := some node }, state.seenFor, true⟩
  else if eqIgnoreAsciiCase name (ascii "host") then
    if state.out.host.isSome then none
    else some { state with out := { state.out with host := some value } }
  else if eqIgnoreAsciiCase name (ascii "proto") then
    if state.out.proto.isSome then none
    else some { state with
      out := { state.out with proto := some (value.map toAsciiLowercase) } }
  else some state

def ElementState.pair (state : ElementState) (pair : Bytes) : Option ElementState :=
  if pair = [] then some state
  else do
    let place ← pair.findIdx? (· == equals)
    let raw := trim (pair.drop (place + 1))
    let value ← unquote raw
    state.set (trim (pair.take place)) raw value

def ElementState.pairs (state : ElementState) (pairs : List Bytes) : Option ElementState :=
  pairs.foldlM ElementState.pair state

/-- One element's pairs; nothing when a parameter repeats or a pair is malformed. -/
def element (member : Bytes) : Option Element :=
  (ElementState.start.pairs (splitUnquoted member semicolon)).map ElementState.out

/-- The members of a list that are not empty. -/
def filledMembers (value : Bytes) : List Bytes :=
  (listMembers value).filter fun member => !member.isEmpty

end ZeroServer.Policy
