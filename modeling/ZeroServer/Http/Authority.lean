/-
This file models how the driver decides whether a connection serves a request's target: the
host of an authority, the canonical text of an IP address host, and the comparison with the
names the connection may serve.
-/

import ZeroServer.Http1.Chunked
import ZeroServer.Http.Record

namespace ZeroServer.Http

open Http1

/-- The scheme of an `https` absolute-form target. -/
def https : Bytes := ascii "https://"

/-- The bytes before a suffix, if they end in it. -/
def stripSuffix (bytes suffix : Bytes) : Option Bytes :=
  if bytes.drop (bytes.length - suffix.length) = suffix then
    some (bytes.take (bytes.length - suffix.length))
  else none

/-- The host of an authority: without its port and without one trailing dot; an IPv6
literal keeps its brackets. -/
def hostOf (authority : Bytes) : Bytes :=
  let host :=
    if authority.head? = some 91 then
      authority.take ((authority.findIdx? (· == 93)).elim authority.length (· + 1))
    else
      match rposition authority (· == colon) with
      | some last =>
        if (authority.drop (last + 1)).all isAsciiDigit then authority.take last else authority
      | none => authority
  (stripSuffix host (ascii ".")).getD host

/-! ### The text of an address -/

/-- The lowercase hexadecimal digits of a group, without leading zeros. -/
def hexText (group : Nat) : Bytes :=
  (Lib.lowDigits 16 group).reverse.map glyph

def ipv4Text (octets : List Nat) : Bytes := (octets.map decimal).intersperse (ascii ".") |>.flatten

/-- The first longest run of zero groups in `groups` from `at_` on, as start and length. -/
def longestZeros : List Nat → Nat → Nat × Nat
  | [], at_ => (at_, 0)
  | group :: rest, at_ =>
    let here := ((group :: rest).takeWhile (· == 0)).length
    let later := longestZeros rest (at_ + 1)
    if later.2 ≤ here then (at_, here) else later

def groupsText (groups : List Nat) : Bytes :=
  (groups.map hexText).intersperse (ascii ":") |>.flatten

/-- The canonical text of an IPv6 address: the first longest run of at least two zero groups
becomes `::`. -/
def ipv6Text (groups : List Nat) : Bytes :=
  let zeros := longestZeros groups 0
  if zeros.2 > 1 then
    groupsText (groups.take zeros.1) ++ ascii "::" ++ groupsText (groups.drop (zeros.1 + zeros.2))
  else groupsText groups

/-- An IP address host in canonical text: IPv4 dotted, IPv6 in brackets, an IPv4-mapped IPv6
address as IPv4; nothing for a name. -/
def ipLiteral (host : Bytes) : Option Bytes :=
  if host.head? = some 91 ∧ 1 < host.length ∧ host.getLast? = some 93 then
    match Ipv6.parse (host.drop 1).dropLast with
    | some [0, 0, 0, 0, 0, 65535, high, low] =>
      some (ipv4Text [high / 256, high % 256, low / 256, low % 256])
    | some groups => some (ascii "[" ++ ipv6Text groups ++ ascii "]")
    | none => none
  else
    match Ipv6.readIpv4Addr host with
    | some ((one, two, three, four), []) => some (ipv4Text [one, two, three, four])
    | _ => none

/-- Whether a connection serves a request's target: an `https` target only when it is secure,
and a host among its authorities when it has any. -/
def serves (secure : Bool) (authorities : Option (List Bytes)) (record : Record) (head : Head) :
    Bool :=
  if head.form = .absolute ∧ secure = false ∧
      eqIgnoreAsciiCase ((head.target.of record.head).take https.length) https then false
  else
    match authorities, head.authority with
    | some names, some authority =>
      let host := hostOf (authority.of record.head)
      names.any fun name =>
        match ipLiteral host with
        | some address => name == address
        | none => eqIgnoreAsciiCase name host
    | _, _ => true

end ZeroServer.Http
