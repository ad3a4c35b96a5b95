/-
This file models the static table and field line representations: how the first octet selects one
of five, what each holds, and how each is written.
-/

import ZeroServer.Qpack.Error
import ZeroServer.Qpack.Strings

namespace ZeroServer.Qpack

open Http1

/-! ### The static table -/

namespace Table

structure StaticEntry where
  name : Bytes
  value : Bytes
  deriving DecidableEq

def entry (name value : String) : StaticEntry := ⟨ascii name, ascii value⟩

def staticTable : List StaticEntry :=
  [entry ":authority" "", entry ":path" "/", entry "age" "0", entry "content-disposition" "",
    entry "content-length" "0", entry "cookie" "", entry "date" "", entry "etag" "",
    entry "if-modified-since" "", entry "if-none-match" "", entry "last-modified" "",
    entry "link" "", entry "location" "", entry "referer" "", entry "set-cookie" "",
    entry ":method" "CONNECT", entry ":method" "DELETE", entry ":method" "GET",
    entry ":method" "HEAD", entry ":method" "OPTIONS", entry ":method" "POST",
    entry ":method" "PUT", entry ":scheme" "http", entry ":scheme" "https", entry ":status" "103",
    entry ":status" "200", entry ":status" "304", entry ":status" "404", entry ":status" "503",
    entry "accept" "*/*", entry "accept" "application/dns-message",
    entry "accept-encoding" "gzip, deflate, br", entry "accept-ranges" "bytes",
    entry "access-control-allow-headers" "cache-control",
    entry "access-control-allow-headers" "content-type", entry "access-control-allow-origin" "*",
    entry "cache-control" "max-age=0", entry "cache-control" "max-age=2592000",
    entry "cache-control" "max-age=604800", entry "cache-control" "no-cache",
    entry "cache-control" "no-store", entry "cache-control" "public, max-age=31536000",
    entry "content-encoding" "br", entry "content-encoding" "gzip",
    entry "content-type" "application/dns-message", entry "content-type" "application/javascript",
    entry "content-type" "application/json",
    entry "content-type" "application/x-www-form-urlencoded", entry "content-type" "image/gif",
    entry "content-type" "image/jpeg", entry "content-type" "image/png",
    entry "content-type" "text/css", entry "content-type" "text/html; charset=utf-8",
    entry "content-type" "text/plain", entry "content-type" "text/plain;charset=utf-8",
    entry "range" "bytes=0-", entry "strict-transport-security" "max-age=31536000",
    entry "strict-transport-security" "max-age=31536000; includesubdomains",
    entry "strict-transport-security" "max-age=31536000; includesubdomains; preload",
    entry "vary" "accept-encoding", entry "vary" "origin",
    entry "x-content-type-options" "nosniff", entry "x-xss-protection" "1; mode=block",
    entry ":status" "100", entry ":status" "204", entry ":status" "206", entry ":status" "302",
    entry ":status" "400", entry ":status" "403", entry ":status" "421", entry ":status" "425",
    entry ":status" "500", entry "accept-language" "",
    entry "access-control-allow-credentials" "FALSE",
    entry "access-control-allow-credentials" "TRUE", entry "access-control-allow-headers" "*",
    entry "access-control-allow-methods" "get",
    entry "access-control-allow-methods" "get, post, options",
    entry "access-control-allow-methods" "options",
    entry "access-control-expose-headers" "content-length",
    entry "access-control-request-headers" "content-type",
    entry "access-control-request-method" "get", entry "access-control-request-method" "post",
    entry "alt-svc" "clear", entry "authorization" "",
    entry "content-security-policy" "script-src 'none'; object-src 'none'; base-uri 'none'",
    entry "early-data" "1", entry "expect-ct" "", entry "forwarded" "", entry "if-range" "",
    entry "origin" "", entry "purpose" "prefetch", entry "server" "",
    entry "timing-allow-origin" "*", entry "upgrade-insecure-requests" "1", entry "user-agent" "",
    entry "x-forwarded-for" "", entry "x-frame-options" "deny",
    entry "x-frame-options" "sameorigin"]

def get (index : Nat) : Option StaticEntry := staticTable[index]?

/-- What a field line matched: an entry, or the first entry with its name. -/
inductive Match where
  | full (index : Nat)
  | name (index : Nat)
  deriving DecidableEq

/-- Search entries from an index on, with the name matched before. -/
def findFrom (name value : Bytes) : List StaticEntry → Nat → Option Match → Option Match
  | [], _, byName => byName
  | entry :: entries, index, byName =>
    if entry.name ≠ name then findFrom name value entries (index + 1) byName
    else if entry.value = value then some (.full index)
    else findFrom name value entries (index + 1) (byName.or (some (.name index)))

def find (name value : Bytes) : Option Match := findFrom name value staticTable 0 none

def Match.index : Match → Nat
  | .full index => index
  | .name index => index

/-- What a match says of the table. -/
def Match.Names (found : Match) (name value : Bytes) : Prop :=
  match found with
  | .full index => get index = some ⟨name, value⟩
  | .name index => ∃ other, get index = some ⟨name, other⟩

theorem findFrom_names {name value : Bytes} {before entries : List StaticEntry}
    {byName : Option Match} {found : Match} (table : staticTable = before ++ entries)
    (known : ∀ found ∈ byName, found.Names name value)
    (same : findFrom name value entries before.length byName = some found) :
    found.Names name value := by
  induction entries generalizing before byName with
  | nil => exact known found same
  | cons entry entries inductionHypothesis =>
    have here : get before.length = some entry := by
      rw [get, table, List.getElem?_append_right (Nat.le_refl _), Nat.sub_self,
        List.getElem?_cons_zero]
    have later : staticTable = (before ++ [entry]) ++ entries := by
      rw [table, List.append_assoc, List.singleton_append]
    have next : (before ++ [entry]).length = before.length + 1 := List.length_append
    rw [findFrom] at same
    by_cases other : entry.name ≠ name
    · rw [if_pos other] at same
      exact inductionHypothesis later known (next ▸ same)
    rw [if_neg other] at same
    have named : entry.name = name := not_not.mp other
    by_cases whole : entry.value = value
    · rw [if_pos whole] at same
      cases same
      subst named whole
      exact here
    · rw [if_neg whole] at same
      refine inductionHypothesis later (fun found member => ?_) (next ▸ same)
      cases byName with
      | none =>
        cases member
        subst named
        exact ⟨entry.value, here⟩
      | some first => exact known found member

/-- A match names an entry of the table with the name, and with the value when it is a full one. -/
theorem find_names {name value : Bytes} {found : Match} (same : find name value = some found) :
    found.Names name value :=
  @findFrom_names name value [] staticTable none found rfl
    (fun _ member => absurd member (Option.not_mem_none _)) same

theorem get_lt {index : Nat} {entry : StaticEntry} (inTable : get index = some entry) :
    index < 99 := by
  obtain ⟨small, -⟩ := List.getElem?_eq_some_iff.mp inTable
  exact small

end Table

/-! ### Representations -/

/-- A field line as it is on the wire, before any table is consulted. -/
inductive Representation where
  | indexed (staticTable : Bool) (index : Nat)
  | indexedPostBase (index : Nat)
  | literalNameReference (neverIndexed staticTable : Bool) (index : Nat) (value : StringLiteral)
  | literalPostBaseNameReference (neverIndexed : Bool) (index : Nat) (value : StringLiteral)
  | literalName (neverIndexed : Bool) (name value : StringLiteral)
  deriving DecidableEq

namespace Representation

/-- A complete index of a field section. -/
def completeIndex (input : Bytes) (bits : PrefixBits) : Except Fault (Nat × Nat) :=
  match Integer.decode input bits Integer.maxValue with
  | .error fault => .error (.integer fault)
  | .ok none => .error .truncated
  | .ok (some read) => .ok read

/-- A complete string literal of a field section. -/
def completeLiteral (input : Bytes) (bits : StringPrefixBits) :
    Except Fault (StringLiteral × Nat) :=
  match StringLiteral.parse input bits Integer.maxValue with
  | .error fault => .error (.integer fault)
  | .ok none => .error .truncated
  | .ok (some read) => .ok read

/-- The representation at the start of the input, and the octets it spans. -/
def parse (input : Bytes) : Except Fault (Representation × Nat) :=
  match input with
  | [] => .error .truncated
  | first :: _ =>
    if first &&& 0x80 ≠ 0 then do
      let (index, used) ← completeIndex input .p6
      return (.indexed (first &&& 0x40 != 0) index, used)
    else if first &&& 0xC0 = 0x40 then do
      let (index, used) ← completeIndex input .p4
      let (value, valueLen) ← completeLiteral (input.drop used) .p8
      return (.literalNameReference (first &&& 0x20 != 0) (first &&& 0x10 != 0) index value,
        used + valueLen)
    else if first &&& 0xE0 = 0x20 then do
      let (name, used) ← completeLiteral input .p4
      let (value, valueLen) ← completeLiteral (input.drop used) .p8
      return (.literalName (first &&& 0x10 != 0) name value, used + valueLen)
    else if first &&& 0xF0 = 0x10 then do
      let (index, used) ← completeIndex input .p4
      return (.indexedPostBase index, used)
    else do
      let (index, used) ← completeIndex input .p3
      let (value, valueLen) ← completeLiteral (input.drop used) .p8
      return (.literalPostBaseNameReference (first &&& 0x08 != 0) index value, used + valueLen)

def indexedFlags (staticTable : Bool) : UInt8 := if staticTable then 0xC0 else 0x80

def nameReferenceFlags (neverIndexed staticTable : Bool) : UInt8 :=
  0x40 ||| (if neverIndexed then 0x20 else 0) ||| (if staticTable then 0x10 else 0)

def postBaseNameReferenceFlags (neverIndexed : Bool) : UInt8 := if neverIndexed then 0x08 else 0x00

def literalNameFlags (neverIndexed : Bool) : UInt8 := if neverIndexed then 0x30 else 0x20

/-- Append the representation; nothing is appended when an index or a length is out of range. -/
def encode (representation : Representation) (out : Bytes) : Option Bytes :=
  match representation with
  | .indexed staticTable index =>
    Integer.push index .p6 (indexedFlags staticTable) out
  | .indexedPostBase index => Integer.push index .p4 0x10 out
  | .literalNameReference neverIndexed staticTable index value => do
    let out ← Integer.push index .p4 (nameReferenceFlags neverIndexed staticTable) out
    value.encode .p8 0 out
  | .literalPostBaseNameReference neverIndexed index value => do
    let out ← Integer.push index .p3 (postBaseNameReferenceFlags neverIndexed) out
    value.encode .p8 0 out
  | .literalName neverIndexed name value => do
    let out ← name.encode .p4 (literalNameFlags neverIndexed) out
    value.encode .p8 0 out

/-- Whether the representation references the dynamic table. -/
def isDynamic : Representation → Bool
  | .indexed staticTable _ => !staticTable
  | .literalNameReference _ staticTable _ _ => !staticTable
  | .indexedPostBase _ => true
  | .literalPostBaseNameReference _ _ _ => true
  | .literalName _ _ _ => false

/-- Whether the representation is a literal with the N bit. -/
def isNeverIndexed : Representation → Bool
  | .literalNameReference neverIndexed _ _ _ => neverIndexed
  | .literalPostBaseNameReference neverIndexed _ _ => neverIndexed
  | .literalName neverIndexed _ _ => neverIndexed
  | .indexed _ _ => false
  | .indexedPostBase _ => false

/-! ### Round trips -/

variable {representation : Representation}

/-- The integers of a representation are in range. -/
def InRange : Representation → Prop
  | .indexed _ index => index ≤ Integer.maxValue
  | .indexedPostBase index => index ≤ Integer.maxValue
  | .literalNameReference _ _ index value =>
    index ≤ Integer.maxValue ∧ value.data.length ≤ Integer.maxValue
  | .literalPostBaseNameReference _ index value =>
    index ≤ Integer.maxValue ∧ value.data.length ≤ Integer.maxValue
  | .literalName _ name value =>
    name.data.length ≤ Integer.maxValue ∧ value.data.length ≤ Integer.maxValue

/-- A representation as it is on the wire. -/
def wire : Representation → Bytes
  | .indexed staticTable index => Integer.wire index .p6 (indexedFlags staticTable)
  | .indexedPostBase index => Integer.wire index .p4 0x10
  | .literalNameReference neverIndexed staticTable index value =>
    Integer.wire index .p4 (nameReferenceFlags neverIndexed staticTable) ++ value.wire .p8 0
  | .literalPostBaseNameReference neverIndexed index value =>
    Integer.wire index .p3 (postBaseNameReferenceFlags neverIndexed) ++ value.wire .p8 0
  | .literalName neverIndexed name value =>
    name.wire .p4 (literalNameFlags neverIndexed) ++ value.wire .p8 0

theorem encode_eq (inRange : representation.InRange) (out : Bytes) :
    representation.encode out = some (out ++ representation.wire) := by
  cases representation with
  | indexed staticTable index => exact Integer.push_eq inRange _ _ out
  | indexedPostBase index => exact Integer.push_eq inRange _ _ out
  | literalNameReference neverIndexed staticTable index value =>
    rw [encode, Integer.push_eq inRange.1, Option.bind_eq_bind, Option.bind_some,
      StringLiteral.encode_eq inRange.2, List.append_assoc]
    rfl
  | literalPostBaseNameReference neverIndexed index value =>
    rw [encode, Integer.push_eq inRange.1, Option.bind_eq_bind, Option.bind_some,
      StringLiteral.encode_eq inRange.2, List.append_assoc]
    rfl
  | literalName neverIndexed name value =>
    rw [encode, StringLiteral.encode_eq inRange.1, Option.bind_eq_bind, Option.bind_some,
      StringLiteral.encode_eq inRange.2, List.append_assoc]
    rfl

/-- What is written was in range. -/
theorem inRange_of_encode {out after : Bytes} (written : representation.encode out = some after) :
    representation.InRange := by
  have literal : ∀ {value : StringLiteral} {bits : StringPrefixBits} {flags : UInt8}
      {out after : Bytes}, value.encode bits flags out = some after →
      value.data.length ≤ Integer.maxValue := by
    intro value bits flags out after written
    refine Nat.le_of_not_lt fun beyond => ?_
    rw [StringLiteral.encode_none beyond] at written
    cases written
  cases representation with
  | indexed staticTable index => exact (Integer.push_some written).1
  | indexedPostBase index => exact (Integer.push_some written).1
  | literalNameReference neverIndexed staticTable index value =>
    obtain ⟨between, pushed, value⟩ := Option.bind_eq_some_iff.mp written
    exact ⟨(Integer.push_some pushed).1, literal value⟩
  | literalPostBaseNameReference neverIndexed index value =>
    obtain ⟨between, pushed, value⟩ := Option.bind_eq_some_iff.mp written
    exact ⟨(Integer.push_some pushed).1, literal value⟩
  | literalName neverIndexed name value =>
    obtain ⟨between, name, value⟩ := Option.bind_eq_some_iff.mp written
    exact ⟨literal name, literal value⟩

theorem completeIndex_wire {index : Nat} (inRange : index ≤ Integer.maxValue) (bits : PrefixBits)
    (flags : UInt8) (more : Bytes) :
    completeIndex (Integer.wire index bits flags ++ more) bits =
      .ok (index, (Integer.wire index bits flags).length) := by
  rw [completeIndex, Integer.decode_wire inRange inRange]

theorem completeLiteral_wire {literal : StringLiteral}
    (inRange : literal.data.length ≤ Integer.maxValue) (bits : StringPrefixBits) (flags : UInt8)
    (more : Bytes) :
    completeLiteral (literal.wire bits flags ++ more) bits =
      .ok (literal, (literal.wire bits flags).length) := by
  rw [completeLiteral, StringLiteral.parse_wire inRange inRange]

/-- A representation is read back as it was written, whatever follows it. -/
theorem parse_wire (inRange : representation.InRange) (more : Bytes) :
    parse (representation.wire ++ more) = .ok (representation, representation.wire.length) := by
  cases representation with
  | indexed staticTable index =>
    obtain ⟨first, rest, same, others⟩ :=
      Integer.wire_first index .p6 (indexedFlags staticTable)
    have tBit : (indexedFlags staticTable &&& 0x40 != 0) = staticTable := by
      cases staticTable <;> decide
    rw [wire, same, List.cons_append, parse,
      if_pos (by rw [others 0x80 (by decide)]; cases staticTable <;> decide),
      others 0x40 (by decide), tBit, ← List.cons_append, ← same, completeIndex_wire inRange]
    rfl
  | indexedPostBase index =>
    obtain ⟨first, rest, same, others⟩ := Integer.wire_first index .p4 0x10
    rw [wire, same, List.cons_append, parse, if_neg (by rw [others 0x80 (by decide)]; decide),
      if_neg (by rw [others 0xC0 (by decide)]; decide),
      if_neg (by rw [others 0xE0 (by decide)]; decide),
      if_pos (by rw [others 0xF0 (by decide)]; decide), ← List.cons_append, ← same,
      completeIndex_wire inRange]
    rfl
  | literalNameReference neverIndexed staticTable index value =>
    obtain ⟨first, rest, same, others⟩ :=
      Integer.wire_first index .p4 (nameReferenceFlags neverIndexed staticTable)
    have nBit : (nameReferenceFlags neverIndexed staticTable &&& 0x20 != 0) = neverIndexed := by
      cases neverIndexed <;> cases staticTable <;> decide
    have tBit : (nameReferenceFlags neverIndexed staticTable &&& 0x10 != 0) = staticTable := by
      cases neverIndexed <;> cases staticTable <;> decide
    rw [wire, List.append_assoc, same, List.cons_append, parse,
      if_neg (by rw [others 0x80 (by decide)]; cases neverIndexed <;> cases staticTable <;> decide),
      if_pos (by rw [others 0xC0 (by decide)]; cases neverIndexed <;> cases staticTable <;> decide),
      others 0x20 (by decide), others 0x10 (by decide), nBit, tBit, ← List.cons_append, ← same,
      completeIndex_wire inRange.1]
    dsimp only [bind, Except.bind]
    rw [List.drop_left, completeLiteral_wire inRange.2, List.length_append]
    rfl
  | literalPostBaseNameReference neverIndexed index value =>
    obtain ⟨first, rest, same, others⟩ :=
      Integer.wire_first index .p3 (postBaseNameReferenceFlags neverIndexed)
    have nBit : (postBaseNameReferenceFlags neverIndexed &&& 0x08 != 0) = neverIndexed := by
      cases neverIndexed <;> decide
    rw [wire, List.append_assoc, same, List.cons_append, parse,
      if_neg (by rw [others 0x80 (by decide)]; cases neverIndexed <;> decide),
      if_neg (by rw [others 0xC0 (by decide)]; cases neverIndexed <;> decide),
      if_neg (by rw [others 0xE0 (by decide)]; cases neverIndexed <;> decide),
      if_neg (by rw [others 0xF0 (by decide)]; cases neverIndexed <;> decide),
      others 0x08 (by decide), nBit, ← List.cons_append, ← same, completeIndex_wire inRange.1]
    dsimp only [bind, Except.bind]
    rw [List.drop_left, completeLiteral_wire inRange.2, List.length_append]
    rfl
  | literalName neverIndexed name value =>
    obtain ⟨first, rest, same, others⟩ := name.wire_first .p4 (literalNameFlags neverIndexed)
    have nBit : (literalNameFlags neverIndexed &&& 0x10 != 0) = neverIndexed := by
      cases neverIndexed <;> decide
    rw [wire, List.append_assoc, same, List.cons_append, parse,
      if_neg (by rw [others 0x80 (by decide)]; cases neverIndexed <;> decide),
      if_neg (by rw [others 0xC0 (by decide)]; cases neverIndexed <;> decide),
      if_pos (by rw [others 0xE0 (by decide)]; cases neverIndexed <;> decide),
      others 0x10 (by decide), nBit, ← List.cons_append, ← same, completeLiteral_wire inRange.1]
    dsimp only [bind, Except.bind]
    rw [List.drop_left, completeLiteral_wire inRange.2, List.length_append]
    rfl

theorem wire_ne_nil (representation : Representation) : representation.wire ≠ [] := by
  have integer : ∀ (index : Nat) (bits : PrefixBits) (flags : UInt8),
      Integer.wire index bits flags ≠ [] := by
    intro index bits flags empty
    obtain ⟨first, rest, same, -⟩ := Integer.wire_first index bits flags
    rw [same] at empty
    cases empty
  cases representation with
  | indexed staticTable index => exact integer _ _ _
  | indexedPostBase index => exact integer _ _ _
  | literalNameReference neverIndexed staticTable index value =>
    exact List.append_ne_nil_of_left_ne_nil (integer _ _ _) _
  | literalPostBaseNameReference neverIndexed index value =>
    exact List.append_ne_nil_of_left_ne_nil (integer _ _ _) _
  | literalName neverIndexed name value =>
    exact List.append_ne_nil_of_left_ne_nil
      (List.append_ne_nil_of_left_ne_nil (integer _ _ _) _) _

end Representation

end ZeroServer.Qpack
