/-
This file models the fields a static route writes besides the validators: the directives of
`Cache-Control`, the value of `Content-Disposition` for a download, and the date that stands for a
modification time. Each value is one the response takes.
-/

import ZeroServer.Date.Imf
import ZeroServer.Http1.Response
import ZeroServer.Static.Files

namespace ZeroServer.Static

open Http1 Lib Uri

/-! ### Cache-Control -/

/-- How the responses of a route may be cached. -/
structure CachePolicy where
  maxAge : Option UInt32
  noStore : Bool
  «private» : Bool
  «public» : Bool
  immutable : Bool
  deriving DecidableEq

def separate (out : Bytes) : Bytes := if out = [] then out else out ++ ascii ", "

/-- A directive behind the others, if it is set. -/
def writeDirective (set : Bool) (directive out : Bytes) : Bytes :=
  if set then separate out ++ directive else out

/-- Write the field value; nothing when no directive applies. -/
def CachePolicy.write (policy : CachePolicy) (out : Bytes) : Bytes :=
  let out := writeDirective policy.noStore (ascii "no-store") out
  let out := writeDirective policy.private (ascii "private") out
  let out := writeDirective policy.public (ascii "public") out
  let out := match policy.maxAge with
    | some seconds => separate out ++ (ascii "max-age=" ++ decimal seconds.toNat)
    | none => out
  writeDirective policy.immutable (ascii "immutable") out

/-! ### Content-Disposition -/

def isAttrChar (byte : UInt8) : Bool :=
  isAsciiAlphanumeric byte || (ascii "!#$&+-.^_`|~").contains byte

/-- The last segment of a name. -/
def lastSegment (name : List Char) : List Char :=
  (name.reverse.takeWhile fun char => char ≠ '/' ∧ char ≠ '\\').reverse

/-- A character of the `filename` parameter. -/
def filenameChar (char : Char) : Bytes :=
  if char = '"' ∨ char = '\\' then [backslash, UInt8.ofNat char.toNat]
  else if char.toNat ≤ 0x1F ∨ char.toNat = 0x7F then []
  else if char.toNat ≤ 0x7F then [UInt8.ofNat char.toNat]
  else ascii "_"

/-- A byte of the `filename*` parameter. -/
def extValueByte (byte : UInt8) : Bytes :=
  if isAttrChar byte then [byte]
  else if isAsciiControl byte then []
  else [percent, upperHex (byte >>> 4), upperHex (byte &&& 0x0F)]

/-- Write a `Content-Disposition: attachment` value for a name. -/
def writeAttachment (out : Bytes) (name : List Char) : Bytes :=
  let name := lastSegment name
  let out := out ++ ascii "attachment; filename=\"" ++ name.flatMap filenameChar ++ ascii "\""
  if name.any fun char => 0x7F < char.toNat then
    out ++ ascii "; filename*=UTF-8''" ++ (Utf8.encode name).flatMap extValueByte
  else out

/-! ### Last-Modified -/

/-- The time to send for a modification time: never later than the response. -/
def lastModifiedFor (modified now : Nat) : Nat := if now < modified then now else modified

theorem lastModifiedFor_past {modified now : Nat} (past : modified ≤ now) :
    lastModifiedFor modified now = modified := if_neg (Nat.not_lt_of_le past)

end ZeroServer.Static
