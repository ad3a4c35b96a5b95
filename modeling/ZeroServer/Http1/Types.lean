/-
This file holds the data the HTTP/1.1 codec works on: byte spans over a buffer, the
interned field names and methods, status codes with their prebuilt status lines, the
configured limits, and what a parsed request head says.
-/

import Mathlib.Algebra.Ring.Nat
import Mathlib.Data.List.Basic

namespace ZeroServer.Http1

abbrev Bytes := List UInt8

/-- The bytes of an ASCII text. -/
def ascii (text : String) : Bytes := text.toList.map fun char => UInt8.ofNat char.toNat

def cr : UInt8 := 13
def lf : UInt8 := 10
def sp : UInt8 := 32
def htab : UInt8 := 9
def colon : UInt8 := 58

def crlf : Bytes := [cr, lf]

/-- The lowercase form of an ASCII letter; every other byte is its own. -/
def toAsciiLowercase (byte : UInt8) : UInt8 :=
  if 65 ≤ byte ∧ byte ≤ 90 then byte + 32 else byte

def eqIgnoreAsciiCase (left right : Bytes) : Bool :=
  left.map toAsciiLowercase == right.map toAsciiLowercase

/-! ### Spans -/

/-- A range of bytes in the parsed buffer. -/
structure Span where
  start : Nat
  stop : Nat
  deriving DecidableEq

namespace Span

def empty : Span := ⟨0, 0⟩

/-- The bytes of the span, or nothing when the span is out of range. -/
def of (span : Span) (input : Bytes) : Bytes :=
  if span.start ≤ span.stop ∧ span.stop ≤ input.length then
    (input.drop span.start).take (span.stop - span.start)
  else []

end Span

/-! ### Field names -/

/-- A registered field name. -/
inductive HeaderName where
  | accept | acceptCharset | acceptEncoding | acceptLanguage | acceptRanges | age | allow
  | authenticationInfo | authorization | cacheControl | connection | contentEncoding
  | contentLanguage | contentLength | contentLocation | contentRange | contentType | date | eTag
  | expect | expires | «from» | host | ifMatch | ifModifiedSince | ifNoneMatch | ifRange
  | ifUnmodifiedSince | lastModified | location | maxForwards | mimeVersion | pragma
  | proxyAuthenticate | proxyAuthenticationInfo | proxyAuthorization | range | referer
  | retryAfter | server | te | trailer | transferEncoding | upgrade | userAgent | vary | via
  | warning | wwwAuthenticate
  deriving DecidableEq

namespace HeaderName

/-- Every name of the table, in id order. -/
def all : List HeaderName :=
  [accept, acceptCharset, acceptEncoding, acceptLanguage, acceptRanges, age, allow,
    authenticationInfo, authorization, cacheControl, connection, contentEncoding, contentLanguage,
    contentLength, contentLocation, contentRange, contentType, date, eTag, expect, expires, «from»,
    host, ifMatch, ifModifiedSince, ifNoneMatch, ifRange, ifUnmodifiedSince, lastModified, location,
    maxForwards, mimeVersion, pragma, proxyAuthenticate, proxyAuthenticationInfo,
    proxyAuthorization, range, referer, retryAfter, server, te, trailer, transferEncoding, upgrade,
    userAgent, vary, via, warning, wwwAuthenticate]

/-- The spelling the registry records. -/
def canonical : HeaderName → String
  | accept => "Accept"
  | acceptCharset => "Accept-Charset"
  | acceptEncoding => "Accept-Encoding"
  | acceptLanguage => "Accept-Language"
  | acceptRanges => "Accept-Ranges"
  | age => "Age"
  | allow => "Allow"
  | authenticationInfo => "Authentication-Info"
  | authorization => "Authorization"
  | cacheControl => "Cache-Control"
  | connection => "Connection"
  | contentEncoding => "Content-Encoding"
  | contentLanguage => "Content-Language"
  | contentLength => "Content-Length"
  | contentLocation => "Content-Location"
  | contentRange => "Content-Range"
  | contentType => "Content-Type"
  | date => "Date"
  | eTag => "ETag"
  | expect => "Expect"
  | expires => "Expires"
  | «from» => "From"
  | host => "Host"
  | ifMatch => "If-Match"
  | ifModifiedSince => "If-Modified-Since"
  | ifNoneMatch => "If-None-Match"
  | ifRange => "If-Range"
  | ifUnmodifiedSince => "If-Unmodified-Since"
  | lastModified => "Last-Modified"
  | location => "Location"
  | maxForwards => "Max-Forwards"
  | mimeVersion => "MIME-Version"
  | pragma => "Pragma"
  | proxyAuthenticate => "Proxy-Authenticate"
  | proxyAuthenticationInfo => "Proxy-Authentication-Info"
  | proxyAuthorization => "Proxy-Authorization"
  | range => "Range"
  | referer => "Referer"
  | retryAfter => "Retry-After"
  | server => "Server"
  | te => "TE"
  | trailer => "Trailer"
  | transferEncoding => "Transfer-Encoding"
  | upgrade => "Upgrade"
  | userAgent => "User-Agent"
  | vary => "Vary"
  | via => "Via"
  | warning => "Warning"
  | wwwAuthenticate => "WWW-Authenticate"

/-- The lowercase spelling, as bytes; the source's table spells it out beside the canonical
one and tests that they agree. -/
def asBytes (name : HeaderName) : Bytes := (ascii name.canonical).map toAsciiLowercase

/-- The longest name in the table, in bytes. -/
def maxLen : Nat := 25

def parseLowercase (name : Bytes) : Option HeaderName := all.find? fun known => known.asBytes == name

/-- Recognizes a name in any case. -/
def parse (name : Bytes) : Option HeaderName :=
  if name.length > maxLen then none else parseLowercase (name.map toAsciiLowercase)

end HeaderName

/-- One field line: the spans of its name and value, and the interned name. -/
structure Field where
  name : Span
  value : Span
  id : Option HeaderName
  deriving DecidableEq

def Field.empty : Field := ⟨Span.empty, Span.empty, none⟩

/-! ### Methods -/

/-- A standardized request method. -/
inductive Method where
  | get | head | post | put | delete | connect | options | trace | patch
  deriving DecidableEq

namespace Method

/-- Recognizes a method token; the match is case-sensitive. -/
def parse (token : Bytes) : Option Method :=
  if token = ascii "GET" then some get
  else if token = ascii "HEAD" then some head
  else if token = ascii "POST" then some post
  else if token = ascii "PUT" then some put
  else if token = ascii "DELETE" then some delete
  else if token = ascii "CONNECT" then some connect
  else if token = ascii "OPTIONS" then some options
  else if token = ascii "TRACE" then some trace
  else if token = ascii "PATCH" then some patch
  else none

def isSafe : Method → Bool
  | get | head | options | trace => true
  | post | put | delete | connect | patch => false

end Method

/-! ### Status codes -/

/-- A status code, 100 to 599. -/
structure StatusCode where
  code : Nat
  valid : 100 ≤ code ∧ code ≤ 599
  deriving DecidableEq

namespace StatusCode

def switchingProtocols : StatusCode := ⟨101, by decide⟩
def ok : StatusCode := ⟨200, by decide⟩
def partialContent : StatusCode := ⟨206, by decide⟩
def notModified : StatusCode := ⟨304, by decide⟩
def badRequest : StatusCode := ⟨400, by decide⟩
def forbidden : StatusCode := ⟨403, by decide⟩
def notFound : StatusCode := ⟨404, by decide⟩
def methodNotAllowed : StatusCode := ⟨405, by decide⟩
def requestTimeout : StatusCode := ⟨408, by decide⟩
def preconditionFailed : StatusCode := ⟨412, by decide⟩
def contentTooLarge : StatusCode := ⟨413, by decide⟩
def uriTooLong : StatusCode := ⟨414, by decide⟩
def rangeNotSatisfiable : StatusCode := ⟨416, by decide⟩
def expectationFailed : StatusCode := ⟨417, by decide⟩
def headerFieldsTooLarge : StatusCode := ⟨431, by decide⟩
def internalServerError : StatusCode := ⟨500, by decide⟩
def notImplemented : StatusCode := ⟨501, by decide⟩
def serviceUnavailable : StatusCode := ⟨503, by decide⟩
def httpVersionNotSupported : StatusCode := ⟨505, by decide⟩

/-- The reason phrase recommended for a code of the table. -/
def canonicalReason (status : StatusCode) : Option String :=
  match status.code with
  | 100 => some "Continue"
  | 101 => some "Switching Protocols"
  | 200 => some "OK"
  | 201 => some "Created"
  | 202 => some "Accepted"
  | 203 => some "Non-Authoritative Information"
  | 204 => some "No Content"
  | 205 => some "Reset Content"
  | 206 => some "Partial Content"
  | 300 => some "Multiple Choices"
  | 301 => some "Moved Permanently"
  | 302 => some "Found"
  | 303 => some "See Other"
  | 304 => some "Not Modified"
  | 305 => some "Use Proxy"
  | 307 => some "Temporary Redirect"
  | 308 => some "Permanent Redirect"
  | 400 => some "Bad Request"
  | 401 => some "Unauthorized"
  | 402 => some "Payment Required"
  | 403 => some "Forbidden"
  | 404 => some "Not Found"
  | 405 => some "Method Not Allowed"
  | 406 => some "Not Acceptable"
  | 407 => some "Proxy Authentication Required"
  | 408 => some "Request Timeout"
  | 409 => some "Conflict"
  | 410 => some "Gone"
  | 411 => some "Length Required"
  | 412 => some "Precondition Failed"
  | 413 => some "Content Too Large"
  | 414 => some "URI Too Long"
  | 415 => some "Unsupported Media Type"
  | 416 => some "Range Not Satisfiable"
  | 417 => some "Expectation Failed"
  | 421 => some "Misdirected Request"
  | 422 => some "Unprocessable Content"
  | 426 => some "Upgrade Required"
  | 500 => some "Internal Server Error"
  | 501 => some "Not Implemented"
  | 502 => some "Bad Gateway"
  | 503 => some "Service Unavailable"
  | 504 => some "Gateway Timeout"
  | 505 => some "HTTP Version Not Supported"
  | _ => none

def isInformational (status : StatusCode) : Bool := status.code / 100 == 1

end StatusCode

/-! ### Rejections and limits -/

/-- A message the codec refuses, with the status the connection answers and whether it
closes afterwards. -/
structure Reject where
  status : StatusCode
  close : Bool
  deriving DecidableEq

namespace Reject

def closing (status : StatusCode) : Reject := ⟨status, true⟩
def badRequest : Reject := closing .badRequest
def headerFieldsTooLarge : Reject := closing .headerFieldsTooLarge

end Reject

/-- The configured HTTP/1.1 limits. Durations count in the unit of the clock. -/
structure Http1Limits where
  maxRequestLine : Nat
  maxHeaderField : Nat
  maxHeaderCount : Nat
  headerTableEntries : Nat
  maxHeadBytes : Nat
  maxBody : Nat
  maxRequestsPerConnection : Nat
  maxPipelined : Nat
  maxChunkSizeDigits : Nat
  maxChunkExtension : Nat
  maxTrailerBytes : Nat
  headerReadTimeout : Nat
  idleKeepAlive : Nat
  bodyReadIdle : Nat
  sendIdle : Nat
  requestTotal : Nat
  deriving DecidableEq

/-- The defaults, with the timeouts in milliseconds. -/
def Http1Limits.default : Http1Limits where
  maxRequestLine := 8192
  maxHeaderField := 8192
  maxHeaderCount := 100
  headerTableEntries := 64
  maxHeadBytes := 32768
  maxBody := 1048576
  maxRequestsPerConnection := 1000
  maxPipelined := 8
  maxChunkSizeDigits := 16
  maxChunkExtension := 256
  maxTrailerBytes := 4096
  headerReadTimeout := 30000
  idleKeepAlive := 60000
  bodyReadIdle := 60000
  sendIdle := 60000
  requestTotal := 300000

/-! ### The parsed head -/

inductive Version where
  | http10
  | http11
  deriving DecidableEq

/-- The form of a request target. -/
inductive TargetForm where
  | origin
  | absolute
  | authority
  | asterisk
  deriving DecidableEq

/-- How the message body is delimited. -/
inductive BodyLength where
  | none
  | length (octets : Nat)
  | chunked
  deriving DecidableEq

/-- What the `Expect` field asks for. -/
inductive Expect where
  | none
  | continue
  | other
  deriving DecidableEq

/-- A parsed request head. -/
structure Head where
  method : Option Method
  methodToken : Span
  target : Span
  form : TargetForm
  path : Span
  authority : Option Span
  host : Option Span
  version : Version
  fieldCount : Nat
  body : BodyLength
  keepAlive : Bool
  expect : Expect
  upgrade : Bool
  len : Nat
  deriving DecidableEq

/-- The outcome of a parse. -/
inductive Status where
  | complete (head : Head)
  | incomplete
  | reject (reject : Reject)
  deriving DecidableEq

/-! ### Tables filled from the start -/

/-- The entries up to one that was just written. -/
theorem take_set_succ {Entry : Type} {entries : List Entry} {count : Nat}
    (room : count < entries.length) (entry : Entry) :
    (entries.set count entry).take (count + 1) = entries.take count ++ [entry] := by
  rw [List.take_add_one, List.take_set_of_le (Nat.le_refl _), List.getElem?_set_self room]
  rfl

/-! ### Span lemmas -/

namespace Span

theorem of_append {span : Span} {input : Bytes} (inside : span.stop ≤ input.length)
    (rest : Bytes) : span.of (input ++ rest) = span.of input := by
  unfold of
  by_cases ordered : span.start ≤ span.stop
  · rw [if_pos ⟨ordered, by rw [List.length_append]; omega⟩, if_pos ⟨ordered, inside⟩,
      List.drop_append_of_le_length (by omega),
      List.take_append_of_le_length (by rw [List.length_drop]; omega)]
  · rw [if_neg (by tauto), if_neg (by tauto)]

end Span

end ZeroServer.Http1
