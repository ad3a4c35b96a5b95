/-
This file embeds the request head parser: a request line and its field lines, read into
byte spans over the caller's buffer and a caller-owned field table.

The source is one function with early returns. It is cut here at its loops: the empty
lines before the request line, the method, the rest of the request line, one field line,
the field loop, and the decisions made once the whole head is there. An exit of the source
that calls `need_more_line` or `need_more` is `incomplete` in the part and meets the limit
where the part is used, since those calls take the same arguments at each of their exits.
-/

import ZeroServer.Http1.Grammar
import ZeroServer.Lib.Verdict

namespace ZeroServer.Http1

open Lib

/-! ### Bytes and line ends -/

def byte (input : Bytes) (at_ : Nat) : Option UInt8 := input[at_]?

def tail (input : Bytes) (from_ : Nat) : Bytes := input.drop from_

inductive LineEnd where
  | found
  | incomplete
  | invalid
  deriving DecidableEq

/-- Requires CRLF at an offset: a lone CR at the end of the input is incomplete, a CR
followed by anything but LF and any other byte are invalid. -/
def expectCrlf (input : Bytes) (at_ : Nat) : LineEnd :=
  match byte input at_ with
  | none => .incomplete
  | some first =>
    if first = cr then
      match byte input (at_ + 1) with
      | none => .incomplete
      | some second => if second = lf then .found else .invalid
    else .invalid

/-! ### The request line -/

/-- The longest method this server implements, in bytes. -/
def longestMethod : Nat := 7

def versionLen : Nat := 8

/-- Parses `HTTP-version`: `HTTP/` DIGIT `.` DIGIT, major 1. -/
def parseVersion (bytes : Bytes) : Except Reject Version :=
  if bytes.length < 5 then .error .badRequest
  else if bytes.take 5 ≠ ascii "HTTP/" then .error .badRequest
  else
    match bytes.drop 5 with
    | [major, dot, minor] =>
      if isAsciiDigit major ∧ dot = 46 ∧ isAsciiDigit minor then
        if major ≠ 49 then .error (.closing .httpVersionNotSupported)
        else .ok (if minor = 48 then .http10 else .http11)
      else .error .badRequest
    | _ => .error .badRequest

/-- Skips the empty lines before the request line. -/
def skipEmptyLines (limits : Http1Limits) (input : Bytes) (pos : Nat) : Verdict Reject Nat :=
  if crlf <+: tail input pos then
    if pos + 2 > limits.maxHeadBytes then .reject .headerFieldsTooLarge
    else skipEmptyLines limits input (pos + 2)
  else if pos ≥ input.length ∨ tail input pos = [cr] then .incomplete
  else .complete pos
termination_by input.length - pos
decreasing_by
  rename_i starts _
  have long := starts.length_le
  simp only [crlf, tail, List.length_drop, List.length_cons, List.length_nil] at long
  omega

/-- The method token at an offset, with the space behind it. -/
def methodToken (input : Bytes) (pos : Nat) : Verdict Reject Span :=
  let rest := tail input pos
  let methodLen := scanHeaderName rest
  if methodLen > longestMethod then .reject (.closing .notImplemented)
  else if methodLen = rest.length then .incomplete
  else if methodLen = 0 then .reject .badRequest
  else if byte input (pos + methodLen) ≠ some sp then .reject .badRequest
  else .complete ⟨pos, pos + methodLen⟩

/-- What a request line holds behind its method, and where it ends. -/
structure LineRest where
  target : Span
  version : Version
  stop : Nat
  deriving DecidableEq

/-- The target, the version and the line end behind the method's space. -/
def lineRest (input : Bytes) (pos : Nat) : Verdict Reject LineRest :=
  let rest := tail input pos
  let targetLen := scanTarget rest
  if targetLen = rest.length then .incomplete
  else if targetLen = 0 then .reject .badRequest
  else if byte input (pos + targetLen) ≠ some sp then .reject .badRequest
  else
    let versionAt := pos + targetLen + 1
    if input.length < versionAt + versionLen then .incomplete
    else
      match parseVersion ((tail input versionAt).take versionLen) with
      | .error reject => .reject reject
      | .ok version =>
        match expectCrlf input (versionAt + versionLen) with
        | .found => .complete ⟨⟨pos, pos + targetLen⟩, version, versionAt + versionLen + 2⟩
        | .incomplete => .incomplete
        | .invalid => .reject .badRequest

/-- Incomplete unless the request line already exceeds the line limit. -/
def needMoreLine {Value : Type} (limits : Http1Limits) (input : Bytes) (lineStart : Nat) :
    Verdict Reject Value :=
  if input.length - lineStart > limits.maxRequestLine then .reject (.closing .uriTooLong)
  else .incomplete

/-- The rest of the request line under the line limit. -/
def limitedLineRest (limits : Http1Limits) (input : Bytes) (lineStart pos : Nat) :
    Verdict Reject LineRest :=
  match lineRest input pos with
  | .complete line =>
    if line.stop - lineStart > limits.maxRequestLine then .reject (.closing .uriTooLong)
    else .complete line
  | .incomplete => needMoreLine limits input lineStart
  | .reject reject => .reject reject

/-! ### Field lines -/

/-- The first offset from `pos` on that holds no `OWS`. -/
def skipOws (input : Bytes) (pos : Nat) : Nat := pos + scan (tail input pos) isOws

/-- Moves the end of a value back over its trailing `OWS`. -/
def trimValueEnd (input : Bytes) (valueStart : Nat) : Nat → Nat
  | 0 => 0
  | valueEnd + 1 =>
    if valueEnd + 1 > valueStart ∧ (byte input valueEnd).any isOws then
      trimValueEnd input valueStart valueEnd
    else valueEnd + 1

structure FieldLine where
  name : Span
  value : Span
  stop : Nat
  deriving DecidableEq

/-- One turn of the field loop: a field line, or the empty line that ends the head. -/
def fieldLine (input : Bytes) (pos : Nat) : Verdict Reject (Option FieldLine) :=
  let rest := tail input pos
  match rest[0]? with
  | none => .incomplete
  | some first =>
    if first = cr then
      match rest[1]? with
      | none => .incomplete
      | some second => if second = lf then .complete none else .reject .badRequest
    else if first = lf ∨ first = sp ∨ first = htab then .reject .badRequest
    else
      let nameLen := scanHeaderName rest
      if nameLen = rest.length then .incomplete
      else if nameLen = 0 then .reject .badRequest
      else if byte input (pos + nameLen) ≠ some colon then .reject .badRequest
      else
        let valueStart := skipOws input (pos + nameLen + 1)
        let valueLimit := valueStart + scanHeaderValue (tail input valueStart)
        match expectCrlf input valueLimit with
        | .found =>
          .complete (some ⟨⟨pos, pos + nameLen⟩,
            ⟨valueStart, trimValueEnd input valueStart valueLimit⟩, valueLimit + 2⟩)
        | .incomplete => .incomplete
        | .invalid => .reject .badRequest

/-- The fields the parser interprets while it fills the table. -/
structure Interpreted where
  hostCount : Nat := 0
  host : Option Span := none
  contentLengthCount : Nat := 0
  contentLength : Option Span := none
  transferEncodingSeen : Bool := false
  transferEncodingInvalid : Bool := false
  transferEncodingLastChunked : Bool := false
  transferEncodingOther : Bool := false
  close : Bool := false
  keepAliveOption : Bool := false
  upgradeOption : Bool := false
  upgradeField : Bool := false
  expect : Expect := .none
  deriving DecidableEq

/-- The name of a transfer coding and whether parameters follow it. -/
def codingName (coding : Bytes) : Bytes × Bool :=
  match coding.findIdx? (· == 59) with
  | some at_ => (trimOws (coding.take at_), true)
  | none => (coding, false)

def interpretCoding (seen : Interpreted) (coding : Bytes) : Interpreted :=
  let (name, parameters) := codingName coding
  let chunked := eqIgnoreAsciiCase name (ascii "chunked")
  { seen with
    transferEncodingInvalid := seen.transferEncodingInvalid || (chunked && parameters)
    transferEncodingLastChunked := chunked
    transferEncodingOther := seen.transferEncodingOther || !chunked }

def interpretOption (seen : Interpreted) (option : Bytes) : Interpreted :=
  if eqIgnoreAsciiCase option (ascii "close") then { seen with close := true }
  else if eqIgnoreAsciiCase option (ascii "keep-alive") then { seen with keepAliveOption := true }
  else if eqIgnoreAsciiCase option (ascii "upgrade") then { seen with upgradeOption := true }
  else seen

def interpretExpectation (seen : Interpreted) (expectation : Bytes) : Interpreted :=
  if eqIgnoreAsciiCase expectation (ascii "100-continue") then
    if seen.expect = .none then { seen with expect := .continue } else seen
  else { seen with expect := .other }

/-- Records the fields the framing and connection decisions need. -/
def interpret (input : Bytes) (version : Version) (seen : Interpreted) (id : Option HeaderName)
    (value : Span) : Interpreted :=
  let bytes := value.of input
  match id with
  | some .host =>
    { seen with
      hostCount := seen.hostCount + 1
      host := if seen.host.isNone then some value else seen.host }
  | some .contentLength =>
    { seen with
      contentLengthCount := seen.contentLengthCount + 1
      contentLength := if seen.contentLength.isNone then some value else seen.contentLength }
  | some .transferEncoding =>
    let codings := listElements bytes
    let seen := codings.foldl interpretCoding { seen with transferEncodingSeen := true }
    if codings.isEmpty then { seen with transferEncodingInvalid := true } else seen
  | some .connection => (listElements bytes).foldl interpretOption seen
  | some .expect =>
    if version = .http11 then (listElements bytes).foldl interpretExpectation seen else seen
  | some .upgrade => { seen with upgradeField := true }
  | _ => seen

/-! ### What one field can change -/

variable {input : Bytes} {at_ : Nat}

theorem foldl_interpretOption (options : List Bytes) (seen : Interpreted) :
    ∃ close keepAliveOption upgradeOption, options.foldl interpretOption seen =
      { seen with close, keepAliveOption, upgradeOption } := by
  induction options generalizing seen with
  | nil => exact ⟨seen.close, seen.keepAliveOption, seen.upgradeOption, rfl⟩
  | cons option rest inductionHypothesis =>
    obtain ⟨close, keepAliveOption, upgradeOption, folded⟩ :=
      inductionHypothesis (interpretOption seen option)
    refine ⟨close, keepAliveOption, upgradeOption, ?_⟩
    rw [List.foldl_cons, folded]
    unfold interpretOption
    split
    · rfl
    · split
      · rfl
      · split <;> rfl

theorem foldl_interpretExpectation (expectations : List Bytes) (seen : Interpreted) :
    ∃ expect, expectations.foldl interpretExpectation seen = { seen with expect } := by
  induction expectations generalizing seen with
  | nil => exact ⟨seen.expect, rfl⟩
  | cons expectation rest inductionHypothesis =>
    obtain ⟨expect, folded⟩ := inductionHypothesis (interpretExpectation seen expectation)
    refine ⟨expect, ?_⟩
    rw [List.foldl_cons, folded]
    unfold interpretExpectation
    split
    · split <;> rfl
    · rfl

/-- The coding is `chunked`, whether or not parameters follow it. -/
def isChunked (coding : Bytes) : Bool := eqIgnoreAsciiCase (codingName coding).1 (ascii "chunked")

/-- What a list of transfer codings leaves: the two flags accumulate, the last coding decides
the third. -/
theorem foldl_interpretCoding (codings : List Bytes) (seen : Interpreted) :
    codings.foldl interpretCoding seen =
      { seen with
        transferEncodingInvalid := seen.transferEncodingInvalid ||
          codings.any fun coding => isChunked coding && (codingName coding).2
        transferEncodingLastChunked :=
          (codings.getLast?.map isChunked).getD seen.transferEncodingLastChunked
        transferEncodingOther := seen.transferEncodingOther ||
          codings.any fun coding => !isChunked coding } := by
  induction codings generalizing seen with
  | nil => simp
  | cons coding rest inductionHypothesis =>
    rw [List.foldl_cons, inductionHypothesis]
    rcases rest with - | ⟨next, rest⟩
    · simp [interpretCoding, isChunked]
    · obtain ⟨last, found⟩ : ∃ last, (next :: rest).getLast? = some last :=
        ⟨_, List.getLast?_eq_some_getLast (List.cons_ne_nil next rest)⟩
      simp [interpretCoding, isChunked, Bool.or_assoc, List.getLast?_cons_cons, found]

/-- A field is one of the three the framing and host rules read, or it leaves what they read
alone. -/
theorem interpret_cases (input : Bytes) (version : Version) (seen : Interpreted)
    (id : Option HeaderName) (value : Span) :
    (id = some .host ∧ interpret input version seen id value =
        { seen with
          hostCount := seen.hostCount + 1
          host := seen.host.or (some value) }) ∨
      (id = some .contentLength ∧ interpret input version seen id value =
        { seen with
          contentLengthCount := seen.contentLengthCount + 1
          contentLength := seen.contentLength.or (some value) }) ∨
      (id = some .transferEncoding ∧ interpret input version seen id value =
        { seen with
          transferEncodingSeen := true
          transferEncodingInvalid := seen.transferEncodingInvalid ||
            ((listElements (value.of input)).isEmpty ||
              (listElements (value.of input)).any fun coding =>
                isChunked coding && (codingName coding).2)
          transferEncodingLastChunked :=
            ((listElements (value.of input)).getLast?.map isChunked).getD
              seen.transferEncodingLastChunked
          transferEncodingOther := seen.transferEncodingOther ||
            (listElements (value.of input)).any fun coding => !isChunked coding }) ∨
      (id ≠ some .host ∧ id ≠ some .contentLength ∧ id ≠ some .transferEncoding ∧
        ∃ close keepAliveOption upgradeOption upgradeField expect,
          interpret input version seen id value =
            { seen with close, keepAliveOption, upgradeOption, upgradeField, expect }) := by
  unfold interpret
  dsimp only
  split
  · refine Or.inl ⟨rfl, ?_⟩
    rcases seen.host with - | span <;> rfl
  · refine Or.inr (Or.inl ⟨rfl, ?_⟩)
    rcases seen.contentLength with - | span <;> rfl
  · refine Or.inr (Or.inr (Or.inl ⟨rfl, ?_⟩))
    rw [foldl_interpretCoding]
    rcases listElements (value.of input) with - | ⟨coding, rest⟩ <;> simp
  · refine Or.inr (Or.inr (Or.inr ⟨by decide, by decide, by decide, ?_⟩))
    obtain ⟨close, keepAliveOption, upgradeOption, folded⟩ :=
      foldl_interpretOption (listElements (value.of input)) seen
    exact ⟨close, keepAliveOption, upgradeOption, seen.upgradeField, seen.expect, folded⟩
  · refine Or.inr (Or.inr (Or.inr ⟨by decide, by decide, by decide, ?_⟩))
    split
    · obtain ⟨expect, folded⟩ :=
        foldl_interpretExpectation (listElements (value.of input)) seen
      exact ⟨seen.close, seen.keepAliveOption, seen.upgradeOption, seen.upgradeField, expect, folded⟩
    · exact ⟨_, _, _, _, _, rfl⟩
  · exact Or.inr (Or.inr (Or.inr ⟨by decide, by decide, by decide, _, _, _, _, _, rfl⟩))
  · rename_i notHost notLength notCoding _ _ _
    exact Or.inr (Or.inr (Or.inr ⟨notHost, notLength, notCoding, _, _, _, _, _, rfl⟩))

/-- The field section: where it ends, how many entries it filled, what they said, and the
table. -/
structure FieldSection where
  stop : Nat
  fieldCount : Nat
  seen : Interpreted
  table : List Field
  deriving DecidableEq

theorem expectCrlf_found :
    expectCrlf input at_ = .found ↔ byte input at_ = some cr ∧ byte input (at_ + 1) = some lf := by
  unfold expectCrlf
  rcases byte input at_ with - | first
  · simp
  · rcases byte input (at_ + 1) with - | second
    · by_cases isCr : first = cr <;> simp [isCr]
    · by_cases isCr : first = cr <;> by_cases isLf : second = lf <;> simp [isCr, isLf]

theorem byte_lt {value : UInt8} (found : byte input at_ = some value) : at_ < input.length :=
  (List.getElem?_eq_some_iff.mp found).1

theorem expectCrlf_found_le (found : expectCrlf input at_ = .found) : at_ + 2 ≤ input.length := by
  have second := byte_lt (expectCrlf_found.mp found).2
  omega

/-- A field line ends behind its start, inside the input. -/
theorem fieldLine_lt {pos : Nat} {line : FieldLine}
    (complete : fieldLine input pos = .complete (some line)) :
    pos < line.stop ∧ line.stop ≤ input.length := by
  unfold fieldLine at complete
  dsimp only at complete
  repeat' (split at complete <;> try cases complete)
  rename_i found
  refine ⟨?_, expectCrlf_found_le found⟩
  simp only [skipOws]
  omega

/-- Reads field lines into the table until the empty line. -/
def fieldLoop (limits : Http1Limits) (version : Version) (input : Bytes) (pos fieldCount : Nat)
    (seen : Interpreted) (table : List Field) : List Field × Verdict Reject FieldSection :=
  match step : fieldLine input pos with
  | .incomplete => (table, .incomplete)
  | .reject reject => (table, .reject reject)
  | .complete none => (table, .complete ⟨pos + 2, fieldCount, seen, table⟩)
  | .complete (some line) =>
    if line.stop - pos > limits.maxHeaderField then (table, .reject .headerFieldsTooLarge)
    else if fieldCount ≥ limits.maxHeaderCount then (table, .reject .headerFieldsTooLarge)
    else if fieldCount ≥ table.length then (table, .reject .headerFieldsTooLarge)
    else
      let id := HeaderName.parse (line.name.of input)
      fieldLoop limits version input line.stop (fieldCount + 1)
        (interpret input version seen id line.value)
        (table.set fieldCount ⟨line.name, line.value, id⟩)
termination_by input.length - pos
decreasing_by
  have := fieldLine_lt step
  omega

/-- Incomplete unless the head already exceeds the head limit. -/
def needMore {Value : Type} (limits : Http1Limits) (input : Bytes) (headStart : Nat) :
    Verdict Reject Value :=
  if input.length - headStart > limits.maxHeadBytes then .reject .headerFieldsTooLarge
  else .incomplete

/-- The field section under the head limit. -/
def limitedFields (limits : Http1Limits) (version : Version) (input : Bytes) (headStart pos : Nat)
    (table : List Field) : List Field × Verdict Reject FieldSection :=
  match fieldLoop limits version input pos 0 {} table with
  | (table, .complete fields) =>
    if fields.stop - headStart > limits.maxHeadBytes then (table, .reject .headerFieldsTooLarge)
    else (table, .complete fields)
  | (table, .incomplete) => (table, needMore limits input headStart)
  | (table, .reject reject) => (table, .reject reject)

/-! ### The decisions of a whole head -/

/-- The index of the last byte that satisfies a predicate. -/
def rposition (bytes : Bytes) (wanted : UInt8 → Bool) : Option Nat :=
  (bytes.reverse.findIdx? wanted).map fun index => bytes.length - 1 - index

/-- Classifies an absolute-form target: an `http` or `https` URI whose authority is the
request's authority and whose host is not empty. -/
def classifyAbsolute (target : Span) (bytes : Bytes) (schemeLen : Nat) (method : Option Method) :
    Except Reject (TargetForm × Span × Option Span) :=
  if method = some .connect then .error .badRequest
  else
    let scheme := bytes.take schemeLen
    if !(eqIgnoreAsciiCase scheme (ascii "http") || eqIgnoreAsciiCase scheme (ascii "https")) then
      .error .badRequest
    else
      let authorityStart := schemeLen + 3
      let after := tail bytes authorityStart
      let authorityLen := after.findIdx fun byte => byte == 47 || byte == 63
      let authority := after.take authorityLen
      let hostStart := ((authority.findIdx? (· == 64)).map (· + 1)).getD 0
      let host := tail authority hostStart
      if host.isEmpty || !isHostValue host then .error .badRequest
      else
        let authoritySpan := Span.mk (target.start + authorityStart + hostStart)
          (target.start + authorityStart + authorityLen)
        .ok (.absolute, ⟨authoritySpan.stop, target.stop⟩, some authoritySpan)

/-- Classifies the request target and checks it against the method. -/
def classifyTarget (target : Span) (input : Bytes) (method : Option Method) :
    Except Reject (TargetForm × Span × Option Span) :=
  let bytes := target.of input
  if bytes = ascii "*" then
    if method ≠ some .options then .error .badRequest
    else .ok (.asterisk, Span.empty, none)
  else if bytes.head? = some 47 then
    if method = some .connect then .error .badRequest
    else .ok (.origin, target, none)
  else
    match (bytes.findIdx? (· == colon)).filter fun schemeLen =>
      (ascii "://").isPrefixOf (tail bytes schemeLen) with
    | some schemeLen => classifyAbsolute target bytes schemeLen method
    | none =>
      if method ≠ some .connect then .error .badRequest
      else
        match rposition bytes (· == colon) with
        | none => .error .badRequest
        | some colonAt =>
          let host := bytes.take colonAt
          let port := tail bytes (colonAt + 1)
          if host.isEmpty || !isHostValue host || !isDigits port then .error .badRequest
          else .ok (.authority, Span.empty, some target)

/-- The rules on `Host`: at most one, at least one on HTTP/1.1, with a valid value. -/
def checkHost (seen : Interpreted) (input : Bytes) (version : Version) : Except Reject Unit :=
  if seen.hostCount > 1 then .error .badRequest
  else if seen.hostCount = 0 ∧ version = .http11 then .error .badRequest
  else
    match seen.host with
    | some host => if !isHostValue (host.of input) then .error .badRequest else .ok ()
    | none => .ok ()

/-- Decides the body length from the framing fields. -/
def framing (seen : Interpreted) (input : Bytes) (version : Version) : Except Reject BodyLength :=
  if seen.transferEncodingSeen then
    if version = .http10 ∨ seen.contentLengthCount > 0 ∨ seen.transferEncodingInvalid ∨
        !seen.transferEncodingLastChunked then
      .error .badRequest
    else if seen.transferEncodingOther then .error (.closing .notImplemented)
    else .ok .chunked
  else
    match seen.contentLength with
    | none => .ok .none
    | some span =>
      if seen.contentLengthCount > 1 then .error .badRequest
      else
        match parseContentLength (span.of input) with
        | some length => .ok (.length length)
        | none => .error .badRequest

/-- What is decided once the empty line was read. -/
def conclude (input : Bytes) (methodToken : Span) (line : LineRest) (fields : FieldSection) :
    Except Reject Head := do
  let seen := fields.seen
  let method := Method.parse (methodToken.of input)
  let (form, path, targetAuthority) ← classifyTarget line.target input method
  checkHost seen input line.version
  let body ← framing seen input line.version
  pure {
    method
    methodToken
    target := line.target
    form
    path
    authority := targetAuthority.or seen.host
    host := seen.host
    version := line.version
    fieldCount := fields.fieldCount
    body
    keepAlive := !seen.close &&
      match line.version with
      | .http11 => true
      | .http10 => seen.keepAliveOption
    expect :=
      match line.version with
      | .http11 => seen.expect
      | .http10 => .none
    upgrade := line.version == .http11 && seen.upgradeField && seen.upgradeOption
    len := fields.stop }

/-! ### The parser -/

def parse (input : Bytes) (table : List Field) (limits : Http1Limits) :
    List Field × Verdict Reject Head :=
  match skipEmptyLines limits input 0 with
  | .incomplete => (table, .incomplete)
  | .reject reject => (table, .reject reject)
  | .complete headStart =>
    match methodToken input headStart with
    | .incomplete => (table, .incomplete)
    | .reject reject => (table, .reject reject)
    | .complete token =>
      match limitedLineRest limits input headStart (token.stop + 1) with
      | .incomplete => (table, .incomplete)
      | .reject reject => (table, .reject reject)
      | .complete line =>
        match limitedFields limits line.version input headStart line.stop table with
        | (table, .incomplete) => (table, .incomplete)
        | (table, .reject reject) => (table, .reject reject)
        | (table, .complete fields) =>
          match conclude input token line fields with
          | .ok head => (table, .complete head)
          | .error reject => (table, .reject reject)

/-- Parses a request head from the start of the input: the outcome, and the field table as
the parse left it. -/
def parseRequest (input : Bytes) (table : List Field) (limits : Http1Limits) :
    Status × List Field :=
  match parse input table limits with
  | (table, .complete head) => (.complete head, table)
  | (table, .incomplete) => (.incomplete, table)
  | (table, .reject reject) => (.reject reject, table)

end ZeroServer.Http1
