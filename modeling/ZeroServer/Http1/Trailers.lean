/-
This file holds the trailer section parser the connection driver runs over the section a
chunked body ended with: one field line after another up to the end of the section, the
fields that cannot be processed after the content dropped, and the others kept in the
caller's table.
-/

import ZeroServer.Http1.Chunked

namespace ZeroServer.Http1

/-- Whether a registered name cannot be processed after the content. -/
def HeaderName.refusedInTrailers : HeaderName → Bool
  | .accept | .acceptCharset | .acceptEncoding | .acceptLanguage | .authorization | .cacheControl
  | .connection | .contentEncoding | .contentLanguage | .contentLength | .contentLocation
  | .contentRange | .contentType | .expect | .host | .ifMatch | .ifModifiedSince | .ifNoneMatch
  | .ifRange | .ifUnmodifiedSince | .maxForwards | .pragma | .proxyAuthenticate
  | .proxyAuthorization | .range | .te | .trailer | .transferEncoding | .upgrade | .via
  | .wwwAuthenticate => true
  | _ => false

/-- Whether a trailer field of this name may be kept. -/
def isTrailerAllowed (name : Bytes) : Bool :=
  match HeaderName.parse name with
  | some id => !id.refusedInTrailers
  | none =>
    !(eqIgnoreAsciiCase name (ascii "cookie") || eqIgnoreAsciiCase name (ascii "set-cookie") ||
      eqIgnoreAsciiCase name (ascii "keep-alive") ||
      eqIgnoreAsciiCase name (ascii "proxy-connection") ||
      eqIgnoreAsciiCase name (ascii "origin"))

/-- One line of the section: unlike a header line it may not run past the section's end. -/
def trailerLine (input : Bytes) (pos sectionEnd : Nat) : Except Reject FieldLine :=
  let rest := (Span.mk pos sectionEnd).of input
  if (rest[0]?).any isOws then .error .badRequest
  else
    let nameLen := scanHeaderName rest
    if nameLen = 0 then .error .badRequest
    else if byte input (pos + nameLen) ≠ some colon then .error .badRequest
    else
      let colonEnd := pos + nameLen + 1
      let valueStart := colonEnd + scan ((Span.mk colonEnd sectionEnd).of input) isOws
      let valueLimit := valueStart + scanHeaderValue ((Span.mk valueStart sectionEnd).of input)
      match expectCrlf input valueLimit with
      | .found =>
        .ok ⟨⟨pos, pos + nameLen⟩, ⟨valueStart, trimValueEnd input valueStart valueLimit⟩,
          valueLimit + 2⟩
      | .incomplete => .error .badRequest
      | .invalid => .error .badRequest

theorem trailerLine_lt {input : Bytes} {pos sectionEnd : Nat} {line : FieldLine}
    (read : trailerLine input pos sectionEnd = .ok line) : pos < line.stop := by
  unfold trailerLine at read
  dsimp only at read
  repeat' (split at read <;> try cases read)
  dsimp only
  omega

/-- The lines from `pos` to the end of the section; `count` fields are in the table. -/
def trailerLoop (limits : Http1Limits) (input : Bytes) (sectionEnd pos count : Nat)
    (table : List Field) : Except Reject (Nat × List Field) :=
  if pos < sectionEnd then
    match step : trailerLine input pos sectionEnd with
    | .error reject => .error reject
    | .ok line =>
      if line.stop - pos > limits.maxHeaderField then .error .headerFieldsTooLarge
      else if isTrailerAllowed (line.name.of input) = false then
        trailerLoop limits input sectionEnd line.stop count table
      else if count < table.length then
        trailerLoop limits input sectionEnd line.stop (count + 1)
          (table.set count ⟨line.name, line.value, HeaderName.parse (line.name.of input)⟩)
      else .error .headerFieldsTooLarge
  else .ok (count, table)
termination_by sectionEnd - pos
decreasing_by
  all_goals
    have := trailerLine_lt step
    omega

/-- Parses a trailer section into the caller's table: how many fields it kept. -/
def parseTrailers (input : Bytes) (section_ : Span) (table : List Field)
    (limits : Http1Limits) : Except Reject (Nat × List Field) :=
  trailerLoop limits input section_.stop section_.start 0 table

end ZeroServer.Http1
