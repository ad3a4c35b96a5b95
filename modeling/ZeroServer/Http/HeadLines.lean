/-
This file reads a response head back line by line and proves that a handler can neither split nor
reframe a response: whatever it calls, the head says what the driver writes and, between, the lines
the calls accepted.
-/

import ZeroServer.Http.Call

namespace ZeroServer.Http

open Http1

/-! ### Reading a head back -/

/-- The name and the value of a field line. -/
def fieldOf (line : Bytes) : Option (Bytes × Bytes) :=
  let name := line.takeWhile (· != colon)
  if (ascii ": ").isPrefixOf (line.drop name.length) then
    some (name, line.drop (name.length + 2))
  else none

/-- The status line and the fields of a head that ends at its only empty line. -/
def readHead (head : Bytes) : Option (Bytes × List (Bytes × Bytes)) :=
  match Lib.readLines cr lf [] head with
  | some (statusLine :: rest) =>
    if [] ∉ statusLine :: rest.dropLast ∧ rest.getLast? = some [] then
      (rest.dropLast.mapM fieldOf).map (statusLine, ·)
    else none
  | _ => none

/-- A field line, without its line end. -/
def lineOf (field : Bytes × Bytes) : Bytes := field.1 ++ ascii ": " ++ field.2

/-- A name and a value that make one line with the name in front of its first colon. -/
def Readable (field : Bytes × Bytes) : Prop := colon ∉ field.1 ∧ Plain (lineOf field)

theorem fieldOf_lineOf {field : Bytes × Bytes} (readable : Readable field) :
    fieldOf (lineOf field) = some field := by
  have name : (lineOf field).takeWhile (· != colon) = field.1 := by
    unfold lineOf
    rw [List.append_assoc, List.takeWhile_append_of_pos]
    · exact List.append_nil _
    · intro byte member
      exact bne_iff_ne.mpr fun same => readable.1 (same ▸ member)
  unfold fieldOf
  dsimp only
  rw [name]
  unfold lineOf
  rw [if_pos]
  · rw [List.append_assoc, ← List.drop_drop, List.drop_left]
    rfl
  · rw [List.append_assoc, List.drop_left]
    exact List.isPrefixOf_iff_prefix.mpr (List.prefix_append _ _)

/-- A text of a status line, readable fields and an empty line reads back as those. -/
theorem readHead_writeLines {statusLine : Bytes} {fields : List (Bytes × Bytes)}
    (some_ : statusLine ≠ []) (plain : cr ∉ statusLine)
    (readable : ∀ field ∈ fields, Readable field) :
    readHead (Lib.writeLines cr lf (statusLine :: (fields.map lineOf ++ [[]]))) =
      some (statusLine, fields) := by
  have lines : Lib.readLines cr lf []
      (Lib.writeLines cr lf (statusLine :: (fields.map lineOf ++ [[]]))) =
        some (statusLine :: (fields.map lineOf ++ [[]])) := by
    refine Lib.readLines_writeLines fun line member => ?_
    rcases List.mem_cons.mp member with rfl | member
    · exact plain
    · rcases List.mem_append.mp member with inside | last
      · obtain ⟨field, known, rfl⟩ := List.mem_map.mp inside
        exact (readable field known).2.1
      · rw [List.mem_singleton.mp last]
        exact List.not_mem_nil
  unfold readHead
  rw [lines]
  dsimp only
  rw [List.dropLast_concat, List.getLast?_concat, if_pos]
  · have each : (fields.map lineOf).mapM fieldOf = some fields := by
      clear lines
      induction fields with
      | nil => rfl
      | cons field fields inductionHypothesis =>
        rw [List.map_cons, List.mapM_cons, fieldOf_lineOf (readable field List.mem_cons_self),
          inductionHypothesis fun other member => readable other (List.mem_cons_of_mem _ member)]
        rfl
    rw [each]
    rfl
  · refine ⟨fun member => ?_, rfl⟩
    rcases List.mem_cons.mp member with same | inside
    · exact some_ same.symm
    · obtain ⟨field, -, empty⟩ := List.mem_map.mp inside
      unfold lineOf at empty
      simp [ascii] at empty

/-! ### The driver's own fields -/

/-- The status line of a code, without its line end. -/
def statusText (status : StatusCode) : Bytes :=
  ascii "HTTP/1.1 " ++
    [status.code / 100, status.code / 10 % 10, status.code % 10].map
      (fun digit => UInt8.ofNat (48 + digit)) ++
    [sp] ++ ascii (status.canonicalReason.getD "")

namespace HeadParts

/-- The length the driver declares for a body. -/
def lengthField (parts : HeadParts) : List (Bytes × Bytes) :=
  if contentLengthAllowed parts.status && !parts.stream then
    [(ascii "Content-Length", decimal parts.bodyLen)] else []

/-- The fields the driver writes in front of the handler's. -/
def leading (parts : HeadParts) (shared : Shared) : List (Bytes × Bytes) :=
  [(ascii "Date", shared.date.1)] ++
    (shared.server.elim [] fun value => [(ascii "Server", value.1)]) ++ parts.lengthField

/-- The fields the driver writes behind the handler's. -/
def trailing (parts : HeadParts) : List (Bytes × Bytes) :=
  (if parts.upgrade || parts.advertiseUpgrade then [(ascii "Connection", ascii "Upgrade")]
    else []) ++
    if parts.close then [(ascii "Connection", ascii "close")]
    else if parts.keepAlive10 then [(ascii "Connection", ascii "keep-alive")]
    else []

end HeadParts

theorem plain_digits {digits : List Nat} (small : ∀ digit ∈ digits, digit < 10) :
    Plain (digits.map fun digit => UInt8.ofNat (48 + digit)) := by
  have apart : ∀ digit < 10, UInt8.ofNat (48 + digit) ≠ cr ∧ UInt8.ofNat (48 + digit) ≠ lf := by
    decide
  constructor
  · intro member
    obtain ⟨digit, known, same⟩ := List.mem_map.mp member
    exact (apart digit (small digit known)).1 same
  · intro member
    obtain ⟨digit, known, same⟩ := List.mem_map.mp member
    exact (apart digit (small digit known)).2 same

theorem plain_decimal (number : Nat) : Plain (decimal number) :=
  plain_digits fun digit member =>
    Lib.lowDigits_lt (by decide) number digit (List.mem_reverse.mp member)

/-- The names and the fixed texts of the driver's own fields. -/
def driverTexts : List Bytes :=
  ["Date", "Server", "Content-Length", "Connection", "Upgrade", "close", "keep-alive"].map ascii

theorem driverTexts_readable : ∀ text ∈ driverTexts, colon ∉ text ∧ cr ∉ text ∧ lf ∉ text := by
  simp [driverTexts, ascii, colon, cr, lf]

theorem plain_separators :
    Plain (ascii ": ") ∧ Plain (ascii "HTTP/1.1 ") ∧ ascii "HTTP/1.1 " ≠ [] := by
  simp [Plain, ascii, cr, lf]

theorem plain_reason (status : StatusCode) : Plain (ascii (status.canonicalReason.getD "")) := by
  unfold Plain StatusCode.canonicalReason
  split <;> simp [ascii, cr, lf]

theorem plain_statusText (status : StatusCode) : Plain (statusText status) := by
  refine (((plain_separators.2.1.append (plain_digits ?_)).append
    ⟨by decide, by decide⟩)).append (plain_reason status)
  intro digit member
  have valid := status.valid
  simp only [List.mem_cons, List.not_mem_nil, or_false] at member
  omega

theorem readable_driver {name value : Bytes} (known : name ∈ driverTexts) (valid : Plain value) :
    Readable (name, value) := by
  obtain ⟨free, plain⟩ := driverTexts_readable name known
  exact ⟨free, (Plain.append plain plain_separators.1).append valid⟩

theorem readable_line (line : ResponseField) : Readable (line.name, line.value) :=
  ⟨fun member => absurd (colon_notMem_of_token line.token colon member) (by decide), line.plain⟩

theorem readable_leading (parts : HeadParts) (shared : Shared) :
    ∀ field ∈ parts.leading shared, Readable field := by
  intro field member
  unfold HeadParts.leading HeadParts.lengthField at member
  rcases List.mem_append.mp member with front | length
  · rcases List.mem_append.mp front with date | server
    · rw [List.mem_singleton.mp date]
      exact readable_driver (by simp [driverTexts]) (plain_of_value shared.date.2)
    · rcases held : shared.server with _ | value
      · rw [held] at server
        cases server
      · rw [held] at server
        rw [List.mem_singleton.mp server]
        exact readable_driver (by simp [driverTexts]) (plain_of_value value.2)
  · split at length
    · rw [List.mem_singleton.mp length]
      exact readable_driver (by simp [driverTexts]) (plain_decimal _)
    · cases length

theorem readable_trailing (parts : HeadParts) : ∀ field ∈ parts.trailing, Readable field := by
  have connection : ∀ value ∈ driverTexts, Readable (ascii "Connection", value) :=
    fun value known => readable_driver (by simp [driverTexts]) (driverTexts_readable value known).2
  intro field member
  unfold HeadParts.trailing at member
  rcases List.mem_append.mp member with upgrade | persistence
  · split at upgrade
    · rw [List.mem_singleton.mp upgrade]
      exact connection _ (by simp [driverTexts])
    · cases upgrade
  · split at persistence
    · rw [List.mem_singleton.mp persistence]
      exact connection _ (by simp [driverTexts])
    · split at persistence
      · rw [List.mem_singleton.mp persistence]
        exact connection _ (by simp [driverTexts])
      · cases persistence

/-- The text of fields, each line ended. -/
def fieldsText (fields : List (Bytes × Bytes)) : Bytes :=
  Lib.writeLines cr lf (fields.map lineOf)

theorem block_eq_fieldsText (lines : List ResponseField) :
    block lines = fieldsText (lines.map fun line => (line.name, line.value)) := by
  unfold block fieldsText Lib.writeLines
  rw [List.map_map, List.flatMap_map]
  rfl

theorem fieldsText_append (first second : List (Bytes × Bytes)) :
    fieldsText (first ++ second) = fieldsText first ++ fieldsText second := by
  unfold fieldsText Lib.writeLines
  rw [List.map_append, List.flatMap_append]

theorem fieldsText_singleton (name value : Bytes) :
    fieldsText [(name, value)] = fieldText name value := List.append_nil _

/-- The text of a head over a block of accepted lines is its fields between the driver's. -/
theorem text_eq_writeLines (parts : HeadParts) (shared : Shared) (lines : List ResponseField) :
    ({ parts with date := shared.dateLine, server := shared.serverLine } : HeadParts).text
        (block lines) =
      Lib.writeLines cr lf (statusText parts.status ::
        ((parts.leading shared ++ lines.map (fun line => (line.name, line.value)) ++
          parts.trailing).map lineOf ++ [[]])) := by
  have server : shared.serverLine =
      fieldsText (shared.server.elim [] fun value => [(ascii "Server", value.1)]) := by
    unfold Shared.serverLine
    cases shared.server
    · rfl
    · exact (fieldsText_singleton _ _).symm
  have split : Lib.writeLines cr lf (statusText parts.status ::
      ((parts.leading shared ++ lines.map (fun line => (line.name, line.value)) ++
        parts.trailing).map lineOf ++ [[]])) =
      parts.status.lineText ++ (fieldsText (parts.leading shared ++
        lines.map (fun line => (line.name, line.value)) ++ parts.trailing) ++ crlf) := by
    unfold Lib.writeLines fieldsText
    rw [List.flatMap_cons, List.flatMap_append]
    rfl
  rw [split, fieldsText_append, fieldsText_append, ← block_eq_fieldsText]
  unfold HeadParts.text HeadParts.leading HeadParts.trailing HeadParts.lengthField
  dsimp only
  rw [fieldsText_append, fieldsText_append, fieldsText_append, server, Shared.dateLine]
  simp only [List.append_assoc, fieldsText_singleton, apply_ite fieldsText]
  rfl

/-! ### No split response -/

/-- The fields of a head that declare a length. -/
def contentLengths (fields : List (Bytes × Bytes)) : List (Bytes × Bytes) :=
  fields.filter fun field => eqIgnoreAsciiCase field.1 (ascii "Content-Length")

theorem contentLengths_head (parts : HeadParts) (shared : Shared) (lines : List ResponseField) :
    contentLengths (parts.leading shared ++ lines.map (fun line => (line.name, line.value)) ++
      parts.trailing) = parts.lengthField := by
  have others_ : (lines.map fun line => (line.name, line.value)).filter
      (fun field => eqIgnoreAsciiCase field.1 (ascii "Content-Length")) = [] := by
    refine List.filter_eq_nil_iff.mpr fun field member => ?_
    obtain ⟨line, -, rfl⟩ := List.mem_map.mp member
    exact Bool.eq_false_iff.mp
      ((notDriver_iff line.name).mp line.notDriver .contentLength (by decide))
  have apart : eqIgnoreAsciiCase (ascii "Date") (ascii "Content-Length") = false ∧
      eqIgnoreAsciiCase (ascii "Server") (ascii "Content-Length") = false ∧
      eqIgnoreAsciiCase (ascii "Connection") (ascii "Content-Length") = false ∧
      eqIgnoreAsciiCase (ascii "Content-Length") (ascii "Content-Length") = true := by
    simp [eqIgnoreAsciiCase, ascii, toAsciiLowercase]
  obtain ⟨date, server, connection, length⟩ := apart
  have front : (parts.leading shared).filter
      (fun field => eqIgnoreAsciiCase field.1 (ascii "Content-Length")) = parts.lengthField := by
    unfold HeadParts.leading HeadParts.lengthField
    rw [List.filter_append, List.filter_append]
    cases shared.server <;> split <;> simp [date, server, length]
  have behind : parts.trailing.filter
      (fun field => eqIgnoreAsciiCase field.1 (ascii "Content-Length")) = [] := by
    unfold HeadParts.trailing
    rw [List.filter_append]
    split <;> split <;> simp [connection, apply_ite]
  unfold contentLengths
  rw [List.filter_append, List.filter_append, others_, front, behind, List.append_nil,
    List.append_nil]

theorem acceptedLines_concat (calls : List ResponseCall) (call : ResponseCall) :
    acceptedLines (calls ++ [call]) = call.edit (acceptedLines calls) := List.foldl_concat _ _ _ _

/-- A name set with both checks passed has its one line behind the lines of other names. -/
theorem acceptedLine_eq_some {name value : Bytes} (token : validateFieldName name = true)
    (free : isDriverField name = false) (valid : checkValue value = .ok ()) :
    ∃ line, acceptedLine name value = some line ∧ line.name = name ∧ line.value = value :=
  ⟨⟨name, value, token, free, (checkValue_ok_iff value).mp valid⟩,
    dif_pos ⟨token, free, (checkValue_ok_iff value).mp valid⟩, rfl, rfl⟩

theorem written_of_writeHead {capacity : Nat} {parts : HeadParts} {fields : Bytes}
    {writer : ResponseWriter}
    (written : writeHead (ResponseWriter.new capacity) parts fields = .ok writer) :
    writer.written = parts.text fields := by
  have text := writeHead_new capacity parts fields
  rw [written] at text
  split at text
  · exact Except.ok.inj text
  · cases text

/-- Whatever a handler calls, the block is the lines its calls accepted, none of them the driver's
and none with a line end inside; a refused call changes nothing; a name set again has one line; and
the head written over the block reads back as the driver's fields around the accepted lines, with
no empty line but the last and a length only of the body. -/
theorem response_unsplit (calls : List ResponseCall) :
    (Response.fresh.after calls).fields = block (acceptedLines calls) ∧
    (∀ line ∈ acceptedLines calls,
      validateFieldName line.name = true ∧ validateFieldValue line.value = true ∧
      Plain line.name ∧ Plain line.value ∧
      ∀ reserved ∈ driverFields,
        eqIgnoreAsciiCase line.name (ascii reserved.canonical) = false) ∧
    (∀ (call : ResponseCall) refused, (call.perform (Response.fresh.after calls)).1 = .error refused →
      (call.perform (Response.fresh.after calls)).2 = Response.fresh.after calls) ∧
    (∀ name value,
      ((ResponseCall.setHeader name value).perform (Response.fresh.after calls)).1 = .ok () →
      ∃ line : ResponseField, line.name = name ∧ line.value = value ∧
        acceptedLines (calls ++ [.setHeader name value]) =
          others name (acceptedLines calls) ++ [line]) ∧
    (∀ name value,
      ((ResponseCall.setHeaderId name value).perform (Response.fresh.after calls)).1 = .ok () →
      ∃ line : ResponseField, line.name = ascii name.canonical ∧ line.value = value ∧
        acceptedLines (calls ++ [.setHeaderId name value]) =
          others (ascii name.canonical) (acceptedLines calls) ++ [line]) ∧
    ∀ (shared : Shared) (parts : HeadParts) (capacity : Nat) (writer : ResponseWriter),
      writeHead (ResponseWriter.new capacity)
        { parts with date := shared.dateLine, server := shared.serverLine }
        (Response.fresh.after calls).fields = .ok writer →
      ∃ fields,
        fields = parts.leading shared ++
          (acceptedLines calls).map (fun line => (line.name, line.value)) ++ parts.trailing ∧
        readHead writer.written = some (statusText parts.status, fields) ∧
        contentLengths fields = parts.lengthField ∧
        Lib.numeral 10 0 ((decimal parts.bodyLen).map fun byte => byte.toNat - 48) =
          parts.bodyLen := by
  have held := fields_after calls
  refine ⟨held, fun line _ => ?_, fun call refused failed => ?_, fun name value done => ?_,
    fun name value done => ?_, fun shared parts capacity writer written => ?_⟩
  · exact ⟨line.token, line.valid, plain_of_token line.token, plain_of_value line.valid,
      (notDriver_iff line.name).mp line.notDriver⟩
  · have performed := performs_call held call
    generalize call.perform (Response.fresh.after calls) = outcome at performed failed ⊢
    rcases outcome with ⟨refusal | ⟨⟩, next⟩
    · exact performed.1
    · cases failed
  · rw [acceptedLines_concat]
    dsimp only [ResponseCall.perform, ResponseCall.edit] at done ⊢
    unfold Response.setHeader at done
    rcases named : checkName name with refused | ⟨⟩
    · rw [named] at done
      cases done
    · rcases valued : checkValue value with refused | ⟨⟩
      · rw [named, valued] at done
        cases done
      · obtain ⟨token, free⟩ := (checkName_ok_iff name).mp named
        obtain ⟨line, accepted, itsName, itsValue⟩ := acceptedLine_eq_some token free valued
        rw [accepted]
        exact ⟨line, itsName, itsValue, rfl⟩
  · rw [acceptedLines_concat]
    dsimp only [ResponseCall.perform, ResponseCall.edit] at done ⊢
    unfold Response.setHeaderId at done
    rcases named : checkId name with refused | ⟨⟩
    · rw [named] at done
      cases done
    · rcases valued : checkValue value with refused | ⟨⟩
      · rw [named, valued] at done
        cases done
      · obtain ⟨line, accepted, itsName, itsValue⟩ :=
          acceptedLine_eq_some (canonical_token name) ((checkId_ok_iff name).mp named) valued
        rw [accepted]
        exact ⟨line, itsName, itsValue, rfl⟩
  · refine ⟨_, rfl, ?_, contentLengths_head parts shared _, numeral_decimal _⟩
    rw [written_of_writeHead written, held, text_eq_writeLines]
    refine readHead_writeLines ?_ (plain_statusText parts.status).1 fun field member => ?_
    · unfold statusText
      rw [List.append_assoc, List.append_assoc]
      exact List.append_ne_nil_of_left_ne_nil plain_separators.2.2 _
    · rcases List.mem_append.mp member with front | behind
      · rcases List.mem_append.mp front with leading | handlers
        · exact readable_leading parts shared field leading
        · obtain ⟨line, -, rfl⟩ := List.mem_map.mp handlers
          exact readable_line line
      · exact readable_trailing parts field behind

/-- A handler that tries to split its response, to declare a length of its own, and to set a name
twice in two cases. -/
def splittingCalls : List ResponseCall :=
  [.header (ascii "X-Note") (ascii "a\r\n\r\nHTTP/1.1 200 OK"),
    .setHeader (ascii "content-length") (ascii "0"), .header (ascii "X-Tag") (ascii "1"),
    .header (ascii "Vary") (ascii "Origin")]

theorem response_unsplit_splitting :
    ((ResponseCall.header (ascii "X\r\nSet-Cookie") (ascii "a")).perform
        (Response.fresh.after splittingCalls)).2 = Response.fresh.after splittingCalls ∧
    (∃ line : ResponseField, line.name = ascii "x-tag" ∧ line.value = ascii "2" ∧
      acceptedLines (splittingCalls ++ [.setHeader (ascii "x-tag") (ascii "2")]) =
        others (ascii "x-tag") (acceptedLines splittingCalls) ++ [line]) ∧
    (Response.fresh.after splittingCalls).fields = ascii "X-Tag: 1\r\nVary: Origin\r\n" := by
  obtain ⟨-, -, refused, replaced, -, -⟩ := response_unsplit splittingCalls
  refine ⟨refused (.header (ascii "X\r\nSet-Cookie") (ascii "a")) (ascii "invalid field name")
    (by decide), replaced (ascii "x-tag") (ascii "2") (by decide),
    by decide⟩

end ZeroServer.Http
