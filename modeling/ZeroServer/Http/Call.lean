/-
This file models the response a handler writes: field lines checked call by call, kept as one block
of text, and edited in place when a name is set again or removed. The driver copies the block into
the head it writes, so what a head says is the driver's fields and the lines the calls accepted.
-/

import ZeroServer.Lib.Lines
import ZeroServer.Http.Serialize

namespace ZeroServer.Http

open Http1

/-! ### The checks -/

/-- Fields the driver writes itself. -/
def driverFields : List HeaderName := [.contentLength, .connection, .transferEncoding, .date]

/-- The error of a refused call: the text of its codec error. -/
abbrev Codec := Bytes

def driverWrites (name : Bytes) : Codec := ascii "the driver writes " ++ name ++ ascii " itself"

/-- Refuse a field name that is not a `token` or that the driver writes itself. -/
def checkName (name : Bytes) : Except Codec Unit :=
  if !validateFieldName name then .error (ascii "invalid field name")
  else if isDriverField name then .error (driverWrites name)
  else .ok ()

/-- Refuse an interned name the driver writes itself. -/
def checkId (name : HeaderName) : Except Codec Unit :=
  if driverFields.contains name then .error (driverWrites (ascii name.canonical)) else .ok ()

/-- Refuse a value that is not a `field-value`. -/
def checkValue (value : Bytes) : Except Codec Unit :=
  if validateFieldValue value then .ok () else .error (ascii "invalid field value")

/-! ### Removing lines in place -/

/-- The length of the first line of a text, its line end included. -/
def lineLength (rest : Bytes) : Nat :=
  ((Lib.pairAt cr lf rest).map (· + 2)).getD rest.length

/-- Move the lines of other names down over those of the name, from the place read to the place
written. Every round reads a line, so a text has no more rounds than bytes. -/
def removeRounds (name : Bytes) : Nat → Bytes → Nat → Nat → Bytes × Nat
  | 0, fields, _, write => (fields, write)
  | rounds + 1, fields, read, write =>
    let rest := fields.drop read
    if rest = [] then (fields, write)
    else
      let len := lineLength rest
      let lineName := (rest.take len).takeWhile (· != colon)
      if eqIgnoreAsciiCase lineName name then removeRounds name rounds fields (read + len) write
      else
        removeRounds name rounds (Lib.copyWithin fields read (read + len) write) (read + len)
          (write + len)

/-- Remove every line of a name from validated field lines, in place. -/
def removeLines (fields name : Bytes) : Bytes :=
  let (fields, write) := removeRounds name fields.length fields 0 0
  fields.take write

/-! ### The calls -/

/-- The response under construction. -/
structure Response where
  status : Option StatusCode
  fields : Bytes
  body : Bytes
  touched : Bool

namespace Response

/-- The response of a reset record. -/
def fresh : Response := ⟨none, [], [], false⟩

def setStatus (response : Response) (status : StatusCode) : Response :=
  { response with status := some status, touched := true }

def pushLine (response : Response) (name value : Bytes) : Except Codec Unit × Response :=
  match checkValue value with
  | .error refused => (.error refused, response)
  | .ok () =>
    (.ok (), { response with
      fields := response.fields ++ name ++ ascii ": " ++ value ++ crlf
      touched := true })

/-- Add a field line. -/
def header (response : Response) (name value : Bytes) : Except Codec Unit × Response :=
  match checkName name with
  | .error refused => (.error refused, response)
  | .ok () => response.pushLine name value

/-- Add a field line under an interned name. -/
def headerId (response : Response) (name : HeaderName) (value : Bytes) :
    Except Codec Unit × Response :=
  match checkId name with
  | .error refused => (.error refused, response)
  | .ok () => response.pushLine (ascii name.canonical) value

/-- Remove every field line of a name. -/
def removeHeader (response : Response) (name : Bytes) : Response :=
  { response with fields := removeLines response.fields name }

/-- Replace every field line of a name with one line. -/
def setHeader (response : Response) (name value : Bytes) : Except Codec Unit × Response :=
  match checkName name with
  | .error refused => (.error refused, response)
  | .ok () =>
    match checkValue value with
    | .error refused => (.error refused, response)
    | .ok () => (response.removeHeader name).pushLine name value

/-- Replace every field line of an interned name with one line. -/
def setHeaderId (response : Response) (name : HeaderName) (value : Bytes) :
    Except Codec Unit × Response :=
  match checkId name with
  | .error refused => (.error refused, response)
  | .ok () =>
    match checkValue value with
    | .error refused => (.error refused, response)
    | .ok () => (response.removeHeader (ascii name.canonical)).pushLine (ascii name.canonical) value

def contentType (response : Response) (value : Bytes) : Except Codec Unit × Response :=
  response.headerId .contentType value

/-- A status as it is displayed. -/
def displayStatus (status : StatusCode) : Bytes :=
  decimal status.code ++ status.canonicalReason.elim [] fun reason => [sp] ++ ascii reason

/-- Set one of the redirection statuses that take a `Location`, and the `Location` field. -/
def redirect (response : Response) (status : StatusCode) (location : Bytes) :
    Except Codec Unit × Response :=
  if !([301, 302, 303, 307, 308].contains status.code) then
    (.error (displayStatus status ++ ascii " is not a redirect status"), response)
  else if !validateFieldValue location then (.error (ascii "invalid Location value"), response)
  else (response.setStatus status).headerId .location location

/-- Redirect while keeping the request method and content. -/
def redirectPreserving (response : Response) (permanent : Bool) (location : Bytes) :
    Except Codec Unit × Response :=
  response.redirect (if permanent then ⟨308, by decide⟩ else ⟨307, by decide⟩) location

/-- Append to the body. -/
def appendBody (response : Response) (bytes : Bytes) : Response :=
  { response with body := response.body ++ bytes, touched := true }

end Response

/-- A call a handler makes of its response. -/
inductive ResponseCall where
  | status (code : StatusCode)
  | header (name value : Bytes)
  | headerId (name : HeaderName) (value : Bytes)
  | setHeader (name value : Bytes)
  | setHeaderId (name : HeaderName) (value : Bytes)
  | removeHeader (name : Bytes)
  | contentType (value : Bytes)
  | redirect (status : StatusCode) (location : Bytes)
  | redirectPreserving (permanent : Bool) (location : Bytes)
  | body (bytes : Bytes)

def ResponseCall.perform (response : Response) : ResponseCall → Except Codec Unit × Response
  | .status code => (.ok (), response.setStatus code)
  | .header name value => response.header name value
  | .headerId name value => response.headerId name value
  | .setHeader name value => response.setHeader name value
  | .setHeaderId name value => response.setHeaderId name value
  | .removeHeader name => (.ok (), response.removeHeader name)
  | .contentType value => response.contentType value
  | .redirect code location => response.redirect code location
  | .redirectPreserving permanent location => response.redirectPreserving permanent location
  | .body bytes => (.ok (), response.appendBody bytes)

/-- The response after a sequence of calls, whether or not they were refused. -/
def Response.after (response : Response) (calls : List ResponseCall) : Response :=
  calls.foldl (fun response call => (call.perform response).2) response

/-! ### What the checks accept -/

variable {name value : Bytes}

/-- Bytes that hold no part of a line end. -/
def Plain (bytes : Bytes) : Prop := cr ∉ bytes ∧ lf ∉ bytes

theorem Plain.append {left right : Bytes} (first : Plain left) (second : Plain right) :
    Plain (left ++ right) :=
  ⟨fun member => (List.mem_append.mp member).elim first.1 second.1,
    fun member => (List.mem_append.mp member).elim first.2 second.2⟩

theorem plain_of_all {allowed : UInt8 → Bool} (noCr : allowed cr = false)
    (noLf : allowed lf = false) {bytes : Bytes} (all : bytes.all allowed = true) : Plain bytes := by
  rw [List.all_eq_true] at all
  constructor
  · intro member
    rw [all cr member] at noCr
    cases noCr
  · intro member
    rw [all lf member] at noLf
    cases noLf

theorem plain_of_token (token : validateFieldName name = true) : Plain name :=
  plain_of_all (by decide) (by decide) (Bool.and_eq_true_iff.mp token).2

theorem colon_notMem_of_token (token : validateFieldName name = true) :
    ∀ byte ∈ name, (byte != colon) = true := by
  intro byte member
  have tchar := List.all_eq_true.mp (Bool.and_eq_true_iff.mp token).2 byte member
  refine bne_iff_ne.mpr ?_
  rintro rfl
  exact absurd tchar (by decide)

theorem plain_of_value (valid : validateFieldValue value = true) : Plain value :=
  plain_of_all (by decide) (by decide) (Bool.and_eq_true_iff.mp valid).2

theorem validateFieldValue_of (first : ∀ byte ∈ value.head?, isOws byte = false)
    (last : ∀ byte ∈ value.getLast?, isOws byte = false)
    (inside : ∀ byte ∈ value, isFieldVchar byte = true ∨ isOws byte = true) :
    validateFieldValue value = true := by
  have edge : ∀ {held : Option UInt8}, (∀ byte ∈ held, isOws byte = false) →
      held.any isOws = false := by
    intro held dark
    cases held with
    | none => rfl
    | some byte => exact dark byte rfl
  unfold validateFieldValue
  rw [edge first, edge last, Bool.or_false, Bool.not_false, Bool.true_and, List.all_eq_true]
  exact fun byte member => (Bool.or_eq_true _ _).mpr (inside byte member)

theorem isOws_of_isFieldVchar {byte : UInt8} (vchar : isFieldVchar byte = true) :
    isOws byte = false := by
  have dark : isFieldVchar sp = false ∧ isFieldVchar htab = false := by decide
  rw [Bool.eq_false_iff]
  intro blank
  rcases (Bool.or_eq_true _ _).mp blank with space | tab
  · rw [beq_iff_eq.mp space, dark.1] at vchar
    cases vchar
  · rw [beq_iff_eq.mp tab, dark.2] at vchar
    cases vchar

/-- A value of visible characters alone. -/
theorem validateFieldValue_vchars (vchars : ∀ byte ∈ value, isFieldVchar byte = true) :
    validateFieldValue value = true :=
  validateFieldValue_of
    (fun byte held => isOws_of_isFieldVchar (vchars byte (List.mem_of_head? held)))
    (fun byte held => isOws_of_isFieldVchar (vchars byte (List.mem_of_getLast? held)))
    fun byte member => .inl (vchars byte member)

/-- A name that is not the driver's equals none of the driver's names in any case. -/
theorem notDriver_iff (name : Bytes) :
    isDriverField name = false ↔
      ∀ reserved ∈ driverFields, eqIgnoreAsciiCase name (ascii reserved.canonical) = false := by
  have known : ∀ reserved ∈ driverFields,
      HeaderName.parseLowercase reserved.asBytes = some reserved ∧
        reserved.asBytes.length ≤ HeaderName.maxLen := by decide +kernel
  constructor
  · intro free reserved member
    refine Bool.eq_false_iff.mpr fun same => ?_
    have spelled : name.map toAsciiLowercase = reserved.asBytes := beq_iff_eq.mp same
    have short : name.length ≤ HeaderName.maxLen := by
      rw [← List.length_map, spelled]
      exact (known reserved member).2
    unfold isDriverField HeaderName.parse at free
    rw [if_neg (Nat.not_lt.mpr short), spelled, (known reserved member).1] at free
    exact absurd (List.contains_iff_mem.mpr member) (Bool.eq_false_iff.mp free)
  · intro apart
    refine Bool.eq_false_iff.mpr fun driver => ?_
    obtain ⟨reserved, parsed, member⟩ := (Option.any_eq_true _ _).mp driver
    unfold HeaderName.parse at parsed
    split at parsed
    · cases parsed
    · have spelled := List.find?_some parsed
      have same : eqIgnoreAsciiCase name (ascii reserved.canonical) = true :=
        beq_iff_eq.mpr (beq_iff_eq.mp spelled).symm
      rw [apart reserved (List.contains_iff_mem.mp member)] at same
      cases same

/-- Every registered name is a token, and one that is not the driver's differs from each of the
driver's in its length or, at the same length, in more than its case. -/
theorem canonical_apart : ∀ name ∈ HeaderName.all,
    validateFieldName (ascii name.canonical) = true ∧
      (driverFields.contains name = false → ∀ reserved ∈ driverFields,
        (ascii name.canonical).length ≠ (ascii reserved.canonical).length ∨
          eqIgnoreAsciiCase (ascii name.canonical) (ascii reserved.canonical) = false) := by
  decide +kernel

theorem eqIgnoreAsciiCase_of_length {left right : Bytes} (differ : left.length ≠ right.length) :
    eqIgnoreAsciiCase left right = false := by
  refine Bool.eq_false_iff.mpr fun same => differ ?_
  have lengths := congrArg List.length (beq_iff_eq.mp same)
  rwa [List.length_map, List.length_map] at lengths

/-- Every registered name is a token, and only the driver's own is one of the driver's. -/
theorem canonical_accepted : ∀ name ∈ HeaderName.all,
    validateFieldName (ascii name.canonical) = true ∧
      (driverFields.contains name = false → ∀ reserved ∈ driverFields,
        eqIgnoreAsciiCase (ascii name.canonical) (ascii reserved.canonical) = false) := by
  intro name member
  obtain ⟨token, apart⟩ := canonical_apart name member
  refine ⟨token, fun free reserved driver => ?_⟩
  rcases apart free reserved driver with differ | apart
  · exact eqIgnoreAsciiCase_of_length differ
  · exact apart

theorem mem_all (name : HeaderName) : name ∈ HeaderName.all := by cases name <;> decide

theorem canonical_token (name : HeaderName) : validateFieldName (ascii name.canonical) = true :=
  (canonical_accepted name (mem_all name)).1

theorem canonical_notDriver {name : HeaderName} (free : driverFields.contains name = false) :
    isDriverField (ascii name.canonical) = false :=
  (notDriver_iff _).mpr ((canonical_accepted name (mem_all name)).2 free)

/-! ### The block as its lines -/

/-- The text of accepted lines, in order. -/
def block (lines : List ResponseField) : Bytes := lines.flatMap ResponseField.text

/-- The lines of other names. -/
def others (name : Bytes) (lines : List ResponseField) : List ResponseField :=
  lines.filter fun line => !eqIgnoreAsciiCase line.name name

/-- The text of a line, without its line end. -/
def ResponseField.lineText (line : ResponseField) : Bytes := line.name ++ ascii ": " ++ line.value

theorem ResponseField.text_eq (line : ResponseField) : line.text = line.lineText ++ [cr, lf] := rfl

theorem ResponseField.plain (line : ResponseField) : Plain line.lineText :=
  ((plain_of_token line.token).append (by simp [Plain, ascii, cr, lf])).append
    (plain_of_value line.valid)

theorem ResponseField.lineLength_text (line : ResponseField) (rest : Bytes) :
    lineLength (line.text ++ rest) = line.text.length := by
  unfold lineLength
  rw [line.text_eq, List.append_assoc, List.cons_append, List.cons_append, List.nil_append,
    Lib.pairAt_append line.plain.1, List.length_append, List.length_append]
  rfl

theorem ResponseField.lineName_text (line : ResponseField) :
    line.text.takeWhile (· != colon) = line.name := by
  have rest : line.text = line.name ++ colon :: (sp :: line.value ++ crlf) := by
    unfold ResponseField.text fieldText
    rw [List.append_assoc, List.append_assoc]
    rfl
  rw [rest, List.takeWhile_append_of_pos (colon_notMem_of_token line.token),
    List.takeWhile_cons_of_neg (by decide), List.append_nil]

/-- The rounds over the lines that are left: the text kept so far, whatever lies in the gap, and
the lines left become the text kept and the lines left of other names. -/
theorem removeRounds_lines (name : Bytes) {rounds : Nat} {kept gap : Bytes}
    {lines : List ResponseField} (enough : lines.length ≤ rounds) :
    ∃ fields write, removeRounds name rounds (kept ++ (gap ++ block lines))
        (kept.length + gap.length) kept.length = (fields, write) ∧
      fields.take write = kept ++ block (others name lines) := by
  induction lines generalizing rounds kept gap with
  | nil =>
    refine ⟨kept ++ (gap ++ []), kept.length, ?_, ?_⟩
    rotate_left
    · rw [List.take_left]
      exact (List.append_nil _).symm
    cases rounds with
    | zero => rfl
    | succ rounds =>
      rw [removeRounds, if_pos]
      · rfl
      · exact List.drop_eq_nil_of_le (by simp [block])
  | cons line lines inductionHypothesis =>
    obtain ⟨rounds, rfl⟩ : ∃ less, rounds = less + 1 :=
      ⟨rounds - 1, by rw [List.length_cons] at enough; omega⟩
    have left : (kept ++ (gap ++ block (line :: lines))).drop (kept.length + gap.length) =
        line.text ++ block lines := by
      rw [← List.append_assoc, ← List.length_append, List.drop_left]
      rfl
    have some_ : line.text ++ block lines ≠ [] := by
      rw [line.text_eq]
      simp
    have enough' : lines.length ≤ rounds := Nat.le_of_succ_le_succ enough
    rw [removeRounds]
    dsimp only
    rw [left, if_neg some_, line.lineLength_text, List.take_left, line.lineName_text]
    by_cases same : eqIgnoreAsciiCase line.name name = true
    · rw [if_pos same]
      have skipped := @inductionHypothesis _ kept (gap ++ line.text) enough'
      rw [List.length_append, ← Nat.add_assoc, List.append_assoc] at skipped
      unfold others at skipped ⊢
      rw [List.filter_cons_of_neg (by rw [same]; decide)]
      exact skipped
    · rw [if_neg same]
      obtain ⟨gap', length, moved⟩ := Lib.copyWithin_gap kept gap line.text (block lines)
      have kept' := @inductionHypothesis _ (kept ++ line.text) gap' enough'
      rw [length, List.length_append, Nat.add_right_comm, ← moved] at kept'
      unfold others at kept' ⊢
      rw [List.filter_cons_of_pos (by rw [Bool.eq_false_iff.mpr same]; rfl)]
      rw [List.append_assoc kept line.text] at kept'
      exact kept'

/-- Removing a name from a block leaves the lines of other names, in their order. -/
theorem removeLines_block (lines : List ResponseField) (name : Bytes) :
    removeLines (block lines) name = block (others name lines) := by
  have enough : lines.length ≤ (block lines).length := by
    induction lines with
    | nil => exact Nat.le_refl 0
    | cons line lines inductionHypothesis =>
      unfold block at inductionHypothesis ⊢
      rw [List.flatMap_cons, List.length_append, List.length_cons, line.text_eq, List.length_append]
      simp only [List.length_cons]
      omega
  obtain ⟨fields, write, ran, kept⟩ :=
    @removeRounds_lines name _ [] [] _ enough
  unfold removeLines
  rw [List.nil_append, List.nil_append] at ran
  rw [show removeRounds name (block lines).length (block lines) 0 0 = (fields, write) from ran]
  exact kept

theorem block_cons (line : ResponseField) (rest : List ResponseField) :
    block (line :: rest) = line.text ++ block rest := List.flatMap_cons

theorem ResponseField.text_ne_nil (line : ResponseField) (rest : Bytes) : line.text ++ rest ≠ [] := by
  rw [line.text_eq]
  simp

theorem ResponseField.eq_of_text {first second : ResponseField} (same : first.text = second.text) :
    first = second := by
  have names : first.name = second.name := by
    rw [← first.lineName_text, ← second.lineName_text, same]
  have values : first.value = second.value := by
    unfold ResponseField.text fieldText at same
    rw [names] at same
    simpa using same
  cases first
  cases second
  cases names
  cases values
  rfl

/-- A block is the text of one list of lines only. -/
theorem block_injective {first second : List ResponseField} (same : block first = block second) :
    first = second := by
  induction first generalizing second with
  | nil =>
    cases second with
    | nil => rfl
    | cons other rest => exact absurd same.symm (other.text_ne_nil _)
  | cons line rest inductionHypothesis =>
    cases second with
    | nil => exact absurd same (line.text_ne_nil _)
    | cons other others =>
      rw [block_cons, block_cons] at same
      have lengths : line.text.length = other.text.length := by
        rw [← line.lineLength_text (block rest), same, other.lineLength_text]
      obtain ⟨here, behind⟩ := List.append_inj same lengths
      rw [ResponseField.eq_of_text here, inductionHypothesis behind]

/-! ### What the calls do to the lines -/

/-- The line of a name and a value the checks accept. -/
def acceptedLine (name value : Bytes) : Option ResponseField :=
  if accepted : validateFieldName name = true ∧ isDriverField name = false ∧
      validateFieldValue value = true then
    some ⟨name, value, accepted.1, accepted.2.1, accepted.2.2⟩
  else none

/-- What an accepted call does to the lines; a refused one does nothing. -/
def ResponseCall.edit (lines : List ResponseField) : ResponseCall → List ResponseField
  | .header name value => lines ++ (acceptedLine name value).toList
  | .headerId name value => lines ++ (acceptedLine (ascii name.canonical) value).toList
  | .setHeader name value =>
    (acceptedLine name value).elim lines fun line => others name lines ++ [line]
  | .setHeaderId name value =>
    (acceptedLine (ascii name.canonical) value).elim lines fun line =>
      others (ascii name.canonical) lines ++ [line]
  | .removeHeader name => others name lines
  | .contentType value => lines ++ (acceptedLine (ascii "Content-Type") value).toList
  | .redirect code location =>
    if [301, 302, 303, 307, 308].contains code.code then
      lines ++ (acceptedLine (ascii "Location") location).toList
    else lines
  | .redirectPreserving _ location =>
    lines ++ (acceptedLine (ascii "Location") location).toList
  | .status _ | .body _ => lines

/-- The lines a sequence of calls accepted and left in place. -/
def acceptedLines (calls : List ResponseCall) : List ResponseField :=
  calls.foldl (fun lines call => call.edit lines) []

theorem block_append (first second : List ResponseField) :
    block (first ++ second) = block first ++ block second := List.flatMap_append

/-- A call answers an error and leaves the response, or it leaves a block of the lines it is
meant to. -/
def Performs (lines : List ResponseField) (response : Response) (edited : List ResponseField) :
    Except Codec Unit × Response → Prop
  | (.error _, next) => next = response ∧ edited = lines
  | (.ok (), next) => next.fields = block edited

section Performs

variable {response : Response} {lines : List ResponseField}

theorem checkName_ok_iff (name : Bytes) :
    checkName name = .ok () ↔ validateFieldName name = true ∧ isDriverField name = false := by
  unfold checkName
  cases token : validateFieldName name
  · exact ⟨fun refused => (by cases refused), fun both => (by cases both.1)⟩
  · cases free : isDriverField name
    · exact ⟨fun _ => ⟨rfl, rfl⟩, fun _ => rfl⟩
    · exact ⟨fun refused => (by cases refused), fun both => (by cases both.2)⟩

theorem checkId_ok_iff (name : HeaderName) :
    checkId name = .ok () ↔ isDriverField (ascii name.canonical) = false := by
  unfold checkId
  cases free : driverFields.contains name
  · exact ⟨fun _ => canonical_notDriver free, fun _ => rfl⟩
  · refine ⟨fun refused => (by cases refused), fun notDriver => ?_⟩
    have apart := (notDriver_iff _).mp notDriver name (List.contains_iff_mem.mp free)
    unfold eqIgnoreAsciiCase at apart
    rw [BEq.rfl] at apart
    cases apart

theorem checkValue_ok_iff (value : Bytes) :
    checkValue value = .ok () ↔ validateFieldValue value = true := by
  unfold checkValue
  cases validateFieldValue value
  · exact ⟨fun refused => (by cases refused), fun valid => (by cases valid)⟩
  · exact ⟨fun _ => rfl, fun _ => rfl⟩

theorem acceptedLine_eq_none (refused : ¬(validateFieldName name = true ∧
    isDriverField name = false ∧ validateFieldValue value = true)) :
    acceptedLine name value = none := dif_neg refused

/-- A line goes behind the block when its value is valid, and nothing changes otherwise. -/
theorem performs_pushLine (token : validateFieldName name = true)
    (free : isDriverField name = false) (held : response.fields = block lines) (value : Bytes) :
    Performs lines response (lines ++ (acceptedLine name value).toList)
      (response.pushLine name value) := by
  unfold Response.pushLine checkValue
  by_cases valid : validateFieldValue value = true
  · have line : acceptedLine name value = some ⟨name, value, token, free, valid⟩ :=
      dif_pos ⟨token, free, valid⟩
    rw [if_pos valid, line]
    dsimp only [Performs, Option.toList]
    rw [held, block_append]
    simp only [List.append_assoc, block, List.flatMap_cons, List.flatMap_nil, List.append_nil,
      ResponseField.text, fieldText]
  · have line : acceptedLine name value = none := dif_neg fun all => valid all.2.2
    rw [if_neg valid, line]
    exact ⟨rfl, List.append_nil _⟩

theorem performs_header (held : response.fields = block lines) (name value : Bytes) :
    Performs lines response (lines ++ (acceptedLine name value).toList)
      (response.header name value) := by
  unfold Response.header
  rcases checked : checkName name with refused | ⟨⟩
  · have none_ : acceptedLine name value = none := acceptedLine_eq_none fun all => by
      rw [(checkName_ok_iff name).mpr ⟨all.1, all.2.1⟩] at checked
      cases checked
    rw [none_]
    exact ⟨rfl, List.append_nil _⟩
  · obtain ⟨token, free⟩ := (checkName_ok_iff name).mp checked
    exact performs_pushLine token free held value

theorem performs_headerId (held : response.fields = block lines) (name : HeaderName)
    (value : Bytes) :
    Performs lines response (lines ++ (acceptedLine (ascii name.canonical) value).toList)
      (response.headerId name value) := by
  unfold Response.headerId
  rcases checked : checkId name with refused | ⟨⟩
  · have none_ : acceptedLine (ascii name.canonical) value = none := acceptedLine_eq_none fun all => by
      rw [(checkId_ok_iff name).mpr all.2.1] at checked
      cases checked
    rw [none_]
    exact ⟨rfl, List.append_nil _⟩
  · exact performs_pushLine (canonical_token name) ((checkId_ok_iff name).mp checked) held value

/-- The lines of a name give way to one line once its name and its value are accepted. -/
theorem performs_replace (token : validateFieldName name = true) (free : isDriverField name = false)
    (held : response.fields = block lines) :
    Performs lines response
      ((acceptedLine name value).elim lines fun line => others name lines ++ [line])
      (match checkValue value with
        | .error refused => (.error refused, response)
        | .ok () => (response.removeHeader name).pushLine name value) := by
  rcases checked : checkValue value with refused | ⟨⟩
  · have none_ : acceptedLine name value = none := acceptedLine_eq_none fun all => by
      rw [(checkValue_ok_iff value).mpr all.2.2] at checked
      cases checked
    rw [none_]
    exact ⟨rfl, rfl⟩
  · have valid := (checkValue_ok_iff value).mp checked
    have line : acceptedLine name value = some ⟨name, value, token, free, valid⟩ :=
      dif_pos ⟨token, free, valid⟩
    have removed : (response.removeHeader name).fields = block (others name lines) := by
      rw [← removeLines_block, ← held]
      rfl
    have pushed := performs_pushLine token free removed value
    rw [line] at pushed ⊢
    unfold Response.pushLine at pushed ⊢
    rw [checked] at pushed ⊢
    exact pushed

theorem performs_redirect (held : response.fields = block lines) (code : StatusCode)
    (location : Bytes) :
    Performs lines response
      (if [301, 302, 303, 307, 308].contains code.code then
        lines ++ (acceptedLine (ascii "Location") location).toList else lines)
      (response.redirect code location) := by
  unfold Response.redirect
  by_cases known : [301, 302, 303, 307, 308].contains code.code = true
  · rw [if_pos known, if_neg (by rw [known]; decide)]
    by_cases valid : validateFieldValue location = true
    · rw [if_neg (by rw [valid]; decide)]
      have accepted : checkId .location = .ok () := rfl
      have pushed := @performs_headerId (response.setStatus code) _ held .location location
      unfold Response.headerId Response.pushLine at pushed ⊢
      rw [accepted, (checkValue_ok_iff location).mpr valid] at pushed ⊢
      exact pushed
    · have none_ : acceptedLine (ascii "Location") location = none :=
        acceptedLine_eq_none fun all => valid all.2.2
      rw [if_pos (by rw [Bool.eq_false_iff.mpr valid]; rfl), none_]
      exact ⟨rfl, List.append_nil _⟩
  · rw [if_neg known, if_pos (by rw [Bool.eq_false_iff.mpr known]; rfl)]
    exact ⟨rfl, rfl⟩

/-- One call: an error leaves the response as it was, and an accepted call leaves the block of the
lines it edited. -/
theorem performs_call (held : response.fields = block lines) (call : ResponseCall) :
    Performs lines response (call.edit lines) (call.perform response) := by
  cases call with
  | status code => exact held
  | body bytes => exact held
  | header name value => exact performs_header held name value
  | headerId name value => exact performs_headerId held name value
  | contentType value => exact performs_headerId held .contentType value
  | removeHeader name =>
    show removeLines response.fields name = block (others name lines)
    rw [held, removeLines_block]
  | redirect code location => exact performs_redirect held code location
  | redirectPreserving permanent location =>
    cases permanent
    · exact performs_redirect held ⟨307, by decide⟩ location
    · exact performs_redirect held ⟨308, by decide⟩ location
  | setHeader name value =>
    dsimp only [ResponseCall.perform, ResponseCall.edit]
    unfold Response.setHeader
    rcases checked : checkName name with refused | ⟨⟩
    · have none_ : acceptedLine name value = none := acceptedLine_eq_none fun all => by
        rw [(checkName_ok_iff name).mpr ⟨all.1, all.2.1⟩] at checked
        cases checked
      rw [none_]
      exact ⟨rfl, rfl⟩
    · obtain ⟨token, free⟩ := (checkName_ok_iff name).mp checked
      exact performs_replace token free held
  | setHeaderId name value =>
    dsimp only [ResponseCall.perform, ResponseCall.edit]
    unfold Response.setHeaderId
    rcases checked : checkId name with refused | ⟨⟩
    · have none_ : acceptedLine (ascii name.canonical) value = none :=
        acceptedLine_eq_none fun all => by
          rw [(checkId_ok_iff name).mpr all.2.1] at checked
          cases checked
      rw [none_]
      exact ⟨rfl, rfl⟩
    · exact performs_replace (canonical_token name) ((checkId_ok_iff name).mp checked) held

end Performs

/-- The block is the text of the accepted lines, whatever was called before. -/
theorem fields_after (calls : List ResponseCall) :
    (Response.fresh.after calls).fields = block (acceptedLines calls) := by
  unfold Response.after acceptedLines
  suffices runs : ∀ (response : Response) (lines : List ResponseField),
      response.fields = block lines →
      (calls.foldl (fun response call => (call.perform response).2) response).fields =
        block (calls.foldl (fun lines call => call.edit lines) lines) from
    runs Response.fresh [] rfl
  intro response lines held
  induction calls generalizing response lines with
  | nil => exact held
  | cons call calls inductionHypothesis =>
    refine inductionHypothesis _ _ ?_
    have performed := performs_call held call
    dsimp only
    generalize call.perform response = outcome at performed ⊢
    rcases outcome with ⟨refused | ⟨⟩, next⟩
    · obtain ⟨rfl, same⟩ := performed
      dsimp only
      rw [same]
      exact held
    · exact performed

end ZeroServer.Http
