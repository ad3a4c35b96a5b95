/-
This file models the answer a host gives with an error: the two shapes of its body, the lengths it
is predicted to have and the choice of what to leave out so that it fits the response limit of the
server. The predicted lengths are those of what is written, so nothing is left out that fits.
-/

import ZeroServer.Http.Record
import ZeroServer.Json.RoundTrip
import ZeroServer.Sse.Decode

namespace ZeroServer.Host

open Http1 Http Json Lib

/-! ### The body of an error -/

/-- What a byte of a string is written as. -/
def escapedByte (byte : UInt8) : Bytes :=
  if byte = quote then [backslash, quote]
  else if byte = backslash then [backslash, backslash]
  else if byte = lf then [backslash, 110]
  else if byte = cr then [backslash, 114]
  else if byte = htab then [backslash, 116]
  else if byte ≤ 0x1F then
    [backslash, 117, 48, 48, Writer.hexDigit (byte >>> 4), Writer.hexDigit (byte &&& 0x0F)]
  else [byte]

def writeString (text : List Char) : Bytes :=
  quote :: ((Utf8.encode text).flatMap escapedByte ++ [quote])

/-- The reason phrase of a status. -/
def reason (status : StatusCode) : String := status.canonicalReason.getD "Error"

/-- The status a host's error is answered with. -/
def errorStatus (status : StatusCode) : StatusCode :=
  if 400 ≤ status.code then status else .internalServerError

def writeProblem (status : StatusCode) (code : List Char) (detail : Option (List Char))
    (details : Option Bytes) : Bytes :=
  ascii "\x7b\"type\":\"about:blank\"" ++
    ((status.canonicalReason.elim [] fun title =>
        ascii ",\"title\":" ++ writeString title.toList) ++
      (ascii ",\"status\":" ++ (decimal status.code ++
        (ascii ",\"code\":" ++ (writeString code ++
          ((detail.elim [] fun detail => ascii ",\"detail\":" ++ writeString detail) ++
            ((details.elim [] fun details => ascii ",\"details\":" ++ details) ++
              ascii "\x7d")))))))

/-- The body of a host's error in a shape. -/
def writeHostError (shape : ErrorShape) (status : StatusCode) (code : List Char)
    (message : Option (List Char)) (details : Option Bytes) : Bytes :=
  match shape with
  | .problem => writeProblem status code message details
  | .legacy =>
    ascii "\x7b\"error\":" ++ (writeString (message.getD (reason status).toList) ++
      (ascii ",\"code\":" ++ (writeString code ++
        (ascii ",\"statusCode\":" ++ (decimal status.code ++
          ((details.elim [] fun details => ascii ",\"details\":" ++ details) ++
            ascii "\x7d"))))))

/-! ### The response side of an exchange -/

/-- A response body: bytes the response owns, or a buffer of another owner. -/
inductive ResponseBody where
  | owned (bytes : Bytes)
  | external (bytes : Bytes)
  deriving DecidableEq

/-- Work a host asks for that runs once the response is imported. -/
inductive Action where
  | none
  | file (root path : Bytes)
  | sse (conn : Nat) (keepAliveMs : Nat)
  | ws (conn : Nat) (protocol : Bytes)
  deriving DecidableEq

structure Exchange where
  status : Option StatusCode := none
  responseFields : Bytes := []
  responseBody : ResponseBody := .owned []
  action : Action := .none
  isSealed : Bool := false
  staged : Bool := false
  touched : Bool := false
  responseCharge : Nat := 0
  deriving DecidableEq

namespace Exchange

/-- Discard the status, the fields, the body and the action written so far. -/
def clearResponse (exchange : Exchange) : Exchange :=
  { exchange with
    status := none
    responseFields := []
    responseBody := .owned []
    action := .none
    staged := false
    touched := false }

/-- Replace the response with an error in a body shape. -/
def writeError (exchange : Exchange) (shape : ErrorShape) (status : StatusCode) (code : List Char)
    (message : Option (List Char)) (details : Option Bytes) : Exchange :=
  { exchange.clearResponse with
    status := some (errorStatus status)
    responseFields := shape.contentTypeLine.text
    responseBody := .owned (writeHostError shape (errorStatus status) code message details)
    touched := true }

def bodyLen (exchange : Exchange) : Nat :=
  match exchange.responseBody with
  | .owned bytes => bytes.length
  | .external _ => 0

end Exchange

/-! ### A host's error -/

/-- Why a call is refused. -/
inductive Access where
  | errorCode
  | regionOpen
  | isSealed
  deriving DecidableEq

/-- An error's code: 1 to 64 capital letters, digits and underscores. -/
def errorCode (code : Bytes) : Except Access (List Char) :=
  if 1 ≤ code.length ∧ code.length ≤ 64 ∧
      code.all (fun byte => 65 ≤ byte && byte ≤ 90 || 48 ≤ byte && byte ≤ 57 || byte = 95) then
    (Utf8.decode code).elim (.error .errorCode) .ok
  else .error .errorCode

/-- The details when they are one JSON value, without a byte order mark. -/
def jsonValue (text : Bytes) : Option Bytes :=
  match Json.parse text with
  | .error _ => none
  | .ok _ => some (if Json.bom.isPrefixOf text then text.drop Json.bom.length else text)

/-- The octets a byte takes inside a string. -/
def escapedOctets (byte : UInt8) : Nat :=
  if byte = quote ∨ byte = backslash ∨ byte = lf ∨ byte = cr ∨ byte = htab then 2
  else if byte ≤ 0x1F then 6
  else 1

/-- The octets a text takes inside a string. -/
def escapedLen (text : List Char) : Nat :=
  (Utf8.encode text).foldl (fun len byte => len + escapedOctets byte) 0

def fits (len limit : Nat) : Bool := len ≤ limit

/-- What is written besides the message and the details. -/
structure Envelope where
  shape : ErrorShape
  status : StatusCode
  code : List Char

/-- Replace the response with the error that carries a message and details. -/
def Envelope.write (envelope : Envelope) (exchange : Exchange) (message : Option (List Char))
    (details : Option Bytes) : Exchange × Nat :=
  let exchange := exchange.writeError envelope.shape envelope.status envelope.code message details
  (exchange, exchange.bodyLen)

/-- Count what a body of a length adds to the octets the exchange counts. -/
def charge (exchange : Exchange) (len : Nat) : Exchange :=
  { exchange with responseCharge := exchange.responseCharge + (len - exchange.responseCharge) }

/-- What a server answers its errors with: their shape and its response limit. -/
structure Answers where
  shape : ErrorShape
  maxBody : Nat
  deriving DecidableEq

/-- Write the error with what fits of its message and details, and seal. -/
def Envelope.answer (envelope : Envelope) (budget : Nat) (message : Option (List Char))
    (details : Option Bytes) (exchange : Exchange) : Exchange :=
  let (exchange, bare) := envelope.write exchange none none
  let (exchange, message) :=
    match message with
    | none => (exchange, none)
    | some text =>
      let (exchange, empty) := envelope.write exchange (some []) none
      let len := empty + escapedLen text
      (exchange, if fits len budget then some (text, len) else none)
  let head := (message.map Prod.snd).getD bare
  let (exchange, details) :=
    match details with
    | none => (exchange, none)
    | some value =>
      let (exchange, single) := envelope.write exchange none (some [48])
      let member := single - (bare + 1)
      (exchange, if fits (head + member + value.length) budget then some value else none)
  let (exchange, written) := envelope.write exchange (message.map Prod.fst) details
  charge { exchange with isSealed := true } written

/-- The status a call names, or 500. -/
def namedStatus (status : Nat) : StatusCode :=
  if valid : 100 ≤ status ∧ status ≤ 599 then ⟨status, valid⟩ else .internalServerError

/-- Answer with an error in the server's shape. -/
def error (answers : Answers) (status : Nat) (code : Bytes) (message details : Option Bytes)
    (exchange : Exchange) : Except Access Exchange :=
  match errorCode code with
  | .error refusal => .error refusal
  | .ok code =>
    let message := message.map Sse.fromUtf8Lossy
    let details := details.bind jsonValue
    if exchange.isSealed then .error .isSealed
    else if exchange.staged then .error .regionOpen
    else
      let envelope : Envelope := ⟨answers.shape, namedStatus status, code⟩
      .ok (envelope.answer answers.maxBody message details exchange)

/-! ### Predicted lengths -/

theorem length_escapedByte (byte : UInt8) : (escapedByte byte).length = escapedOctets byte := by
  have all : ∀ byte : Fin 256,
    (escapedByte ⟨⟨byte⟩⟩).length = escapedOctets ⟨⟨byte⟩⟩ := by decide +kernel
  exact all byte.toBitVec.toFin

theorem foldl_escapedOctets (bytes : Bytes) (len : Nat) :
    bytes.foldl (fun len byte => len + escapedOctets byte) len =
      len + (bytes.flatMap escapedByte).length := by
  induction bytes generalizing len with
  | nil => rfl
  | cons byte bytes inductionHypothesis =>
    rw [List.foldl_cons, inductionHypothesis, List.flatMap_cons, List.length_append,
      length_escapedByte, Nat.add_assoc]

/-- The length predicted for a string is what it adds to an empty one. -/
theorem length_writeString (text : List Char) :
    (writeString text).length = (writeString []).length + escapedLen text := by
  unfold writeString escapedLen
  rw [foldl_escapedOctets, Utf8.encode_nil, List.flatMap_nil, List.nil_append, List.length_cons,
    List.length_append]
  simp only [List.length_cons, List.length_nil]
  omega

namespace Envelope

variable (envelope : Envelope)

/-- The body written with a message and details. -/
def body (message : Option (List Char)) (details : Option Bytes) : Bytes :=
  writeHostError envelope.shape (errorStatus envelope.status) envelope.code message details

/-- A message adds its escaped length to the body with an empty one. -/
theorem length_body_message (text : List Char) (details : Option Bytes) :
    (envelope.body (some text) details).length =
      (envelope.body (some []) details).length + escapedLen text := by
  have written := length_writeString text
  unfold body writeHostError
  cases envelope.shape with
  | problem =>
    unfold writeProblem
    dsimp only [Option.elim_some]
    simp only [List.length_append]
    omega
  | legacy =>
    dsimp only [Option.getD_some]
    simp only [List.length_append]
    omega

/-- Details add their length and that of their name to any body. -/
theorem length_body_details (message : Option (List Char)) (value : Bytes) :
    (envelope.body message (some value)).length =
      (envelope.body message none).length + 11 + value.length := by
  have name : (ascii ",\"details\":").length = 11 := by decide
  unfold body writeHostError
  cases envelope.shape with
  | problem =>
    unfold writeProblem
    dsimp only [Option.elim_some, Option.elim_none]
    simp only [List.length_append, List.length_nil]
    omega
  | legacy =>
    dsimp only [Option.elim_some, Option.elim_none]
    simp only [List.length_append, List.length_nil]
    omega

/-- The message kept under a limit. -/
def keptMessage (limit : Nat) (message : Option (List Char)) : Option (List Char) :=
  message.filter fun text => (envelope.body (some text) none).length ≤ limit

/-- The details kept beside a message under a limit. -/
def keptDetails (limit : Nat) (message : Option (List Char)) (details : Option Bytes) :
    Option Bytes :=
  details.filter fun value => (envelope.body message (some value)).length ≤ limit

end Envelope

/-- What is written is the body with the message and the details that fit. -/
theorem Envelope.answer_body (envelope : Envelope) (budget : Nat) (message : Option (List Char))
    (details : Option Bytes) (exchange : Exchange) :
    (envelope.answer budget message details exchange).responseBody =
      .owned (envelope.body (envelope.keptMessage budget message)
        (envelope.keptDetails budget (envelope.keptMessage budget message) details)) := by
  have written : ∀ (exchange : Exchange) message details,
      (envelope.write exchange message details).2 = (envelope.body message details).length :=
    fun _ _ _ => rfl
  have last : ∀ (exchange : Exchange) message details len,
      (charge { (envelope.write exchange message details).1 with isSealed := true }
        len).responseBody = .owned (envelope.body message details) := fun _ _ _ _ => rfl
  have member : ∀ message value,
      (envelope.body message none).length + ((envelope.body none (some [48])).length -
        ((envelope.body none none).length + 1)) + value.length =
        (envelope.body message (some value)).length := by
    intro message value
    rw [envelope.length_body_details, envelope.length_body_details message value,
      List.length_singleton]
    omega
  have chosen : ∀ {Kept : Type} (len : Nat) (kept : Kept),
      (if fits len budget then some kept else none) = if len ≤ budget then some kept else none :=
    fun len kept => if_congr decide_eq_true_iff rfl rfl
  unfold answer
  dsimp only
  rw [last]
  unfold keptMessage keptDetails
  cases message with
  | none =>
    cases details with
    | none => rfl
    | some value =>
      dsimp only [Option.map_none, Option.getD_none, Option.filter_none, Option.filter_some]
      rw [chosen, written, written, member]
      simp only [decide_eq_true_eq]
  | some text =>
    have fits_iff : fits ((envelope.body (some []) none).length + escapedLen text) budget = true ↔
        (envelope.body (some text) none).length ≤ budget := by
      rw [envelope.length_body_message text, fits, decide_eq_true_iff]
    dsimp only [Option.filter_some]
    by_cases fit : (envelope.body (some text) none).length ≤ budget
    · have kept := fits_iff.mpr fit
      cases details with
      | none => simp only [written, kept, fit, decide_true, if_true, Option.map_some,
          Option.filter_none]
      | some value =>
        simp only [written, kept, fit, decide_true, if_true, Option.map_some, Option.getD_some,
          Option.filter_some]
        rw [chosen, ← envelope.length_body_message, member]
        simp only [decide_eq_true_eq]
    · have refused := mt fits_iff.mp fit
      cases details with
      | none => simp only [written, refused, fit, decide_false, Bool.false_eq_true,
          if_false, Option.map_none, Option.filter_none]
      | some value =>
        simp only [written, refused, fit, decide_false, Bool.false_eq_true, if_false,
          Option.map_none, Option.getD_none, Option.filter_some]
        rw [chosen, member]
        simp only [decide_eq_true_eq]

/-! ### The body is an object -/

theorem escapedByte_escapes : Escapes escapedByte := .of_all (by decide +kernel)

theorem writeString_spells (text : List Char) : StringText (writeString text) text :=
  .quoted (escapedByte_escapes.content text)

/-- The values a text of a member may stand for. -/
abbrev MemberValue (depth : Nat) : Bytes → Value → Prop :=
  ValueText (Number.Accepted .lossy) .lossy depth

theorem writeString_value (depth : Nat) (text : List Char) :
    MemberValue depth (writeString text) (.str text) :=
  .of_scalar (.string (writeString_spells text))

theorem decimal_value (depth : Nat) (status : StatusCode) :
    MemberValue depth (decimal status.code) (.int (Int64.ofNat status.code)) := by
  have same : (Int64.ofNat status.code).toInt = status.code :=
    Int64.toInt_ofNat_of_lt (Nat.lt_of_le_of_lt status.valid.2 (by decide))
  have accepted : (integerNumber (Int64.ofNat status.code)).Accepted .lossy := fun refused =>
    absurd (integerNumber_fits _) (refused.resolve_left nofun).2
  have isNumber := @ScalarText.number _ .lossy _ (integerNumber_wellFormed _) accepted
  have nonnegative : ¬ Int64.ofNat status.code < 0 := by
    rw [Int64.lt_iff_toInt_lt, same]
    exact Int.not_lt.mpr (Int.natCast_nonneg _)
  have text : (integerNumber (Int64.ofNat status.code)).text = decimal status.code := by
    unfold Number.text Number.signText integerNumber Number.fractionText Number.exponentText
    dsimp only
    rw [same, if_neg (by simpa using nonnegative), Int.natAbs_natCast, List.nil_append,
      List.append_nil, List.append_nil]
  rw [integerNumber_value, text] at isNumber
  exact .of_scalar isNumber

/-- Members behind commas. -/
inductive Further (depth : Nat) : Bytes → List Member → Prop where
  | nil : Further depth [] []
  | cons {name before bytes after rest : Bytes} {spelled : List Char} {value : Value}
      {members : List Member} (isName : StringText name spelled) (blankBefore : Blank before)
      (isValue : MemberValue depth bytes value) (blankAfter : Blank after)
      (later : Further depth rest members) :
      Further depth (comma :: (name ++ colon :: (before ++ (bytes ++ (after ++ rest)))))
        ((spelled, value) :: members)

namespace Further

variable {depth : Nat} {first second bytes : Bytes} {members others : List Member}

theorem append (left : Further depth first members) (right : Further depth second others) :
    Further depth (first ++ second) (members ++ others) := by
  induction left with
  | nil => exact right
  | cons isName blankBefore isValue blankAfter _ inductionHypothesis =>
    have longer := Further.cons isName blankBefore isValue blankAfter inductionHypothesis
    simpa only [List.append_assoc, List.cons_append] using longer

/-- One member whose name needs no look at its value. -/
theorem single {value : Value} (name : List Char) (isValue : MemberValue depth bytes value) :
    Further depth (comma :: (writeString name ++ colon :: bytes)) [(name, value)] := by
  have one := @Further.cons depth _ [] bytes [] [] _ _ [] (writeString_spells name)
    (List.forall_mem_nil _) isValue (List.forall_mem_nil _) .nil
  rwa [List.nil_append, List.nil_append, List.append_nil] at one

/-- Members behind commas make up an object once the first comma is a brace. -/
theorem enclosed (isNext : Further depth (comma :: bytes) members) :
    Enclosed (MemberText (MemberValue depth)) openBrace closeBrace
      (openBrace :: (bytes ++ [closeBrace])) members := by
  refine .filled ?_
  generalize whole : comma :: bytes = text at isNext
  induction isNext generalizing bytes with
  | nil => cases whole
  | @cons name before value after rest spelled _ _ isName blankBefore isValue blankAfter later
      inductionHypothesis =>
    obtain rfl := (List.cons.inj whole).2
    have blank : Blank [] := List.forall_mem_nil _
    have member := MemberText.member isName blank blankBefore isValue
    cases later with
    | nil =>
      have last := SequenceText.last blank member blankAfter
      simpa only [List.nil_append, List.append_assoc, List.cons_append, List.append_nil] using last
    | cons =>
      have more := SequenceText.more blank member blankAfter (inductionHypothesis rfl)
      simpa only [List.nil_append, List.append_assoc, List.cons_append, List.append_nil] using more

end Further

/-- Details that are one value between white space, and what they stand for. -/
inductive DetailsText (depth : Nat) : Option Bytes → Option Value → Prop where
  | none : DetailsText depth none none
  | some {before bytes after : Bytes} {value : Value} (blankBefore : Blank before)
      (isValue : MemberValue depth bytes value) (blankAfter : Blank after) :
      DetailsText depth (some (before ++ (bytes ++ after))) (some value)

/-- The members of the body of an error. -/
def hostErrorMembers (shape : ErrorShape) (status : StatusCode) (code : List Char)
    (message : Option (List Char)) (details : Option Value) : List Member :=
  match shape with
  | .problem =>
    [("type".toList, .str "about:blank".toList)] ++
      ((status.canonicalReason.elim [] fun title => [("title".toList, .str title.toList)]) ++
        ([("status".toList, .int (Int64.ofNat status.code))] ++ ([("code".toList, .str code)] ++
          ((message.elim [] fun detail => [("detail".toList, .str detail)]) ++
            details.elim [] fun value => [("details".toList, value)]))))
  | .legacy =>
    [("error".toList, .str (message.getD (reason status).toList))] ++
      ([("code".toList, .str code)] ++
        ([("statusCode".toList, .int (Int64.ofNat status.code))] ++
          details.elim [] fun value => [("details".toList, value)]))

theorem hostErrorMembers_distinct (shape : ErrorShape) (status : StatusCode) (code : List Char)
    (message : Option (List Char)) (details : Option Value) :
    ((hostErrorMembers shape status code message details).map Prod.fst).Nodup := by
  unfold hostErrorMembers
  cases shape with
  | problem =>
    cases status.canonicalReason <;> cases message <;> cases details <;>
      simp only [Option.elim_none, Option.elim_some, List.nil_append, List.cons_append,
        List.map_cons, List.map_nil] <;> decide
  | legacy =>
    cases details <;>
      simp only [Option.elim_none, Option.elim_some, List.nil_append, List.cons_append,
        List.map_cons, List.map_nil] <;> decide

section Names

variable {depth : Nat} {given : Option Bytes} {details : Option Value}

theorem DetailsText.further (isDetails : DetailsText depth given details) :
    Further depth (given.elim [] fun details => ascii ",\"details\":" ++ details)
      (details.elim [] fun value => [("details".toList, value)]) := by
  cases isDetails with
  | none => exact .nil
  | some blankBefore isValue blankAfter =>
    have one := Further.cons (writeString_spells "details".toList) blankBefore isValue blankAfter
      .nil
    rwa [List.append_nil] at one

/-- The body of an error is an object with the members it was given. -/
theorem writeHostError_value (shape : ErrorShape) (status : StatusCode) (code : List Char)
    (message : Option (List Char)) (isDetails : DetailsText depth given details) :
    MemberValue (depth + 1) (writeHostError shape status code message given)
      (.object (hostErrorMembers shape status code message details)) := by
  rw [← mergeRepeated_distinct (hostErrorMembers_distinct shape status code message details)]
  refine .inr ?_
  have isCode := Further.single "code".toList (writeString_value depth code)
  cases shape with
  | problem =>
    have isType := Further.single "type".toList (writeString_value depth "about:blank".toList)
    have isTitle : Further depth
        (status.canonicalReason.elim [] fun title =>
          ascii ",\"title\":" ++ writeString title.toList)
        (status.canonicalReason.elim [] fun title => [("title".toList, .str title.toList)]) := by
      cases status.canonicalReason with
      | none => exact .nil
      | some title => exact .single "title".toList (writeString_value depth title.toList)
    have isStatus := Further.single "status".toList (decimal_value depth status)
    have isDetail : Further depth
        (message.elim [] fun detail => ascii ",\"detail\":" ++ writeString detail)
        (message.elim [] fun detail => [("detail".toList, .str detail)]) := by
      cases message with
      | none => exact .nil
      | some detail => exact .single "detail".toList (writeString_value depth detail)
    have object := ContainerText.object (isType.append (isTitle.append (isStatus.append
      (isCode.append (isDetail.append isDetails.further))))).enclosed
    have same : writeHostError .problem status code message given = openBrace :: (
        (writeString "type".toList ++ colon :: writeString "about:blank".toList) ++ (
          (status.canonicalReason.elim [] fun title =>
            ascii ",\"title\":" ++ writeString title.toList) ++ (
          comma :: (writeString "status".toList ++ colon :: decimal status.code) ++ (
          comma :: (writeString "code".toList ++ colon :: writeString code) ++ (
          (message.elim [] fun detail => ascii ",\"detail\":" ++ writeString detail) ++
          given.elim [] fun details => ascii ",\"details\":" ++ details)))) ++ [closeBrace]) := by
      simp only [List.append_assoc, List.cons_append]
      rfl
    rw [same]
    exact object
  | legacy =>
    have isError := Further.single "error".toList
      (writeString_value depth (message.getD (reason status).toList))
    have isStatus := Further.single "statusCode".toList (decimal_value depth status)
    have object := ContainerText.object (isError.append (isCode.append (isStatus.append
      isDetails.further))).enclosed
    have same : writeHostError .legacy status code message given = openBrace :: (
        (writeString "error".toList ++
          colon :: writeString (message.getD (reason status).toList)) ++ (
          comma :: (writeString "code".toList ++ colon :: writeString code) ++ (
          comma :: (writeString "statusCode".toList ++ colon :: decimal status.code) ++
          given.elim [] fun details => ascii ",\"details\":" ++ details)) ++ [closeBrace]) := by
      simp only [List.append_assoc, List.cons_append]
      rfl
    rw [same]
    exact object

end Names

/-- Details that are kept are one value, without a byte order mark. -/
theorem jsonValue_details {text value : Bytes} (checked : jsonValue text = some value) :
    ∃ parsed, Json.parse text = .ok parsed ∧ DetailsText 64 (some value) (some parsed) := by
  unfold jsonValue at checked
  cases ran : Json.parse text with
  | error stop =>
    rw [ran] at checked
    cases checked
  | ok parsed =>
    rw [ran] at checked
    dsimp only at checked
    obtain ⟨-, isText, -⟩ := (parseWith_sound text .default).2 parsed ran
    refine ⟨parsed, rfl, ?_⟩
    cases isText with
    | @text mark before bytes after _ marked blankBefore isValue blankAfter =>
      cases marked with
      | inl unmarked =>
        have plain := mt List.isPrefixOf_iff_prefix.mp (isValue.unmarked blankBefore after)
        rw [unmarked, List.nil_append, if_neg plain] at checked
        exact Option.some.inj checked ▸ .some blankBefore isValue blankAfter
      | inr marked =>
        have begins : Json.bom.isPrefixOf (Json.bom ++ (before ++ (bytes ++ after))) = true :=
          List.isPrefixOf_iff_prefix.mpr ⟨_, rfl⟩
        rw [marked, if_pos begins, List.drop_left] at checked
        exact Option.some.inj checked ▸ .some blankBefore isValue blankAfter

/-! ### What is left out -/

/-- An answered call writes a body of its envelope. -/
theorem error_ok {answers : Answers} {status : Nat} {code : Bytes} {message details : Option Bytes}
    {exchange answered : Exchange}
    (ran : error answers status code message details exchange = .ok answered) :
    ∃ name, errorCode code = .ok name ∧ answered =
      Envelope.answer ⟨answers.shape, namedStatus status, name⟩ answers.maxBody
        (message.map Sse.fromUtf8Lossy) (details.bind jsonValue) exchange := by
  unfold error at ran
  split at ran
  · cases ran
  · rename_i name named
    dsimp only at ran
    split_ifs at ran
    exact ⟨name, named, (Except.ok.inj ran).symm⟩

/-- What is kept of an option is the whole of it where it fits. -/
theorem filter_some_iff {Kept : Type} {given : Option Kept} {fit : Kept → Prop}
    [DecidablePred fit] {kept : Kept} (same : given = some kept) :
    given.filter (fun kept => decide (fit kept)) = some kept ↔ fit kept := by
  rw [same, Option.filter_some]
  by_cases fits : fit kept
  · rw [if_pos (decide_eq_true fits)]
    exact iff_of_true rfl fits
  · rw [if_neg (fun fit => fits (of_decide_eq_true fit))]
    exact iff_of_false nofun fits

/-- What is kept of an option fits. -/
theorem filter_cases {Kept : Type} (given : Option Kept) (fit : Kept → Prop) [DecidablePred fit] :
    given.filter (fun kept => decide (fit kept)) = none ∨
      ∃ kept, given = some kept ∧ fit kept ∧
        given.filter (fun kept => decide (fit kept)) = some kept := by
  cases found : given.filter fun kept => decide (fit kept) with
  | none => exact .inl rfl
  | some kept =>
    obtain ⟨same, fits⟩ := Option.filter_eq_some_iff.mp found
    exact .inr ⟨kept, same, of_decide_eq_true fits, rfl⟩

/-- The body of a host's error is JSON, fits the response limit or carries neither message nor
details, and leaves out a message or details only where the body with them does not fit; the length
predicted for a string is what is written for it. -/
theorem error_drops_least :
    (∀ text, (writeString text).length = (writeString []).length + escapedLen text) ∧
    ∀ (answers : Answers) (status : Nat) (code : Bytes) (message details : Option Bytes)
      (exchange answered : Exchange),
      error answers status code message details exchange = .ok answered →
      ∃ (name : List Char) (text : Option (List Char)) (value : Option Bytes)
          (parsed : Option Value),
        errorCode code = .ok name ∧
        let body := writeHostError answers.shape (errorStatus (namedStatus status)) name
        answered.responseBody = .owned (body text value) ∧
        (text = none ∨ text = message.map Sse.fromUtf8Lossy) ∧
        (value = none ∧ parsed = none ∨ value = details.bind jsonValue ∧
          parsed = details.bind fun given => (Json.parse given).toOption) ∧
        JsonText (Number.Accepted .lossy) .lossy 65 (body text value)
          (.object (hostErrorMembers answers.shape (errorStatus (namedStatus status)) name text
            parsed)) ∧
        ((body text value).length ≤ answers.maxBody ∨ text = none ∧ value = none) ∧
        (∀ given, message = some given → (text = some (Sse.fromUtf8Lossy given) ↔
          (body (some (Sse.fromUtf8Lossy given)) none).length ≤ answers.maxBody)) ∧
        ∀ given checked, details = some given → jsonValue given = some checked →
          (value = some checked ↔ (body text (some checked)).length ≤ answers.maxBody) := by
  refine ⟨length_writeString, fun answers status code message details exchange answered ran => ?_⟩
  obtain ⟨name, named, rfl⟩ := error_ok ran
  let envelope : Envelope := ⟨answers.shape, namedStatus status, name⟩
  let body := writeHostError answers.shape (errorStatus (namedStatus status)) name
  let limit := answers.maxBody
  let text := envelope.keptMessage limit (message.map Sse.fromUtf8Lossy)
  let value := envelope.keptDetails limit text (details.bind jsonValue)
  have textKept := filter_cases (message.map Sse.fromUtf8Lossy) fun text =>
    (body (some text) none).length ≤ limit
  have valueKept := filter_cases (details.bind jsonValue) fun value =>
    (body text (some value)).length ≤ limit
  have isText : ∀ {bytes value}, MemberValue 65 bytes value →
      JsonText (Number.Accepted .lossy) .lossy 65 bytes value := by
    intro bytes value isValue
    have whole := @JsonText.text _ _ _ [] [] bytes [] value (.inl rfl) (List.forall_mem_nil _) isValue
      (List.forall_mem_nil _)
    rwa [List.nil_append, List.nil_append, List.append_nil] at whole
  have messages : (text = none ∨ text = message.map Sse.fromUtf8Lossy) ∧
      ∀ given, message = some given → (text = some (Sse.fromUtf8Lossy given) ↔
        (body (some (Sse.fromUtf8Lossy given)) none).length ≤ limit) := by
    refine ⟨?_, fun given same => filter_some_iff (by rw [same]; rfl)⟩
    rcases textKept with dropped | ⟨kept, same, -, filtered⟩
    · exact .inl dropped
    · exact .inr (filtered.trans same.symm)
  have written := envelope.answer_body limit (message.map Sse.fromUtf8Lossy)
    (details.bind jsonValue) exchange
  have more : ∀ given checked, details = some given → jsonValue given = some checked →
      (value = some checked ↔ (body text (some checked)).length ≤ limit) :=
    fun given checked same isValue => filter_some_iff (by rw [same]; exact isValue)
  rcases valueKept with dropped | ⟨kept, same, fits, filtered⟩
  · have valueNone : value = none := dropped
    refine ⟨name, text, value, none, named, written, messages.1, .inl ⟨valueNone, rfl⟩, isText ?_,
      ?_, messages.2, more⟩
    · rw [valueNone]
      exact writeHostError_value _ _ _ _ .none
    · rw [valueNone]
      rcases textKept with missing | ⟨kept, -, fits, filtered⟩
      · exact .inr ⟨missing, rfl⟩
      · have isKept : text = some kept := filtered
        exact .inl (isKept ▸ fits)
  · have valueKept : value = some kept := filtered
    obtain ⟨given, asked, checked⟩ := Option.bind_eq_some_iff.mp same
    obtain ⟨parsed, ran, isDetails⟩ := jsonValue_details checked
    refine ⟨name, text, value, some parsed, named, written, messages.1, .inr
      ⟨valueKept.trans same.symm, ?_⟩, isText ?_, ?_, messages.2, more⟩
    · rw [asked, Option.bind_some, ran]
      rfl
    · rw [valueKept]
      exact writeHostError_value _ _ _ _ isDetails
    · rw [valueKept]
      exact .inl fits

theorem error_drops_least_named :
    let exchange : Exchange := {}
    let envelope : Envelope := ⟨.legacy, namedStatus 404, "CODE".toList⟩
    let answered := envelope.answer 100 (some "gone".toList) (some (ascii "[1]")) exchange
    ∃ (name : List Char) (text : Option (List Char)) (value : Option Bytes) (parsed : Option Value),
      errorCode (ascii "CODE") = .ok name ∧
      answered.responseBody = .owned
        (writeHostError .legacy (errorStatus (namedStatus 404)) name text value) ∧
      JsonText (Number.Accepted .lossy) .lossy 65
        (writeHostError .legacy (errorStatus (namedStatus 404)) name text value)
        (.object (hostErrorMembers .legacy (errorStatus (namedStatus 404)) name text parsed)) := by
  have code : errorCode (ascii "CODE") = .ok "CODE".toList := by decide +kernel
  have checked : jsonValue (ascii "[1]") = some (ascii "[1]") := by decide
  have message : Sse.fromUtf8Lossy (ascii "gone") = "gone".toList := by decide +kernel
  have ran : error ⟨.legacy, 100⟩ 404 (ascii "CODE") (some (ascii "gone")) (some (ascii "[1]")) {} =
      .ok (Envelope.answer ⟨.legacy, namedStatus 404, "CODE".toList⟩ 100 (some "gone".toList)
        (some (ascii "[1]")) {}) := by
    unfold error
    rw [code, Option.map_some, Option.bind_some, checked, message]
    rfl
  obtain ⟨name, text, value, parsed, named, written, -, -, isText, -⟩ :=
    error_drops_least.2 _ _ _ _ _ _ _ ran
  exact ⟨name, text, value, parsed, named, written, isText⟩

/-- Details nested deeper than the strict check allows are left out though they fit. -/
theorem error_drops_deep :
    let given : Bytes := List.replicate 65 openBracket ++ List.replicate 65 closeBracket
    (∃ parsed, JsonText (Number.Accepted .lossy) .lossy 65 given parsed) ∧
    (∃ answered, error ⟨.problem, 1000⟩ 404 (ascii "CODE") none (some given) {} = .ok answered ∧
      answered.responseBody = .owned (writeHostError .problem (namedStatus 404) "CODE".toList none
        none)) ∧
    (writeHostError .problem (namedStatus 404) "CODE".toList none (some given)).length ≤ 1000 := by
  intro given
  have deeper : (parseWith given { Options.default with maxDepth := 65 }).isOk = true := by
    decide +kernel
  have refused : jsonValue given = none := by decide +kernel
  have code : errorCode (ascii "CODE") = .ok "CODE".toList := by decide +kernel
  refine ⟨?_, ⟨Envelope.answer ⟨.problem, namedStatus 404, "CODE".toList⟩ 1000 none none {}, ?_,
    Envelope.answer_body _ _ _ _ _⟩, by decide +kernel⟩
  · cases ran : parseWith given { Options.default with maxDepth := 65 } with
    | error stop =>
      rw [ran] at deeper
      cases deeper
    | ok parsed => exact ⟨parsed, ((parseWith_sound _ _).2 parsed ran).2.1⟩
  · unfold error
    rw [code, Option.map_none, Option.bind_some, refused]
    rfl

end ZeroServer.Host
