/-
This file models the per-request record of the connection driver: the head as received, the
buffered body with its charge on the core's request-memory budget, and the response as the
handler or the driver builds it. A record that was reset is fresh: only its field table and
the capacity of its response head buffer survive the request before.
-/

import ZeroServer.Http1.Head
import ZeroServer.Http1.Response

namespace ZeroServer.Http

open Http1

/-! ### Response fields -/

/-- A value the field grammar allows. -/
abbrev FieldValue := { value : Bytes // validateFieldValue value = true }

/-- Whether the driver writes a field of this name itself. -/
def isDriverField (name : Bytes) : Bool :=
  (HeaderName.parse name).any fun id =>
    [HeaderName.contentLength, .connection, .transferEncoding, .date].contains id

/-- A field line of a handler: validated when it was set, and never one of the driver's. -/
structure ResponseField where
  name : Bytes
  value : Bytes
  token : validateFieldName name = true
  notDriver : isDriverField name = false
  valid : validateFieldValue value = true

def ResponseField.text (field : ResponseField) : Bytes := fieldText field.name field.value

/-! ### The driver's own error bodies -/

/-- The body shape of the answers the server writes for errors. -/
inductive ErrorShape where
  | problem
  | legacy
  deriving DecidableEq

def ErrorShape.contentTypeLine : ErrorShape → ResponseField
  | .problem =>
    ⟨ascii "Content-Type", ascii "application/problem+json", by decide,
      by decide, by decide⟩
  | .legacy =>
    ⟨ascii "Content-Type", ascii "application/json", by decide, by decide,
      by decide⟩

/-- A problem to answer with; the driver's own carry no detail. -/
structure Problem where
  status : StatusCode
  code : String
  deriving DecidableEq

/-- A text in quotes; the reason phrases and codes hold nothing to escape. -/
def writeString (text : String) : Bytes := ascii "\"" ++ ascii text ++ ascii "\""

def Problem.writeBody (problem : Problem) (shape : ErrorShape) : Bytes :=
  match shape with
  | .problem =>
    ascii "\x7b\"type\":\"about:blank\"" ++
      (problem.status.canonicalReason.elim [] fun title =>
        ascii ",\"title\":" ++ writeString title) ++
      ascii ",\"status\":" ++ decimal problem.status.code ++
      ascii ",\"code\":" ++ writeString problem.code ++ ascii "\x7d"
  | .legacy =>
    ascii "\x7b\"error\":" ++ writeString (problem.status.canonicalReason.getD "Error") ++
      ascii "\x7d"

/-! ### Claims -/

/-- How a handler claims its connection. -/
inductive TakeOver where
  | upgrade
  | stream
  deriving DecidableEq

/-- A claim recorded on the request, honored when its head is written. -/
structure Claim where
  kind : TakeOver
  token : Nat
  deriving DecidableEq

/-! ### The record -/

/-- One request from head to final write. -/
structure Record where
  head : Bytes := []
  fields : List Field := []
  parsed : Option Head := none
  body : Bytes := []
  trailers : Bytes := []
  misdirected : Bool := false
  charge : Nat := 0
  status : Option StatusCode := none
  responseFields : List ResponseField := []
  responseBody : Bytes := []
  responseHead : Bytes := []
  responseCapacity : Nat := 0
  close : Bool := false
  claim : Option Claim := none
  continued : Bool := false
  advertiseUpgrade : Bool := false

namespace Record

def new (table : Nat) : Record := { fields := List.replicate (max table 1) Field.empty }

def method (record : Record) : Option Method := record.parsed.bind Head.method

def headRequest (record : Record) : Bool := record.method == some .head

/-- Whether the method is safe; an unrecognized method is not. -/
def safe (record : Record) : Bool := record.method.any Method.isSafe

def version (record : Record) : Version := (record.parsed.map Head.version).getD .http11

def keepAlive (record : Record) : Bool := record.parsed.any Head.keepAlive

/-- Discard everything the handler wrote, for a response the driver writes instead. -/
def clearResponse (record : Record) : Record :=
  { record with
    status := none
    responseFields := []
    responseBody := []
    responseHead := []
    claim := none
    advertiseUpgrade := false }

/-- Replace whatever the handler wrote with a problem, in the server's error shape. -/
def problem (record : Record) (problem : Problem) (shape : ErrorShape) : Record :=
  { record.clearResponse with
    status := some problem.status
    responseFields := [shape.contentTypeLine]
    responseBody := problem.writeBody shape }

/-- Replace whatever the handler wrote with an answer of the driver's own: a 413 or a 503
carries the error body, any other status goes without one. -/
def answer (record : Record) (status : StatusCode) (shape : ErrorShape) : Record :=
  if status = .contentTooLarge then record.problem ⟨.contentTooLarge, "limit"⟩ shape
  else if status = .serviceUnavailable then
    record.problem ⟨.serviceUnavailable, "timeout"⟩ shape
  else { record.clearResponse with status := some status }

/-- Clear the record for the next request. -/
def reset (record : Record) : Record :=
  { fields := record.fields, responseCapacity := record.responseCapacity }

/-- What the handler left on the record of its request when it completed. -/
structure Answer where
  status : Option StatusCode
  fields : List ResponseField
  body : Bytes
  close : Bool
  claim : Option Claim
  advertiseUpgrade : Bool

/-- The record as the completed handler returns it. -/
def answered (record : Record) (answer : Answer) : Record :=
  { record with
    status := answer.status
    responseFields := answer.fields
    responseBody := answer.body
    close := answer.close
    claim := answer.claim
    advertiseUpgrade := answer.advertiseUpgrade }

/-! ### The request side

The answers replace the response and leave the request as it was received. -/

@[simp]
theorem charge_answer (record : Record) (status : StatusCode) (shape : ErrorShape) :
    (record.answer status shape).charge = record.charge := by
  unfold answer
  split
  · rfl
  · split <;> rfl

@[simp]
theorem body_answer (record : Record) (status : StatusCode) (shape : ErrorShape) :
    (record.answer status shape).body = record.body := by
  unfold answer
  split
  · rfl
  · split <;> rfl

@[simp]
theorem head_answer (record : Record) (status : StatusCode) (shape : ErrorShape) :
    (record.answer status shape).head = record.head := by
  unfold answer
  split
  · rfl
  · split <;> rfl

@[simp]
theorem parsed_answer (record : Record) (status : StatusCode) (shape : ErrorShape) :
    (record.answer status shape).parsed = record.parsed := by
  unfold answer
  split
  · rfl
  · split <;> rfl

@[simp]
theorem claim_answer (record : Record) (status : StatusCode) (shape : ErrorShape) :
    (record.answer status shape).claim = none := by
  unfold answer
  split
  · rfl
  · split <;> rfl

end Record

/-! ### Fresh records -/

/-- A record as a reset leaves it. -/
abbrev FreshRecord := { record : Record // record.reset = record }

namespace FreshRecord

def new (table : Nat) : FreshRecord := ⟨Record.new table, rfl⟩

def ofReset (record : Record) : FreshRecord := ⟨record.reset, rfl⟩

/-- The same record with its field table as a parse left it. -/
def withFields (record : FreshRecord) (fields : List Field) : FreshRecord :=
  ⟨{ record.1 with fields := fields }, by
    have fresh := record.2
    generalize record.1 = inner at fresh
    rcases inner with ⟨⟩
    simp only [Record.reset, Record.mk.injEq] at fresh ⊢
    tauto⟩

theorem charge_eq (record : FreshRecord) : record.1.charge = 0 := by
  rw [← record.2]
  rfl

theorem body_eq (record : FreshRecord) : record.1.body = [] := by
  rw [← record.2]
  rfl

end FreshRecord

end ZeroServer.Http
